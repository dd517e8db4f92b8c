import Ipbm.Dataplane.KeyPacker
import Ipbm.Lib.BlockMemory

/-! Match tables (`dataplane/matcher_c.h`). A matcher thread owns no memory: its
configuration selects blocks of the SRAM and TCAM arrays shared by a cluster. -/

set_option autoImplicit false

namespace Ipbm.Dataplane
open Lib

inductive MatchType where
  | exact | ternary | lpm
  deriving DecidableEq, Repr

/-- The global block arrays. -/
structure Memory where
  srams : Banks
  tcams : Banks
  masks : Banks

def Memory.fresh : Memory := ⟨fun _ _ => 0, fun _ _ => 0, fun _ _ => 0⟩

/-- The members of the three unions are one member each. `sram` and `tcam` always point at
the blocks of the processor's cluster, so `procId` stands for them. -/
structure MatcherThread where
  procId : Nat
  actionProcMap : Int → Option Int := fun _ => none
  noTable : Bool := true
  keyConfig : List UInt8 := List.replicate sramNumPerCluster 0
  valueConfig : List UInt8 := List.replicate sramNumPerCluster 0
  keyWidth : Nat := 0
  valueWidth : Nat := 0
  depth : Nat := 0
  matchType : MatchType := .exact
  fdInfos : List FieldInfo := []
  tcamIdx : Nat := 0
  missActId : Int := -1

namespace MatcherThread

def sramBlock (thread : MatcherThread) (index : UInt8) : Option Nat :=
  if index.toNat < sramNumPerCluster then
    some (thread.procId / procNumPerCluster * sramIdxBase + index.toNat)
  else
    none

def tcamBlock (thread : MatcherThread) (index : UInt8) : Option Nat :=
  if index.toNat < tcamNumPerCluster then
    some (thread.procId / procNumPerCluster * tcamIdxBase + index.toNat)
  else
    none

/-- The blocks of one hash slice: every `depth`-th entry of a configuration array. -/
def blockSeq (block : UInt8 → Option Nat) (config : List UInt8) (width depth slice : Nat) :
    Option (List Nat) :=
  (List.range width).mapM fun index => do
    let entry ← config[slice + depth * index]?
    block entry

def sramKeySeq (thread : MatcherThread) (slice : Nat) : Option (List Nat) :=
  blockSeq thread.sramBlock thread.keyConfig thread.keyWidth thread.depth slice

def sramValueSeq (thread : MatcherThread) (slice : Nat) : Option (List Nat) :=
  blockSeq thread.sramBlock thread.valueConfig thread.valueWidth thread.depth slice

def tcamKeySeq (thread : MatcherThread) (slice : Nat) : Option (List Nat) :=
  blockSeq thread.tcamBlock (thread.keyConfig.take tcamNumPerCluster) thread.keyWidth thread.depth slice

/-- The blocks behind the first `count` entries of a configuration array. -/
def configured (block : UInt8 → Option Nat) (config : List UInt8) (count : Nat) : Option (List Nat) :=
  (List.range count).mapM fun index => do
    let entry ← config[index]?
    block entry

def setActionProcMap (thread : MatcherThread) (actionProcs : List (Int × Int)) : MatcherThread :=
  { thread with
    actionProcMap := actionProcs.foldl (fun map pair => Function.update map pair.1 (some pair.2))
      thread.actionProcMap }

/-- A ternary table clears its value blocks only up to the size of a TCAM block, and its
value configuration only up to the number of TCAM blocks. -/
def clearOldConfig (memory : Memory) (thread : MatcherThread) : Option (Memory × MatcherThread) :=
  let cleared := { thread with
    noTable := true, fdInfos := [], actionProcMap := fun _ => none, missActId := -1
    keyWidth := 0, valueWidth := 0, depth := 0 }
  let valueCount := thread.valueWidth * thread.depth
  let keyCount := thread.keyWidth * thread.depth
  match thread.matchType with
  | .exact => do
      let keys ← configured thread.sramBlock thread.keyConfig keyCount
      let values ← configured thread.sramBlock thread.valueConfig valueCount
      let wipe := fun banks block => clearBank banks block (physicalSramCapacity / 8)
      return ({ memory with srams := (keys ++ values).foldl wipe memory.srams },
        { cleared with
          keyConfig := List.replicate sramNumPerCluster 0
          valueConfig := List.replicate sramNumPerCluster 0 })
  | .ternary | .lpm => do
      let keys ← configured thread.tcamBlock (thread.keyConfig.take tcamNumPerCluster) keyCount
      let values ← configured thread.sramBlock thread.valueConfig valueCount
      let wipe := fun banks block => clearBank banks block (physicalTcamCapacity / 8)
      return ({ srams := values.foldl wipe memory.srams
                tcams := keys.foldl wipe memory.tcams
                masks := keys.foldl wipe memory.masks },
        { cleared with
          keyConfig := List.replicate tcamNumPerCluster 0 ++ thread.keyConfig.drop tcamNumPerCluster
          valueConfig := List.replicate tcamNumPerCluster 0 ++ thread.valueConfig.drop tcamNumPerCluster
          tcamIdx := 0 })

def initMatchType (thread : MatcherThread) (matchType : MatchType) : MatcherThread :=
  { thread with matchType }

def setNoTable (thread : MatcherThread) (noTable : Bool) : MatcherThread :=
  { thread with noTable }

/-- The first `count` entries of an array overwritten from another. -/
def copyConfig (capacity count : Nat) (source target : List UInt8) : Option (List UInt8) :=
  if count ≤ capacity ∧ count ≤ source.length then
    some (source.take count ++ target.drop count)
  else
    none

def setMemConfig (thread : MatcherThread) (keyWidth valueWidth depth : Nat)
    (keyConfig valueConfig : List UInt8) : Option MatcherThread := do
  let keyCapacity := if thread.matchType = .exact then sramNumPerCluster else tcamNumPerCluster
  let keyConfig ← copyConfig keyCapacity (keyWidth * depth) keyConfig thread.keyConfig
  let valueConfig ← copyConfig sramNumPerCluster (valueWidth * depth) valueConfig thread.valueConfig
  return { thread with noTable := false, keyWidth, valueWidth, depth, keyConfig, valueConfig }

def setMissActId (thread : MatcherThread) (missActId : Int) : MatcherThread :=
  { thread with missActId }

def setFieldInfo (thread : MatcherThread) (fdInfos : List FieldInfo) : MatcherThread :=
  { thread with fdInfos }

/-- The 16-bit sum that hashes a key. -/
def keySum (key : List UInt8) : Nat := (key.map UInt8.toNat).sum % 2 ^ 16

/-- The remainder by the depth, undefined for a thread without depth. -/
def sliceIdx (thread : MatcherThread) (key : List UInt8) : Option Nat :=
  if thread.depth = 0 then none else some (keySum key % thread.depth)

def sramRow (key : List UInt8) : Nat := keySum key % 2 ^ sramDepth

/-- The byte lengths of the request are the lengths of its two strings. -/
def insertSramEntry (memory : Memory) (thread : MatcherThread) (key value : List UInt8) :
    Option Memory := do
  let slice ← thread.sliceIdx key
  let keySeq ← thread.sramKeySeq slice
  let valueSeq ← thread.sramValueSeq slice
  let srams ← writeSlices (sramWidth / 8) (sramRow key) key 0 keySeq memory.srams
  let srams ← writeSlices (sramWidth / 8) (sramRow key) value 0 valueSeq srams
  return { memory with srams }

def insertTcamEntry (memory : Memory) (thread : MatcherThread) (key mask value : List UInt8) :
    Option (Memory × MatcherThread) := do
  let slice ← thread.sliceIdx key
  let keySeq ← thread.tcamKeySeq slice
  let valueSeq ← thread.sramValueSeq slice
  let row := thread.tcamIdx
  -- A slice without blocks copies nothing, whatever the row.
  if (keySeq = [] ∨ row < 2 ^ tcamDepth ∧ key.length ≤ mask.length) ∧
    (valueSeq = [] ∨ row < 2 ^ sramDepth) then
    let tcams ← writeSlices (tcamWidth / 8) row key 0 keySeq memory.tcams
    let masks ← writeSlices (tcamWidth / 8) row (mask.take key.length) 0 keySeq memory.masks
    let srams ← writeSlices (sramWidth / 8) row value 0 valueSeq memory.srams
    return (⟨srams, tcams, masks⟩, { thread with tcamIdx := row + 1 })
  else
    none

/-- A field byte glued from the packet byte at `index` and the next one. -/
def fieldByte (packet : List UInt8) (beginIdx index : Nat) : Option UInt8 := do
  let byte ← packet[beginIdx / 8 + index]?
  let next ← packet[beginIdx / 8 + index + 1]?
  return u8 (byte.toNat <<< (beginIdx % 8) + next.toNat >>> (8 - beginIdx % 8))

/-- The last byte, which needs the next packet byte only if the field reaches into it. -/
def lastFieldByte (packet : List UInt8) (beginIdx rightEmpty index : Nat) : Option UInt8 :=
  if 8 ≤ beginIdx % 8 + rightEmpty then
    fieldByte packet beginIdx index
  else do
    let byte ← packet[beginIdx / 8 + index]?
    return u8 (byte.toNat <<< (beginIdx % 8))

/-- The padding of a left-aligned field. -/
def emptyBits (bits : Nat) : Nat := if bits % 8 = 0 then 0 else 8 - bits % 8

/-- A match field, left-aligned. -/
def getField (fd : FieldInfo) (phv : Phv) : Option KeyInfo :=
  if fd.fdType = .valid then do
    let valid ← phv.validBitmap[fd.hdrId]?
    return ⟨7, [u8 (valid <<< 7)]⟩
  else do
    let hi ← phv.parsedHeaders[fd.hdrId]?
    let beginIdx := hi.hdrOffset + fd.internalOffset
    match bytesFor fd.fdLen with
    | 0 => none
    | front + 1 => do
        let last ← lastFieldByte phv.packet beginIdx (emptyBits (beginIdx + fd.fdLen)) front
        let field ← (List.range front).mapM (fieldByte phv.packet beginIdx)
        let emptyLen := emptyBits fd.fdLen
        return ⟨emptyLen, field ++ [u8 (last.toNat >>> emptyLen <<< emptyLen)]⟩

/-- This copy leaves the write index behind after a field that ends inside a byte. -/
def combineToSingleKey (keyInfos : List KeyInfo) (fdLenSum : Nat) : Option (List UInt8) :=
  combineToSingleKeyWith 0 keyInfos fdLenSum

/-- Byte comparison that stops at the first difference. -/
def sameKey : List UInt8 → List UInt8 → Option Bool
  | [], _ => some true
  | _ :: _, [] => none
  | byte :: key, other :: others => if byte = other then sameKey key others else some false

def maskedSameKey (mask : Nat → UInt8) : Nat → List UInt8 → List UInt8 → Option Bool
  | _, [], _ => some true
  | _, _ :: _, [] => none
  | index, byte :: key, other :: others =>
      if byte &&& mask index = other then maskedSameKey mask (index + 1) key others else some false

/-- The first row that matches. -/
def findRow (rowMatches : Nat → Option Bool) : List Nat → Option (Option Nat)
  | [] => some none
  | row :: rest => do
      let found ← rowMatches row
      if found then return some row else findRow rowMatches rest

/-- The value row of a hit. The ternary lookup never writes `tmp_mask`, so it reads the
`scratch` its allocation returned, and its `tmp_key` holds the mask copied over the key. -/
def getMatchRes (memory : Memory) (scratch : Nat → UInt8) (thread : MatcherThread)
    (matchKey : List UInt8) : Option (Option (List UInt8)) :=
  match thread.matchType with
  | .exact => do
      let slice ← thread.sliceIdx matchKey
      let keySeq ← thread.sramKeySeq slice
      let valueSeq ← thread.sramValueSeq slice
      let row := sramRow matchKey
      let outKey := readSlices (sramWidth / 8) row keySeq memory.srams
      let outValue := readSlices (sramWidth / 8) row valueSeq memory.srams
      let same ← sameKey matchKey outKey
      return if same then some outValue else none
  | .ternary | .lpm => do
      let slice ← thread.sliceIdx matchKey
      let keySeq ← thread.tcamKeySeq slice
      let valueSeq ← thread.sramValueSeq slice
      let found ← findRow
        (fun row => maskedSameKey scratch 0 matchKey (readSlices (tcamWidth / 8) row keySeq memory.masks))
        (List.range (2 ^ tcamDepth))
      return found.map fun row => readSlices (sramWidth / 8) row valueSeq memory.srams

/-- What a lookup leaves behind: the flag and the two buffers. -/
structure MatchResult where
  hit : Bool
  outKey : List UInt8
  outValue : List UInt8
  deriving DecidableEq, Repr

/-- The front of a buffer overwritten. -/
def copyOver (bytes buffer : List UInt8) : List UInt8 := bytes ++ buffer.drop bytes.length

/-- The lookup with its flag, which the caller clears, and its buffers. The exact lookup fills them
before it compares, the ternary one only on a hit. -/
def matchResult (memory : Memory) (scratch : Nat → UInt8) (thread : MatcherThread)
    (outKey outValue matchKey : List UInt8) : Option MatchResult :=
  match thread.matchType with
  | .exact => do
      let slice ← thread.sliceIdx matchKey
      let keySeq ← thread.sramKeySeq slice
      let valueSeq ← thread.sramValueSeq slice
      let row := sramRow matchKey
      let outKey := copyOver (readSlices (sramWidth / 8) row keySeq memory.srams) outKey
      let outValue := copyOver (readSlices (sramWidth / 8) row valueSeq memory.srams) outValue
      let same ← sameKey matchKey outKey
      return ⟨same, outKey, outValue⟩
  | .ternary | .lpm => do
      let slice ← thread.sliceIdx matchKey
      let keySeq ← thread.tcamKeySeq slice
      let valueSeq ← thread.sramValueSeq slice
      let found ← findRow
        (fun row => maskedSameKey scratch 0 matchKey (readSlices (tcamWidth / 8) row keySeq memory.masks))
        (List.range (2 ^ tcamDepth))
      return match found with
        | some row =>
            ⟨true, copyOver (readSlices (tcamWidth / 8) row keySeq memory.tcams) outKey,
              copyOver (readSlices (sramWidth / 8) row valueSeq memory.srams) outValue⟩
        | none => ⟨false, outKey, outValue⟩

/-- The key of a packet, with the fields' lengths summed in a 16-bit `LEN`. -/
def matchKey (thread : MatcherThread) (phv : Phv) : Option (List UInt8) := do
  let keyInfos ← thread.fdInfos.mapM (getField · phv)
  combineToSingleKey keyInfos (thread.fdInfos.map FieldInfo.fdLen).sum

def generateMatchKeyAndMatch (memory : Memory) (scratch : Nat → UInt8) (thread : MatcherThread)
    (phv : Phv) : Option Phv := do
  let key ← thread.matchKey phv
  match ← thread.getMatchRes memory scratch key with
  | some outValue => do
      let high ← outValue[0]?
      let low ← outValue[1]?
      return { phv with
        hit := true
        matchValue := some outValue
        matchValueLen := outValue.length
        nextActionId := low.toNat + high.toNat <<< 8 }
  | none => return { phv with hit := false, nextActionId := thread.missActId }

end MatcherThread

/-- The threads of a processor. -/
abbrev Matcher : Type := List MatcherThread

namespace Matcher

def fresh (procId : Nat) : Matcher := List.replicate matcherThreadNum { procId }

/-- `mts[matcher_id]`, for any integer. -/
def thread (matcher : Matcher) (matcherId : Int) : Option MatcherThread :=
  if matcherId < 0 then none else matcher[matcherId.toNat]?

def execute (memory : Memory) (scratch : Nat → UInt8) (matcher : Matcher) (matcherId : Int)
    (phv : Phv) : Option Phv := do
  let thread ← matcher.thread matcherId
  if thread.noTable then
    return { phv with hit := false, nextActionId := thread.missActId }
  else
    thread.generateMatchKeyAndMatch memory scratch phv

end Matcher

end Ipbm.Dataplane
