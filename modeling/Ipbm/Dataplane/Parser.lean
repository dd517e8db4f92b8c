import Ipbm.Dataplane.Gateway

/-! The parser of a processor (`dataplane/parser.h`): up to four levels, each a
TCAM of 256 states and keys with an action per slot. -/

set_option autoImplicit false

namespace Ipbm.Dataplane
open Lib

/-- Conversion of an integer to an unsigned type of `bits` bits. -/
def wrap (bits : Nat) (value : Int) : Nat := (value % 2 ^ bits).toNat

theorem wrap_natCast (bits value : Nat) : wrap bits value = value % 2 ^ bits := by
  have cast : (value : Int) % 2 ^ bits = ((value % 2 ^ bits : Nat) : Int) := by push_cast; rfl
  rw [wrap, cast, Int.toNat_natCast]

theorem wrap_lt (bits : Nat) (value : Int) : wrap bits value < 2 ^ bits := by
  have bound : value % 2 ^ bits < 2 ^ bits := Int.emod_lt_of_pos value (Int.pow_pos (by decide))
  rw [wrap, Int.toNat_lt' (Nat.two_pow_pos bits)]
  exact_mod_cast bound

/-- A number in range stays as it is. -/
theorem wrap_of_range {bits : Nat} {value : Int} (low : 0 ≤ value) (high : value < 2 ^ bits) :
    (wrap bits value : Int) = value := by
  unfold wrap
  rw [Int.emod_eq_of_lt low high]
  exact Int.toNat_of_nonneg low

structure ParserTcamEntry where
  state : Nat := 0
  entry : Nat := 0xffffffff
  mask : Nat := 0xffffffff
  deriving DecidableEq, Repr

def transFdCapacity : Nat := 4

/-- The constructor sets the fields only: the other members have no value. `transFds` is an array
of `transFdCapacity` fields. -/
structure ParserSramEntry where
  hdrId : Option Nat := none
  hdrLen : Option Nat := none
  nextState : Option Nat := none
  transFdNum : Option Nat := none
  transFds : Nat → FieldInfo := fun _ => {}
  missAct : Option Nat := none

/-- Slots are numbered by an unsigned byte. -/
structure ParserStage where
  transTbl : Nat → ParserTcamEntry := fun _ => {}
  actTbl : Nat → ParserSramEntry := fun _ => {}

/-- The arguments of `modify_trans_entry`. -/
structure ParserEntry where
  state : Nat
  entry : Nat
  mask : Nat
  hdrId : Nat
  hdrLen : Nat
  nextState : Nat
  transFdNum : Nat
  transFds : List FieldInfo
  missAct : Nat
  deriving DecidableEq, Repr

namespace ParserStage

def slots : Nat := 256

/-- The `memset` of five bytes reaches the header id, the header length and the next state. -/
def clear (stage : ParserStage) : ParserStage where
  transTbl := fun _ => {}
  actTbl := fun index => { stage.actTbl index with
    hdrId := some 0, hdrLen := some 0, nextState := some 0, transFds := fun _ => {} }

/-- The state plus the bytes of the key; an entry that matches everything is counted from the end. -/
def entryIdx (state entry mask : Nat) : Nat :=
  if entry = 0 ∧ mask = 0 then
    (255 - state) % 256
  else
    (state + ((List.range 4).map fun byte => (entry >>> (8 * byte)) % 256).sum) % 256

def modifyTransEntry (stage : ParserStage) (entry : ParserEntry) : Option ParserStage :=
  let idx := entryIdx entry.state entry.entry entry.mask
  let old := stage.actTbl idx
  if entry.transFdNum ≤ transFdCapacity ∧ entry.transFdNum ≤ entry.transFds.length then
    some {
      transTbl := Function.update stage.transTbl idx ⟨entry.state, entry.entry, entry.mask⟩
      actTbl := Function.update stage.actTbl idx {
        hdrId := some entry.hdrId
        hdrLen := some entry.hdrLen
        nextState := some entry.nextState
        transFdNum := some entry.transFdNum
        transFds := fun index =>
          if index < entry.transFdNum then entry.transFds.getD index {} else old.transFds index
        missAct := some entry.missAct } }
  else
    none

/-- A field inside one byte keeps the bits in front of it. -/
def fieldInt (leftEmpty temp : Nat) : List UInt8 → Option Nat
  | [] => some 0
  | [byte] => some (byte.toNat >>> (8 - temp))
  | first :: rest => do
      let (low, offset) ← Gateway.lowBytes temp rest
      let high ← shl32 (Gateway.withoutHigh first leftEmpty) offset
      return (low + high) % 2 ^ 32

def getFieldInt (phv : Phv) (transFd : FieldInfo) : Option Nat :=
  if transFd.fdType = .valid then
    phv.validBitmap[transFd.hdrId]?
  else do
    let header ← phv.parsedHeaders[transFd.hdrId]?
    let beginIdx := header.hdrOffset + transFd.internalOffset
    let stop := beginIdx + transFd.fdLen
    let bytes ← copyOut phv.packet (beginIdx / 8) ((stop - 1) / 8 + 1 - beginIdx / 8)
    fieldInt (beginIdx % 8) (if stop % 8 = 0 then 8 else stop % 8) bytes

/-- The key is added to its own shifted value. -/
def transKeyStep (phv : Phv) (key : Nat) (transFd : FieldInfo) : Option Nat := do
  let res ← getFieldInt phv transFd
  let shifted ← shl32 key transFd.fdLen
  return (key + shifted + res) % 2 ^ 32

/-- The slot of the current state and key. -/
def matchIdx (stage : ParserStage) (phv : Phv) : Option Nat :=
  (List.range slots).find? fun index =>
    decide ((stage.transTbl index).state = phv.curState ∧
      (stage.transTbl index).entry = phv.curTransKey &&& (stage.transTbl index).mask)

def drop (phv : Phv) : Option Phv := dropPacket { phv with nextProcId := -1 }

def parse (stage : ParserStage) (phv : Phv) : Option Phv :=
  match stage.matchIdx phv with
  | none => if phv.missAct = 1 then drop phv else some phv
  | some index => do
      let entry := stage.actTbl index
      let hdrId ← entry.hdrId
      let hdrLen ← entry.hdrLen
      let validBitmap ← setAt phv.validBitmap hdrId 1
      let parsedHeaders ← setAt phv.parsedHeaders hdrId ⟨hdrId, phv.curOffset, hdrLen⟩
      let phv := { phv with
        validBitmap, parsedHeaders
        curOffset := (phv.curOffset + hdrLen) % 2 ^ 16
        curState := ← entry.nextState
        missAct := ← entry.missAct }
      if phv.missAct = 0 then
        return phv
      else if phv.missAct = 1 then
        drop phv
      else
        let transFdNum ← entry.transFdNum
        if transFdNum ≤ transFdCapacity then
          let curTransKey ← ((List.range transFdNum).map entry.transFds).foldlM (transKeyStep phv) 0
          return { phv with curTransKey }
        else
          none

end ParserStage

structure Parser where
  neededParserLevel : Nat := 0
  parserLevels : List ParserStage := List.replicate 4 {}
  ifWork : Bool := false

namespace Parser

def fresh : Parser := {}

def initParserLevel (parser : Parser) (parserLevel : Nat) : Parser :=
  { parser with neededParserLevel := parserLevel, ifWork := true }

def clear (parser : Parser) : Option Parser :=
  if parser.neededParserLevel ≤ parser.parserLevels.length then
    some {
      parserLevels := (parser.parserLevels.take parser.neededParserLevel).map ParserStage.clear ++
        parser.parserLevels.drop parser.neededParserLevel }
  else
    none

/-- The header length is passed on in a byte. -/
def modifyParserEntryDirect (parser : Parser) (level : Nat) (entry : ParserEntry) : Option Parser := do
  let stage ← parser.parserLevels[level]?
  let stage ← stage.modifyTransEntry { entry with hdrLen := entry.hdrLen % 2 ^ 8 }
  return { parser with parserLevels := parser.parserLevels.set level stage }

/-- A level that ends the packet keeps the following ones from running. -/
def parseLevels : List ParserStage → Phv → Option Phv
  | [], phv => some phv
  | stage :: rest, phv => do
      let phv ← stage.parse phv
      if phv.nextProcId = -1 then return phv else parseLevels rest phv

/-- A fifth level would be read past the array. -/
def parse (parser : Parser) (phv : Phv) : Option Phv :=
  if parser.ifWork then
    if parser.neededParserLevel ≤ parser.parserLevels.length then
      parseLevels (parser.parserLevels.take parser.neededParserLevel) phv
    else
      do
        let phv ← parseLevels parser.parserLevels phv
        if phv.nextProcId = -1 then return phv else none
  else
    some { phv with nextProcId := -1 }

end Parser

end Ipbm.Dataplane
