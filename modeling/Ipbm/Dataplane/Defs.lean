import Ipbm.Lib.BigEndian

/-! Constants, packet header vectors and the global packet helpers of the
switch (`dataplane/defs.h`, `dataplane/global.cpp`).

Fixed arrays are lists that keep their length, and an access outside one is
`none`: so is every other operation the source leaves undefined, such as a
read through an uninitialised pointer or a shift by the word size. -/

set_option autoImplicit false

namespace Ipbm.Dataplane
open Lib

def physicalSramCapacity : Nat := 128 * 1024
def sramDepth : Nat := 10
def sramWidth : Nat := 128
def physicalTcamCapacity : Nat := 64 * 1024
def tcamDepth : Nat := 10
def tcamWidth : Nat := 64
def matcherThreadNum : Nat := 16
def executorActionNum : Nat := 32
def sramNumAll : Nat := 80
def clusterNum : Nat := 4
def procNum : Nat := 12
def procNumPerCluster : Nat := procNum / clusterNum
def sramNumPerCluster : Nat := sramNumAll / clusterNum
def sramIdxBase : Nat := sramNumAll / clusterNum
def tcamNumAll : Nat := 64
def tcamNumPerCluster : Nat := tcamNumAll / clusterNum
def tcamIdxBase : Nat := tcamNumAll / clusterNum
def frontHeaderLen : Nat := 1500
def metaLen : Nat := 100

/-- Bytes that hold a number of bits, written `ceil(bits * 1.0 / 8)` or
`bits / 8 + ((bits % 8) > 0)` in the source. -/
def bytesFor (bits : Nat) : Nat := (bits + 7) / 8

inductive OpCode where
  | add | sub | mul | div | mod
  | shiftLeft | shiftRight | bitAnd | bitOr | bitXor | bitNeg
  | setField | copyField
  | setTtl | decrementTtl | copyTtlOutwards | copyTtlInwards
  | push | pop | decrement
  deriving DecidableEq, Repr

inductive FieldType where
  | field | valid | hit | miss
  deriving DecidableEq, Repr

/-- Offsets and lengths are in bits. -/
structure HeaderInfo where
  hdrId : Nat := 0
  hdrOffset : Nat := 0
  hdrLen : Nat := 0
  deriving DecidableEq, Repr, Inhabited

structure FieldInfo where
  hdrId : Nat := 0
  internalOffset : Nat := 0
  fdLen : Nat := 0
  fdType : FieldType := .field
  deriving DecidableEq, Repr, Inhabited

structure Data where
  dataLen : Nat := 0
  val : List UInt8 := []
  deriving DecidableEq, Repr, Inhabited

/-- An operand or operator of an expression tree; the constructor is the `type` tag. -/
inductive Parameter where
  | constant (data : Data)
  | header (headerId : Nat)
  | field (field : FieldInfo)
  | param (actionParaId : Nat)
  | operator (op : OpCode)
  deriving DecidableEq, Repr

/-- A gateway operand. `unset` is an operand whose tag is neither FIELD nor CONSTANT. -/
inductive GateParam where
  | field (field : FieldInfo)
  | constant (data : Data)
  | unset
  deriving DecidableEq, Repr

inductive GateEntryType where
  | table | stage
  deriving DecidableEq, Repr, Inhabited

structure GateEntry where
  type : GateEntryType
  val : Int
  deriving DecidableEq, Repr

/-- The value `GateEntry{}`: both members zero. -/
def GateEntry.zero : GateEntry := ⟨.table, 0⟩

/-- Packet header vector. The members that no packet path reads are left out. -/
structure Phv where
  packet : List UInt8
  parsedHeaders : List HeaderInfo
  validBitmap : List Nat
  curState : Nat := 0
  curOffset : Nat := 0
  curTransKey : Nat := 0xffff
  missAct : Nat := 2
  matchValue : Option (List UInt8) := none
  matchValueLen : Nat := 0
  hit : Bool := false
  nextProcId : Int := 0
  nextActionId : Int := 0
  nextOp : GateEntry := .zero
  deriving DecidableEq, Repr

/-- The vector a `PHV` constructor leaves. -/
def Phv.fresh : Phv where
  packet := List.replicate (frontHeaderLen + metaLen) 0
  parsedHeaders := List.replicate 32 {}
  validBitmap := List.replicate 32 0

/-- A write to a fixed array. -/
def setAt {α : Type} (items : List α) (index : Nat) (item : α) : Option (List α) :=
  if index < items.length then some (items.set index item) else none

theorem setAt_eq_some_iff {α : Type} {items after : List α} {index : Nat} {item : α} :
    setAt items index item = some after ↔ index < items.length ∧ after = items.set index item := by
  rw [setAt, Option.ite_none_right_eq_some, Option.some.injEq, eq_comm (a := after)]

/-- Left shift of a 32-bit word, undefined from the word size on. -/
def shl32 (value shift : Nat) : Option Nat :=
  if shift < 32 then some (value <<< shift % 2 ^ 32) else none

/-- Big-endian bytes of a 32-bit constant. The masked copy `num` of the source is never read. -/
def getUints (data length : Nat) : List UInt8 :=
  (List.range (bytesFor length)).map fun index =>
    u8 (data >>> ((bytesFor length - 1 - index) * 8))

/-- The bits of a byte that a field write keeps: `left` leading and `right` trailing ones. -/
def keepMask (left right : Nat) : Nat :=
  (((List.range left).map fun bit => 2 ^ (7 - bit)).sum +
    ((List.range right).map fun bit => 2 ^ bit).sum) % 256

/-- One data byte added to a buffer aligned to the field's end. The second component is
`idx + 1`, so that zero is the index the source would decrement below the buffer. -/
def spreadStep (val : List UInt8) (endOffset : Nat) :
    List UInt8 × Nat → Nat → Option (List UInt8 × Nat)
  | (_, 0), _ => none
  | (res, idx + 1), i => do
      let byte ← val[i]?
      let old ← res[idx]?
      let res ← setAt res idx
        (u8 (old.toNat + byte.toNat <<< (8 - if endOffset = 0 then 8 else endOffset)))
      if 0 < idx then
        let before ← res[idx - 1]?
        let res ← setAt res (idx - 1) (u8 (before.toNat + byte.toNat >>> endOffset))
        return (res, idx)
      else
        return (res, idx + 1)

/-- One packet byte rewritten, keeping the bits outside the field. -/
def writeStep (res : List UInt8) (beginBit endBit : Nat) :
    List UInt8 × Nat → Nat → Option (List UInt8 × Nat)
  | (_, 0), _ => none
  | (packet, idx + 1), i => do
      let word ← res[idx]?
      let old ← packet[i]?
      let saveRight := if i = (endBit - 1) / 8 ∧ endBit % 8 ≠ 0 then 8 - endBit % 8 else 0
      let saveLeft := if i = beginBit / 8 ∧ beginBit % 8 ≠ 0 then beginBit % 8 else 0
      let packet ← setAt packet i (u8 ((old.toNat &&& keepMask saveLeft saveRight) + word.toNat))
      return (packet, idx)

def modifyPhvWithData (field : FieldInfo) (data : Data) (phv : Phv) : Option Phv := do
  let hi ← phv.parsedHeaders[field.hdrId]?
  let beginBit := hi.hdrOffset + field.internalOffset
  let endBit := beginBit + field.fdLen
  let endOffset := endBit % 8
  let originLen := data.dataLen / 8 + if data.dataLen % 8 = 0 then 0 else 1
  -- without parentheses the aligned case is `(data_len / 8 + data_len % 8) ? 1 : 0`
  let len :=
    if endOffset = 0 then
      if data.dataLen / 8 + data.dataLen % 8 = 0 then 0 else 1
    else
      (data.dataLen + (8 - endOffset)) / 8 + if (data.dataLen + (8 - endOffset)) % 8 = 0 then 0 else 1
  let (res, _) ← (List.range originLen).reverse.foldlM (spreadStep data.val endOffset)
    (List.replicate len 0, len)
  -- from the last byte of the field down to its first
  let bytes := (List.range' (beginBit / 8) ((endBit + 7) / 8 - beginBit / 8)).reverse
  let (packet, _) ← bytes.foldlM (writeStep res beginBit endBit) (phv.packet, len)
  return { phv with packet }

/-- Marks the packet as dropped by clearing the egress port. -/
def dropPacket (phv : Phv) : Option Phv :=
  modifyPhvWithData ⟨31, 9, 9, .field⟩ ⟨9, getUints 0 9⟩ phv

end Ipbm.Dataplane
