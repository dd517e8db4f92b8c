import Ipbm.Dataplane.Executor
import Mathlib.Logic.Function.Basic

/-! The gateway of a processor (`dataplane/gateway.h`): relations over packet
fields form a bitmap that selects the next table or stage. -/

set_option autoImplicit false

namespace Ipbm.Dataplane
open Lib

inductive RelationCode where
  | gt | gte | lt | lte | eq | neq
  deriving DecidableEq, Repr

def RelationCode.holds : RelationCode → Nat → Nat → Bool
  | .gt, left, right => left > right
  | .gte, left, right => left ≥ right
  | .lt, left, right => left < right
  | .lte, left, right => left ≤ right
  | .eq, left, right => left = right
  | .neq, left, right => left ≠ right

structure RelationExp where
  param1 : GateParam
  param2 : GateParam
  relation : RelationCode
  deriving DecidableEq, Repr

/-- `capacity` is the capacity of the vector `exps`. `bitmap` is zero between two packets and so
is no member here; `default_entry` has no value until one is set. -/
structure Gateway where
  exps : List RelationExp := []
  capacity : Nat := 0
  resNext : Nat → Option GateEntry := fun _ => none
  defaultEntry : Option GateEntry := none

namespace Gateway

def fresh : Gateway := {}

def setDefaultEntry (gateway : Gateway) (entry : GateEntry) : Gateway :=
  { gateway with defaultEntry := some entry }

/-- A full vector doubles its storage. -/
def grownCapacity (capacity size : Nat) : Nat :=
  if size < capacity then capacity else if capacity = 0 then 1 else 2 * capacity

def insertExp (gateway : Gateway) (exp : RelationExp) : Gateway :=
  { gateway with
    exps := gateway.exps ++ [exp]
    capacity := grownCapacity gateway.capacity gateway.exps.length }

/-- The cleared vector keeps its capacity. -/
def clear (gateway : Gateway) : Gateway :=
  { gateway with exps := [], resNext := fun _ => none, defaultEntry := some .zero }

/-- The key of the map is an unsigned byte. -/
def modifyResMap (gateway : Gateway) (key : Int) (entry : GateEntry) : Gateway :=
  { gateway with resNext := Function.update gateway.resNext (key % 256).toNat (some entry) }

def clearResNext (gateway : Gateway) : Gateway :=
  { gateway with resNext := fun _ => none }

/-- The bytes behind the first, and the offset at which the next byte is added. -/
def lowBytes (temp : Nat) : List UInt8 → Option (Nat × Nat)
  | [] => none
  | [last] => some (last.toNat >>> (8 - temp), temp)
  | byte :: rest => do
      let (low, offset) ← lowBytes temp rest
      let high ← shl32 byte.toNat offset
      return ((low + high) % 2 ^ 32, offset + 8)

/-- A byte without its `shift` leading bits. -/
def withoutHigh (byte : UInt8) (shift : Nat) : Nat := (u8 (byte.toNat <<< shift)).toNat >>> shift

def fieldValue (beginOffset temp : Nat) : List UInt8 → Option Nat
  | [] => some 0
  | [byte] => some (withoutHigh byte beginOffset >>> (8 - temp))
  | first :: rest => do
      let (low, offset) ← lowBytes temp rest
      let high ← shl32 (withoutHigh first beginOffset) offset
      return (low + high) % 2 ^ 32

/-- `~hit` is computed on a promoted integer. -/
def getValue (param : GateParam) (phv : Phv) : Option Nat :=
  match param with
  | .field field =>
      match field.fdType with
      | .valid => phv.validBitmap[field.hdrId]?
      | .hit => some phv.hit.toNat
      | .miss => some (2 ^ 32 - 1 - phv.hit.toNat)
      | .field => do
          let hi ← phv.parsedHeaders[field.hdrId]?
          let start := hi.hdrOffset + field.internalOffset
          let stop := start + field.fdLen
          let bytes ← copyOut phv.packet (start / 8) ((stop + 7) / 8 - start / 8)
          fieldValue (start % 8) (if stop % 8 = 0 then 8 else stop % 8) bytes
  | .constant data =>
      let byteLen := bytesFor data.dataLen
      if byteLen ≤ 4 ∧ byteLen ≤ data.val.length then some (beVal (data.val.take byteLen)) else none
  | .unset => some 0

def conditionHolds (phv : Phv) (exp : RelationExp) : Option Bool := do
  let left ← getValue exp.param1 phv
  let right ← getValue exp.param2 phv
  return exp.relation.holds left right

/-- The loop bound is the capacity: behind the last expression it reads past the vector. A ninth
expression would shift by a negative amount. -/
def bitmap (gateway : Gateway) (phv : Phv) : Option Nat :=
  (List.range gateway.capacity).foldlM (fun bits index => do
    let exp ← gateway.exps[index]?
    let holds ← conditionHolds phv exp
    if index < 8 then return (bits + holds.toNat <<< (7 - index)) % 256 else none) 0

def execute (gateway : Gateway) (phv : Phv) : Option Phv := do
  let bits ← gateway.bitmap phv
  match gateway.resNext bits with
  | some entry => return { phv with nextOp := entry }
  | none => do
      let entry ← gateway.defaultEntry
      return { phv with nextOp := entry }

end Gateway

/-- The configuration requests a gateway receives. -/
inductive GatewayRequest where
  | clearRelationExp
  | insertRelationExp (exp : RelationExp)
  | clearResMap
  | modResMap (key : Int) (entry : GateEntry)
  | setDefaultGateEntry (entry : GateEntry)
  deriving DecidableEq, Repr

def Gateway.apply (gateway : Gateway) : GatewayRequest → Gateway
  | .clearRelationExp => gateway.clear
  | .insertRelationExp exp => gateway.insertExp exp
  | .clearResMap => gateway.clearResNext
  | .modResMap key entry => gateway.modifyResMap key entry
  | .setDefaultGateEntry entry => gateway.setDefaultEntry entry

end Ipbm.Dataplane
