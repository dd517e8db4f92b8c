import Ipbm.Dataplane.KeyPacker
import Ipbm.Dataplane.Matcher

/-! The table controller (`controller/ctrl_mod_table.h`): an update document
becomes one insert request. -/

set_option autoImplicit false

namespace Ipbm.Controller
open Lib Dataplane

/-- One element of `keys` or `action_para`: a width in bits and the bytes of a number. -/
structure UpdateField where
  width : Nat
  value : List UInt8
  mask : List UInt8 := []
  deriving DecidableEq, Repr

/-- The members of an update document that `extract` uses; the member `type` is read and ignored. -/
structure TableUpdate where
  procId : Int
  matcherId : Int
  actionId : Int
  matchType : MatchType
  keys : List UpdateField
  actionPara : List UpdateField
  deriving DecidableEq, Repr

inductive TableRequest where
  | insertSramEntry (procId matcherId : Int) (key value : List UInt8)
  | insertTcamEntry (procId matcherId : Int) (key mask value : List UInt8)
  deriving DecidableEq, Repr

/-- This copy advances the write index in every branch of the last-byte step. -/
def combineToSingleKey (keyInfos : List KeyInfo) (fdLenSum : Nat) : Option (List UInt8) :=
  combineToSingleKeyWith 1 keyInfos fdLenSum

/-- The bytes of one number shifted to the left end of a buffer of `width_byte` bytes. A
document with another number of bytes leaves the buffer incomplete or overruns it. -/
def leftAlign (width : Nat) (value : List UInt8) : Option KeyInfo :=
  let widthByte := bytesFor width
  if value.length = widthByte ∧ 0 < widthByte then
    some ⟨widthByte * 8 - width, shlBytes (widthByte * 8 - width) value⟩
  else
    none

/-- A packed buffer and the number of bytes the request copies from it. -/
def packUpdate (fields : List (Nat × List UInt8)) : Option (List UInt8 × Nat) := do
  let widthSum := (fields.map Prod.fst).sum
  let keyInfos ← fields.mapM fun field => leftAlign field.1 field.2
  let packed ← combineToSingleKey keyInfos widthSum
  return (packed, bytesFor widthSum)

def extractActionPara (fields : List UpdateField) : Option (List UInt8 × Nat) :=
  packUpdate (fields.map fun field => (field.width, field.value))

def extractExact (fields : List UpdateField) : Option (List UInt8 × Nat) :=
  packUpdate (fields.map fun field => (field.width, field.value))

def extractTernary (fields : List UpdateField) : Option (List UInt8 × List UInt8 × Nat) := do
  let (key, keyWidth) ← packUpdate (fields.map fun field => (field.width, field.value))
  let (mask, _) ← packUpdate (fields.map fun field => (field.width, field.mask))
  return (key, mask, keyWidth)

/-- The bytes of a buffer as a request string. -/
def getString (bytes : List UInt8) (len : Nat) : Option (List UInt8) :=
  if len ≤ bytes.length then some (bytes.take len) else none

/-- The buffer `new_value`, which puts the action id before the parameters, is built and
logged; the request carries `value`, which has no action id. -/
def extract (update : TableUpdate) : Option TableRequest :=
  match update.matchType with
  | .exact => do
      let (key, keyWidth) ← extractExact update.keys
      let (value, valueWidth) ← extractActionPara update.actionPara
      return .insertSramEntry update.procId update.matcherId
        (← getString key keyWidth) (← getString value valueWidth)
  | .ternary | .lpm => do
      let (key, mask, keyWidth) ← extractTernary update.keys
      let (value, valueWidth) ← extractActionPara update.actionPara
      return .insertTcamEntry update.procId update.matcherId
        (← getString key keyWidth) (← getString mask keyWidth) (← getString value valueWidth)

end Ipbm.Controller
