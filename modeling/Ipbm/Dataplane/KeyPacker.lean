import Ipbm.Dataplane.Defs

/-! The bit packer `combine_to_single_key`. It exists twice, in the matcher and in
the table controller; the copies differ in one statement of the last-byte step,
so the packer takes what that statement adds to the write index. -/

set_option autoImplicit false

namespace Ipbm.Dataplane
open Lib

/-- A left-aligned field. The member `byte_len` is the length of `field`, and
`field_len` is never read. -/
structure KeyInfo where
  tailOffset : Nat
  field : List UInt8
  deriving DecidableEq, Repr

structure PackState where
  matchKey : List UInt8
  curIdx : Nat
  curBitLeft : Nat
  deriving DecidableEq, Repr

def addAt (key : List UInt8) (index value : Nat) : Option (List UInt8) := do
  let old ← key[index]?
  setAt key index (u8 (old.toNat + value))

/-- A byte of a field that is not its last. -/
def packByte (state : PackState) (byte : UInt8) : Option PackState := do
  let key ← addAt state.matchKey state.curIdx (byte.toNat >>> (8 - state.curBitLeft))
  if state.curBitLeft < 8 then
    let key ← setAt key (state.curIdx + 1) (u8 (byte.toNat <<< state.curBitLeft))
    return ⟨key, state.curIdx + 1, state.curBitLeft⟩
  else
    return ⟨key, state.curIdx + 1, state.curBitLeft⟩

/-- The last byte of a field. `advance` is what the first branch adds to the index. -/
def packLastByte (advance tailOffset : Nat) (state : PackState) (byte : UInt8) : Option PackState := do
  let key ← addAt state.matchKey state.curIdx (byte.toNat >>> (8 - state.curBitLeft))
  if tailOffset < state.curBitLeft then
    return ⟨key, state.curIdx + advance, state.curBitLeft - tailOffset⟩
  else if state.curBitLeft = tailOffset then
    return ⟨key, state.curIdx + 1, 8⟩
  else
    let key ← setAt key (state.curIdx + 1) (u8 (byte.toNat <<< state.curBitLeft))
    return ⟨key, state.curIdx + 1, 8 - tailOffset + state.curBitLeft⟩

def packBytes (advance tailOffset : Nat) : PackState → List UInt8 → Option PackState
  | state, [] => some state
  | state, [byte] => packLastByte advance tailOffset state byte
  | state, byte :: next :: rest => do
      let state ← packByte state byte
      packBytes advance tailOffset state (next :: rest)

def packField (advance : Nat) (state : PackState) (info : KeyInfo) : Option PackState :=
  packBytes advance info.tailOffset state info.field

/-- `fdLenSum` arrives in a 16-bit `LEN`. -/
def combineToSingleKeyWith (advance : Nat) (keyInfos : List KeyInfo) (fdLenSum : Nat) :
    Option (List UInt8) := do
  let len := bytesFor (fdLenSum % 2 ^ 16)
  let state ← keyInfos.foldlM (packField advance) ⟨List.replicate len 0, 0, 8⟩
  return state.matchKey

end Ipbm.Dataplane
