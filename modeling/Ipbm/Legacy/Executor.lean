import Ipbm.Lib.BigEndian
import Ipbm.Lib.Traversal
import Ipbm.Legacy.LogicSram

/-! The executor of the first switch (`ipbm-old/src/dataplane/executor.cpp` and `action.h`): the
operations of an action on the headers of a packet, which are places in one memory. -/

set_option autoImplicit false

namespace Ipbm.Legacy
open Lib

/-- How the host lays out a number. -/
inductive ByteOrder where
  | little
  | big
  deriving DecidableEq, Repr

def ByteOrder.arrange : ByteOrder → List UInt8 → List UInt8
  | little, bytes => bytes.reverse
  | big, bytes => bytes

structure FieldSpec where
  hdrId : Nat
  start : Nat
  len : Nat
  deriving DecidableEq, Repr

inductive HashType where
  | csum16
  deriving DecidableEq, Repr

inductive Primitive where
  | cksum (cksumField dstField : FieldSpec) (hashType : HashType)
  | copyField (dst src : FieldSpec)
  | add (field : FieldSpec) (delta : Int)
  | setPort (argIdx : Nat)
  | setField (dst : FieldSpec) (argSrc : Nat)
  | recirculate
  | setMulticast
  deriving DecidableEq, Repr

/-- The part of the switch that actions use. A header that is not parsed has no place. -/
structure Global where
  memory : List UInt8
  hdrs : List (Option Nat)
  actions : List (List Primitive)
  outPort : UInt32
  vlanId : UInt32
  deriving DecidableEq, Repr

/-- A piece of the memory that a matched value lies in. -/
structure BufView where
  data : Nat
  size : Nat
  deriving DecidableEq, Repr

section Memory

variable (order : ByteOrder) (memory : List UInt8)

def wordAt (address count : Nat) : Nat := beVal (order.arrange (slice memory address count))

def load (address count : Nat) : Except Fault Nat :=
  if address + count ≤ memory.length then .ok (wordAt order memory address count) else .error .outside

def copy (address : Nat) (bytes : List UInt8) : Except Fault (List UInt8) :=
  if address + bytes.length ≤ memory.length then .ok (overwrite memory address bytes) else .error .outside

def store (address count value : Nat) : Except Fault (List UInt8) :=
  copy memory address (order.arrange (beBytes count value))

/-- The bytes behind a pointer. -/
def bytesAt (address count : Nat) : Except Fault (List UInt8) :=
  if address + count ≤ memory.length then .ok (slice memory address count) else .error .outside

end Memory

namespace Executor

variable (order : ByteOrder)

/-- The loop of `calc_cksum` at `i` with some rounds left. -/
def sumWords (memory : List UInt8) (field : Nat) : Nat → Nat → UInt32 → Except Fault (Nat × UInt32)
  | 0, i, cksum => .ok (i, cksum)
  | rounds + 1, i, cksum => do
      let word ← load order memory (field + i) 2
      sumWords memory field rounds (i + 2) (cksum + UInt32.ofNat word)

/-- The high half added to the low half, and what that carries once more. -/
def foldCksum (cksum : UInt32) : UInt32 :=
  let cksum := (cksum >>> 16) + (cksum &&& 0xffff)
  cksum + (cksum >>> 16)

/-- The byte that an odd length would leave is never left: the last round has read past it. -/
def calcCksum (memory : List UInt8) (field len : Nat) : HashType → Except Fault UInt16
  | .csum16 => do
      let (i, cksum) ← sumWords order memory field ((len + 1) / 2) 0 0
      if i < len then
        let byte ← load order memory (field + i) 1
        return (~~~foldCksum (cksum + UInt32.ofNat byte)).toUInt16
      else
        return (~~~foldCksum cksum).toUInt16

def address (glb : Global) (field : FieldSpec) : Except Fault Nat :=
  match glb.hdrs[field.hdrId]?.join with
  | none => .error .outside
  | some data => .ok (data + field.start)

/-- One operation, on the switch and the next processor. -/
def step (matchVal : List UInt8) (runtimeArgs : List BufView) (state : Global × Int)
    (op : Primitive) : Except Fault (Global × Int) :=
  let (glb, nextProcId) := state
  match op with
  | .cksum cksumField dstField hashType => do
      let field ← address glb cksumField
      let dst ← address glb dstField
      let memory ← store order glb.memory dst 2 0
      let value ← calcCksum order memory field cksumField.len hashType
      let memory ← store order memory dst 2 value.toNat
      return ({ glb with memory := memory }, nextProcId)
  | .copyField dst src =>
      if dst.len ≠ src.len then
        .error (.thrown "dst len != src len")
      else do
        let source ← address glb src
        let target ← address glb dst
        let bytes ← bytesAt glb.memory source src.len
        let memory ← copy glb.memory target bytes
        return ({ glb with memory := memory }, nextProcId)
  | .add field delta => do
      let target ← address glb field
      if field.len = 1 ∨ field.len = 2 ∨ field.len = 4 ∨ field.len = 8 then
        let value ← load order glb.memory target field.len
        let memory ← store order glb.memory target field.len ((value + delta) % 256 ^ field.len).toNat
        return ({ glb with memory := memory }, nextProcId)
      else
        return (glb, nextProcId)
  | .setPort argIdx =>
      match runtimeArgs[argIdx]? with
      | none => .error .outside
      | some port =>
          if port.size = 2 ∨ port.size = 4 then do
            let value ← load order matchVal port.data port.size
            return ({ glb with outPort := UInt32.ofNat value }, nextProcId)
          else
            .error .aborted
  | .setField dst argSrc =>
      match runtimeArgs[argSrc]? with
      | none => .error .outside
      | some val => do
          let target ← address glb dst
          if val.size = dst.len then
            let bytes ← bytesAt matchVal val.data val.size
            let memory ← copy glb.memory target bytes
            return ({ glb with memory := memory }, nextProcId)
          else
            .error .aborted
  -- The first processor.
  | .recirculate => .ok (glb, 0)
  | .setMulticast => .ok ({ glb with outPort := glb.vlanId }, nextProcId)

end Executor

/-- The operations of an action, in their order. -/
structure Executor where
  hitAction : Nat
  hitNextProc : Int
  missAction : Nat
  missNextProc : Int
  runtimeArgSpecs : List BufView
  deriving DecidableEq, Repr

/-- `matchVal` is the memory from the matched value on. -/
def Executor.execute (order : ByteOrder) (executor : Executor) (glb : Global)
    (matchVal : Option (List UInt8)) :
    Except Fault (Global × Int) :=
  let (actionId, nextProcId, runtimeArgs) :=
    match matchVal with
    | some _ => (executor.hitAction, executor.hitNextProc, executor.runtimeArgSpecs)
    | none => (executor.missAction, executor.missNextProc, [])
  match glb.actions[actionId]? with
  | none => .error .outside
  | some ops => ops.foldlM (step order (matchVal.getD []) runtimeArgs) (glb, nextProcId)

/-! ### What an action leaves -/

/-- An action writes into the headers where they are. -/
structure Frame (before after : Global) : Prop where
  length : after.memory.length = before.memory.length
  hdrs : after.hdrs = before.hdrs
  actions : after.actions = before.actions
  vlanId : after.vlanId = before.vlanId

theorem Frame.refl (glb : Global) : Frame glb glb := ⟨rfl, rfl, rfl, rfl⟩

theorem Frame.trans {first second third : Global} (left : Frame first second)
    (right : Frame second third) : Frame first third :=
  ⟨right.length.trans left.length, right.hdrs.trans left.hdrs, right.actions.trans left.actions,
    right.vlanId.trans left.vlanId⟩

theorem length_of_copy {memory after : List UInt8} {address : Nat} {bytes : List UInt8}
    (copied : copy memory address bytes = .ok after) :
    after.length = memory.length := by
  unfold copy at copied
  split at copied
  · next inside =>
      cases copied
      exact length_overwrite inside
  · cases copied

namespace Executor

variable {order : ByteOrder} {matchVal : List UInt8} {runtimeArgs : List BufView} {glb after :
  Global} {nextProcId next : Int}

theorem step_frame {op : Primitive}
    (stepped : step order matchVal runtimeArgs (glb, nextProcId) op = .ok (after, next)) :
    Frame glb after := by
  cases op with
  | cksum cksumField dstField hashType =>
      obtain ⟨field, _, stepped⟩ := bind_eq_ok stepped
      obtain ⟨dst, _, stepped⟩ := bind_eq_ok stepped
      obtain ⟨cleared, first, stepped⟩ := bind_eq_ok stepped
      obtain ⟨value, _, stepped⟩ := bind_eq_ok stepped
      obtain ⟨memory, second, stepped⟩ := bind_eq_ok stepped
      cases stepped
      exact ⟨(length_of_copy second).trans (length_of_copy first), rfl, rfl, rfl⟩
  | copyField dst src =>
      simp only [step] at stepped
      split at stepped
      · cases stepped
      · obtain ⟨source, _, stepped⟩ := bind_eq_ok stepped
        obtain ⟨target, _, stepped⟩ := bind_eq_ok stepped
        obtain ⟨bytes, _, stepped⟩ := bind_eq_ok stepped
        obtain ⟨memory, copied, stepped⟩ := bind_eq_ok stepped
        cases stepped
        exact ⟨length_of_copy copied, rfl, rfl, rfl⟩
  | add field delta =>
      obtain ⟨target, _, stepped⟩ := bind_eq_ok stepped
      split at stepped
      · obtain ⟨value, _, stepped⟩ := bind_eq_ok stepped
        obtain ⟨memory, stored, stepped⟩ := bind_eq_ok stepped
        cases stepped
        exact ⟨length_of_copy stored, rfl, rfl, rfl⟩
      · cases stepped
        exact .refl glb
  | setPort argIdx =>
      simp only [step] at stepped
      split at stepped
      · cases stepped
      · split at stepped
        · obtain ⟨value, _, stepped⟩ := bind_eq_ok stepped
          cases stepped
          exact ⟨rfl, rfl, rfl, rfl⟩
        · cases stepped
  | setField dst argSrc =>
      simp only [step] at stepped
      split at stepped
      · cases stepped
      · obtain ⟨target, _, stepped⟩ := bind_eq_ok stepped
        split at stepped
        · obtain ⟨bytes, _, stepped⟩ := bind_eq_ok stepped
          obtain ⟨memory, copied, stepped⟩ := bind_eq_ok stepped
          cases stepped
          exact ⟨length_of_copy copied, rfl, rfl, rfl⟩
        · cases stepped
  | recirculate =>
      cases stepped
      exact .refl glb
  | setMulticast =>
      cases stepped
      exact ⟨rfl, rfl, rfl, rfl⟩

/-- A run of an action, from the step. -/
theorem execute_frame {executor : Executor} {value : Option (List UInt8)}
    (run : executor.execute order glb value = .ok (after, next)) :
    Frame glb after := by
  unfold execute at run
  split at run
  split at run
  · cases run
  · refine foldlM_ok (fun _ (state : Global × Int) => Frame glb state.1) ?_ run (.refl glb)
    intro _ op state result _ frame stepped
    exact frame.trans (step_frame stepped)

end Executor

end Ipbm.Legacy
