import Ipbm.Dataplane.FieldAssignment

/-! Metadata that is written and read back. The loop of the reader starts at the byte behind the
field, which it shifts by a negative amount. -/

set_option autoImplicit false

namespace Ipbm.Dataplane
open Lib

/-- A left shift of a 32-bit word by an `int`. -/
def shlInt (value : Nat) (shift : Int) : Option Nat :=
  if shift < 0 then none else shl32 value shift.toNat

/-- What the machine makes of a negative amount, which it takes modulo the word size. -/
def shlWrapped (value : Nat) (shift : Int) : Option Nat :=
  if shift < 0 then shlInt value (shift % 32) else shlInt value shift

/-- The turns of the loop of `get_field_value`, each with its byte and its shift amount. -/
def fieldTurns (start stop : Nat) : List (Nat × Int) :=
  (List.range' (start / 8) ((stop + 7) / 8 + 1 - start / 8)).reverse.map fun index =>
    (index, (((stop + 7) / 8 : Nat) - 1 - index : Int) * 8)

/-- What one turn adds. -/
def fieldTerm (shl : Nat → Int → Option Nat) (packet : List UInt8) (turn : Nat × Int) : Option Nat := do
  let byte ← packet[turn.1]?
  shl byte.toNat turn.2

/-- `get_field_value` with a given left shift in its loop. -/
def readField (shl : Nat → Int → Option Nat) (field : FieldInfo) (phv : Phv) : Option Nat := do
  let hi ← phv.parsedHeaders[field.hdrId]?
  let start := hi.hdrOffset + field.internalOffset
  let stop := start + field.fdLen
  let value ← (fieldTurns start stop).foldlM (fun value turn =>
    (fieldTerm shl phv.packet turn).map fun term => (value + term) % 2 ^ 32) 0
  let shifted ← shl32 (value >>> (8 - if stop % 8 = 0 then 8 else stop % 8)) (32 - field.fdLen)
  return shifted >>> (32 - field.fdLen)

section

variable {ι : Type} {term : ι → Option Nat}

private theorem foldlM_sum (turns : List ι) (value : Nat) :
    turns.foldlM (fun value turn => (term turn).map fun here => (value + here) % 2 ^ 32) (value % 2 ^ 32) =
      (turns.mapM term).map fun terms => (value + terms.sum) % 2 ^ 32 := by
  induction turns generalizing value with
  | nil => rfl
  | cons turn rest ih =>
      rw [List.foldlM_cons, List.mapM_cons]
      cases term turn with
      | none => rfl
      | some here =>
          simp only [Option.map_some, Option.bind_eq_bind, Option.bind_some, Nat.mod_add_mod,
            ih (value + here)]
          cases rest.mapM term with
          | none => rfl
          | some terms =>
              simp only [Option.map_some, Option.bind_some, Option.pure_def, List.sum_cons, Nat.add_assoc]

private theorem mapM_reverse (turns : List ι) :
    turns.reverse.mapM term = (turns.mapM term).map List.reverse := by
  induction turns with
  | nil => rfl
  | cons turn rest ih =>
      rw [List.reverse_cons, List.mapM_append, ih, List.mapM_cons, List.mapM_cons, List.mapM_nil]
      cases term turn <;> cases rest.mapM term <;> simp

end

private theorem shlWrapped_turn {index byteEnd : Nat} (inside : index ≤ byteEnd) (value : Nat) :
    shlWrapped value (((byteEnd : Nat) - 1 - index : Int) * 8) =
      shl32 value (if index = byteEnd then 24 else (byteEnd - 1 - index) * 8) := by
  unfold shlWrapped shlInt
  by_cases behind : index = byteEnd
  · subst behind
    have amount : ((index : Int) - 1 - index) * 8 = -8 := by omega
    rw [amount, if_pos rfl]
    rfl
  · obtain ⟨count, rfl⟩ : ∃ count, byteEnd = index + 1 + count := ⟨byteEnd - (index + 1), by omega⟩
    have amount : (((index + 1 + count : Nat) : Int) - 1 - index) * 8 = (count * 8 : Nat) := by omega
    have same : index + 1 + count - 1 - index = count := by omega
    rw [amount, if_neg behind, if_neg (by omega), if_neg (by omega), Int.toNat_natCast, same]

/-- The switch as it runs takes the amount modulo the word size. -/
theorem getFieldValue_eq (field : FieldInfo) (phv : Phv) :
    getFieldValue field phv = readField shlWrapped field phv := by
  unfold getFieldValue readField
  cases phv.parsedHeaders[field.hdrId]? with
  | none => rfl
  | some header =>
      simp only [Option.bind_eq_bind, Option.bind_some]
      generalize header.hdrOffset + field.internalOffset = start
      generalize start + field.fdLen = stop
      have sum := @foldlM_sum _ (fieldTerm shlWrapped phv.packet) (fieldTurns start stop) 0
      have turns :=
        mapM_congr fun index (member : index ∈ List.range' (start / 8) ((stop + 7) / 8 + 1 - start / 8)) =>
        congrArg (Option.bind phv.packet[index]?) (funext fun byte : UInt8 =>
          @shlWrapped_turn index ((stop + 7) / 8) (by have := List.mem_range'_1.mp member; omega) byte.toNat)
      rw [Nat.zero_mod] at sum
      rw [sum, fieldTurns, List.map_reverse, mapM_reverse, List.mapM_map, Option.map_map]
      simp only [fieldTerm, Option.bind_eq_bind, Function.comp_def, turns]
      cases (List.range' (start / 8) ((stop + 7) / 8 + 1 - start / 8)).mapM fun index =>
        (phv.packet[index]?).bind fun byte =>
          shl32 byte.toNat (if index = (stop + 7) / 8 then 24 else ((stop + 7) / 8 - 1 - index) * 8) with
      | none => rfl
      | some terms => simp only [Option.map_some, Option.bind_some, List.sum_reverse, Nat.zero_add]

/-- A value that is written to a field is read back, no bit outside the field changes, and no
array index or shift amount is out of range. -/
def RoundTrips (shl : Nat → Int → Option Nat) (field : FieldInfo) (value : Nat) (phv : Phv)
    (header : HeaderInfo) : Prop :=
  ∃ after, modifyPhvWithData field ⟨field.fdLen, getUints value field.fdLen⟩ phv = some after ∧
    WritesField phv.packet after.packet (fieldBegin header field) field.fdLen value ∧
    readField shl field after = some value

private theorem fieldTurns_first (start width : Nat) : ∃ rest,
    fieldTurns start (start + width) = ((start + width + 7) / 8, -8) :: rest := by
  obtain ⟨count, size⟩ : ∃ count, (start + width + 7) / 8 + 1 - start / 8 = count + 1 :=
    ⟨(start + width + 7) / 8 - start / 8, by omega⟩
  have last : start / 8 + 1 * count = (start + width + 7) / 8 := by omega
  have amount : (((start + width + 7) / 8 : Nat) - 1 - ((start + width + 7) / 8 : Nat) : Int) *
    8 = -8 := by omega
  rw [fieldTurns, size, List.range'_concat, List.reverse_append, List.reverse_singleton,
    List.singleton_append, List.map_cons, last, amount]
  exact ⟨_, rfl⟩

private theorem readField_undefined (field : FieldInfo) (phv : Phv) : readField shlInt field phv = none := by
  unfold readField
  cases phv.parsedHeaders[field.hdrId]? with
  | none => rfl
  | some header =>
      obtain ⟨rest, first⟩ := fieldTurns_first (header.hdrOffset + field.internalOffset) field.fdLen
      have behind : fieldTerm shlInt phv.packet
          ((header.hdrOffset + field.internalOffset + field.fdLen + 7) / 8, -8) = none :=
        Option.bind_eq_none_iff.mpr fun _ _ => rfl
      simp only [Option.bind_eq_bind, Option.bind_some]
      rw [first, List.foldlM_cons, behind]
      rfl

/-- The first turn of the reader shifts the byte behind the field by minus eight bits, whatever
the field and the packet. -/
theorem not_roundTrips (field : FieldInfo) (value : Nat) (phv : Phv) (header : HeaderInfo) :
    ¬RoundTrips shlInt field value phv header := by
  intro ⟨after, _, _, read⟩
  rw [readField_undefined] at read
  cases read

/-- Nine bits at the start of an empty packet. -/
theorem not_roundTrips_nine : ¬RoundTrips shlInt ⟨0, 0, 9, .field⟩ 511 Phv.fresh {} := by
  intro ⟨after, written, _, read⟩
  have done : modifyPhvWithData ⟨0, 0, 9, .field⟩ ⟨9, getUints 511 9⟩ Phv.fresh =
      some { Phv.fresh with
               packet := 255 :: 128 :: List.replicate (Phv.fresh.packet.length - 2) 0 } := by decide +kernel
  cases done.symm.trans written
  revert read
  decide +kernel

end Ipbm.Dataplane
