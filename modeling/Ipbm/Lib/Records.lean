import Mathlib.Data.List.Basic

/-! Records of one length in a flat memory, and copies between them. -/

set_option autoImplicit false

namespace Ipbm.Lib

variable {α : Type}

def slice (memory : List α) (start length : Nat) : List α :=
  (memory.drop start).take length

/-- What a copy to a place in the memory leaves. -/
def overwrite (memory : List α) (start : Nat) (copied : List α) : List α :=
  memory.take start ++ copied ++ memory.drop (start + copied.length)

def record (length : Nat) (memory : List α) (index : Nat) : List α :=
  slice memory (index * length) length

theorem slice_getElem? (memory : List α) (start length index : Nat) :
    (slice memory start length)[index]? = if index < length then memory[start + index]? else none := by
  rw [slice, List.getElem?_take, List.getElem?_drop]

theorem length_slice {memory : List α} {start length : Nat} (inside : start + length ≤ memory.length) :
    (slice memory start length).length = length := by
  rw [slice, List.length_take, List.length_drop]
  omega

theorem length_overwrite {memory : List α} {start : Nat} {copied : List α}
    (inside : start + copied.length ≤ memory.length) :
    (overwrite memory start copied).length = memory.length := by
  simp only [overwrite, List.length_append, List.length_take, List.length_drop]
  omega

theorem overwrite_nil (memory : List α) (start : Nat) : overwrite memory start [] = memory := by
  rw [overwrite, List.append_nil, List.length_nil, Nat.add_zero, List.take_append_drop]

/-- A copy behind another is one copy. -/
theorem overwrite_overwrite {memory : List α} {start : Nat} {first second : List α}
    (inside : start + first.length ≤ memory.length) :
    overwrite (overwrite memory start first) (start + first.length) second =
      overwrite memory start (first ++ second) := by
  have front : (memory.take start ++ first).length = start + first.length := by
    rw [List.length_append, List.length_take]
    omega
  have kept : (overwrite memory start first).take (start + first.length) = memory.take start ++ first := by
    rw [overwrite, List.take_left' front]
  have rest : (overwrite memory start first).drop (start + first.length + second.length) =
      memory.drop (start + first.length + second.length) := by
    rw [overwrite, ← List.drop_drop, List.drop_left' front, List.drop_drop]
  rw [overwrite, kept, rest, overwrite, List.length_append, Nat.add_assoc]
  simp only [List.append_assoc]

theorem overwrite_getElem? {memory : List α} {start : Nat} {copied : List α}
    (inside : start + copied.length ≤ memory.length)
    (index : Nat) : (overwrite memory start copied)[index]? =
      if start ≤ index ∧ index < start + copied.length then copied[index - start]? else memory[index]? := by
  have front : (memory.take start).length = start := by
    rw [List.length_take]
    omega
  rw [overwrite, List.append_assoc]
  rcases Nat.lt_or_ge index start with before | behind
  · rw [if_neg (by omega), List.getElem?_append_left (by omega), List.getElem?_take_of_lt before]
  · rw [List.getElem?_append_right (by omega), front]
    by_cases within : index < start + copied.length
    · rw [if_pos ⟨behind, within⟩, List.getElem?_append_left (by omega)]
    · rw [if_neg (by omega), List.getElem?_append_right (by omega), List.getElem?_drop]
      congr 1
      omega

theorem slice_append_slice (memory : List α) (start first second : Nat) :
    slice memory start first ++ slice memory (start + first) second =
      slice memory start (first + second) := by
  rw [slice, slice, slice, List.take_add, List.drop_drop]

/-- What lies beside a copy stays. -/
theorem slice_overwrite_of_beside {memory : List α} {target : Nat} {copied : List α}
    (inside : target + copied.length ≤ memory.length)
    {start length : Nat} (beside : start + length ≤ target ∨ target + copied.length ≤ start) :
    slice (overwrite memory target copied) start length = slice memory start length := by
  apply List.ext_getElem?
  intro index
  rw [slice_getElem?, slice_getElem?, overwrite_getElem? inside]
  by_cases low : index < length
  · rw [if_pos low, if_pos low, if_neg (by omega)]
  · rw [if_neg low, if_neg low]

theorem slice_overwrite_self {memory : List α} {target : Nat} {copied : List α}
    (inside : target + copied.length ≤ memory.length) :
    slice (overwrite memory target copied) target copied.length = copied := by
  apply List.ext_getElem?
  intro index
  rw [slice_getElem?, overwrite_getElem? inside]
  by_cases low : index < copied.length
  · rw [if_pos low, if_pos (by omega), Nat.add_sub_cancel_left]
  · rw [if_neg low, List.getElem?_eq_none (Nat.le_of_not_lt low)]

theorem slice_modify_of_beside {memory : List α} {change : α → α} {place start length : Nat}
    (beside : place < start ∨ start + length ≤ place) :
    slice (memory.modify place change) start length = slice memory start length := by
  apply List.ext_getElem?
  intro index
  rw [slice_getElem?, slice_getElem?]
  by_cases low : index < length
  · rw [if_pos low, if_pos low]
    exact List.getElem?_modify_ne change memory (by omega)
  · rw [if_neg low, if_neg low]

private theorem record_le_iff {length byte : Nat} (low : byte < length) {first index : Nat} :
    first * length ≤ index * length + byte ↔ first ≤ index := by
  rw [← Nat.le_div_iff_mul_le (Nat.zero_lt_of_lt low), Nat.mul_comm index,
    Nat.mul_add_div (Nat.zero_lt_of_lt low), Nat.div_eq_of_lt low, Nat.add_zero]

/-- A copy of whole records moves these and leaves the others. -/
theorem record_overwrite {length : Nat} {memory copied : List α} {target count : Nat}
    (whole : copied.length = count * length)
    (inside : target * length + copied.length ≤ memory.length) (index : Nat) :
    record length (overwrite memory (target * length) copied) index =
      if target ≤ index ∧ index < target + count then record length copied (index - target)
        else record length memory index := by
  apply List.ext_getElem?
  intro byte
  rw [apply_ite (fun bytes : List α => bytes[byte]?)]
  simp only [record, slice_getElem?]
  by_cases low : byte < length
  · simp only [if_pos low]
    rw [overwrite_getElem? inside, whole]
    refine if_ctx_congr ?_ ?_ ?_
    · rw [← Nat.add_mul, ← Nat.not_le, record_le_iff low, record_le_iff low, Nat.not_le]
    · intro moved
      congr 1
      rw [Nat.sub_mul, Nat.sub_add_comm (Nat.mul_le_mul_right length moved.1)]
    · intro _
      rfl
  · simp only [if_neg low, ite_self]

theorem record_slice {length : Nat} (memory : List α) (source : Nat) {index count : Nat}
    (inside : index < count) :
    record length (slice memory (source * length) (count * length)) index =
      record length memory (source + index) := by
  have room : index * length + length ≤ count * length := by
    rw [← Nat.succ_mul]
    exact Nat.mul_le_mul_right length inside
  apply List.ext_getElem?
  intro byte
  simp only [record, slice_getElem?]
  by_cases low : byte < length
  · have within : index * length + byte < count * length := by omega
    rw [if_pos low, if_pos low, if_pos within, Nat.add_mul, Nat.add_assoc]
  · rw [if_neg low, if_neg low]

end Ipbm.Lib
