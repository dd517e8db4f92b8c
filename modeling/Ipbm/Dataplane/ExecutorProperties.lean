import Ipbm.Dataplane.Executor
import Ipbm.Lib.Traversal

/-! Parameter decoding. -/

set_option autoImplicit false

namespace Ipbm.Dataplane
open Lib

namespace Action

/-- A parameter is decoded at the bit offset its predecessors leave it. -/
theorem setActionParasFrom_append {value : List UInt8} {offset len : Nat} {lens : List Nat}
    {paras : List Data} (decoded : setActionParasFrom value offset (lens ++ [len]) = some paras) :
    ∃ front last, paras = front ++ [last] ∧ setActionPara value (offset + lens.sum) len = some last := by
  induction lens generalizing offset paras with
  | nil =>
      obtain ⟨last, here, decoded⟩ := Option.bind_eq_some_iff.mp decoded
      cases decoded
      exact ⟨[], last, rfl, here⟩
  | cons first lens ih =>
      obtain ⟨para, _, decoded⟩ := Option.bind_eq_some_iff.mp decoded
      obtain ⟨later, rest, decoded⟩ := Option.bind_eq_some_iff.mp decoded
      cases decoded
      obtain ⟨front, last, rfl, here⟩ := ih rest
      refine ⟨para :: front, last, rfl, ?_⟩
      rwa [List.sum_cons, ← Nat.add_assoc]

private theorem copyOut_getLast {value bytes : List UInt8} {start count : Nat}
    (copied : copyOut value start (count + 1) = some bytes) :
    ∃ front last, bytes = front ++ [last] ∧ value[start + count]? = some last := by
  unfold copyOut at copied
  split at copied
  case isFalse => cases copied
  case isTrue inside =>
    cases copied
    have here : start + count < value.length := by omega
    refine ⟨(value.drop start).take count, value[start + count], ?_, List.getElem?_eq_getElem here⟩
    rw [List.take_succ_eq_append_getElem (by rw [List.length_drop]; omega), List.getElem_drop]

private theorem valueNew_last_zero {value bytes : List UInt8} {start len : Nat} (positive : 0 < len)
    (decoded : valueNew value start len = some bytes)
    (zero : ∀ byte, value[(start + len - 1) / 8]? = some byte → byte = 0) :
    ∃ front, bytes = front ++ [0] := by
  obtain ⟨count, size⟩ : ∃ count, (start + len + 7) / 8 - start / 8 = count + 1 :=
    ⟨(start + len + 7) / 8 - start / 8 - 1, by omega⟩
  rw [valueNew, size] at decoded
  obtain ⟨copy, copied, decoded⟩ := Option.bind_eq_some_iff.mp decoded
  obtain ⟨trimmed, high, decoded⟩ := Option.bind_eq_some_iff.mp decoded
  obtain ⟨last, read, cleared⟩ := Option.bind_eq_some_iff.mp decoded
  obtain ⟨front, final, rfl, source⟩ := copyOut_getLast copied
  rw [show start / 8 + count = (start + len - 1) / 8 by omega] at source
  have lastZero : last = 0 := by
    rw [zero final source] at high
    cases front with
    | nil =>
        cases high
        simpa [u8] using read.symm
    | cons byte front =>
        cases high
        change (_ :: front ++ [0]).getLast? = some last at read
        rw [List.getLast?_concat] at read
        cases read
        rfl
  cases cleared
  refine ⟨trimmed.dropLast, ?_⟩
  simp [lastZero, u8]

private theorem paraByte_even {bytes : List UInt8} {rightOffset : Nat} {byte : UInt8}
    (tail : ∃ front, bytes = front ++ [0])
    (read : paraByte bytes rightOffset (bytes.length - 1) = some byte) : byte.toNat % 2 = 0 := by
  obtain ⟨front, rfl⟩ := tail
  obtain ⟨last, here, read⟩ := Option.bind_eq_some_iff.mp read
  have lastZero : last = 0 := by simpa using here.symm
  subst lastZero
  split at read
  · cases read
    rfl
  case isFalse inside =>
    split at read
    · cases read
      simp
    · obtain ⟨before, _, read⟩ := Option.bind_eq_some_iff.mp read
      cases read
      obtain ⟨shift, rfl⟩ : ∃ shift, rightOffset = shift + 1 := ⟨rightOffset - 1, by omega⟩
      simp only [UInt8.toNat_zero, Nat.zero_shiftRight, Nat.zero_add, toNat_u8, Nat.shiftLeft_eq,
        Nat.pow_succ, ← Nat.mul_assoc]
      omega

/-- A parameter whose last byte reads as zero decodes to an even number. -/
theorem setActionPara_even {value : List UInt8} {start len : Nat} {para : Data} {last : UInt8}
    (positive : 0 < len) (decoded : setActionPara value start len = some para)
    (zero : ∀ byte, value[(start + len - 1) / 8]? = some byte → byte = 0)
    (read : para.val.getLast? = some last) : last.toNat % 2 = 0 := by
  obtain ⟨bytes, copied, decoded⟩ := Option.bind_eq_some_iff.mp decoded
  have tail := valueNew_last_zero positive copied zero
  split at decoded
  case isTrue => cases decoded
  case isFalse long =>
    obtain ⟨val, parts, decoded⟩ := Option.bind_eq_some_iff.mp decoded
    cases decoded
    obtain ⟨count, size⟩ : ∃ count, bytesFor len = count + 1 :=
      ⟨bytesFor len - 1, by unfold bytesFor; omega⟩
    rw [size, List.range_succ, List.mapM_append] at parts
    obtain ⟨early, _, parts⟩ := Option.bind_eq_some_iff.mp parts
    obtain ⟨final, here, parts⟩ := Option.bind_eq_some_iff.mp parts
    cases parts
    obtain ⟨byte, others, byteRead, none, rfl⟩ := mapM_cons_some here
    cases none
    rw [show bytes.length - (count + 1) + count = bytes.length - 1 by omega] at byteRead
    have same : byte = last := by simpa using read
    exact same ▸ paraByte_even tail byteRead

end Action

end Ipbm.Dataplane
