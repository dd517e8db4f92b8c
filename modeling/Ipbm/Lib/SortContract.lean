import Mathlib.Data.List.Perm.Basic

/-! What a sorting routine promises. It sorts where its comparison is a strict weak order on the
elements. Elsewhere it leaves the elements in any order. -/

set_option autoImplicit false

namespace Ipbm.Lib

variable {α : Type}

structure StrictWeakOn (less : α → α → Bool) (items : List α) : Prop where
  irrefl : ∀ item ∈ items, less item item = false
  trans : ∀ first ∈ items, ∀ second ∈ items, ∀ third ∈ items,
    less first second = true → less second third = true → less first third = true
  notLess : ∀ first ∈ items, ∀ second ∈ items, ∀ third ∈ items,
    less first second = false → less second third = false → less first third = false

/-- No element is less than one before it. -/
def Sorted (less : α → α → Bool) (items : List α) : Prop :=
  items.Pairwise fun first second => less second first = false

structure Sorts (sort : (α → α → Bool) → List α → List α) : Prop where
  perm : ∀ less items, (sort less items).Perm items
  sorted : ∀ less items, StrictWeakOn less items → Sorted less (sort less items)

variable {less : α → α → Bool} {items : List α}

theorem StrictWeakOn.asymm (weak : StrictWeakOn less items) {first second : α}
    (isFirst : first ∈ items) (isSecond : second ∈ items)
    (below : less first second = true) : less second first = false := by
  cases above : less second first with
  | false => rfl
  | true =>
      have same := weak.trans first isFirst second isSecond first isFirst below above
      rw [weak.irrefl first isFirst] at same
      cases same

theorem StrictWeakOn.exists_sorted (weak : StrictWeakOn less items) :
    ∃ result : List α, result.Perm items ∧ Sorted less result := by
  -- the sort compares elements of the list only
  let notAbove : {item // item ∈ items} → {item // item ∈ items} → Bool :=
    fun first second => !less second.1 first.1
  refine ⟨(items.attach.mergeSort notAbove).map Subtype.val, ?_, ?_⟩
  · have perm := (List.mergeSort_perm items.attach notAbove).map Subtype.val
    rwa [List.attach_map_subtype_val] at perm
  · refine List.pairwise_map.mpr ((List.pairwise_mergeSort ?_ ?_ items.attach).imp ?_)
    · intro first second third before behind
      rw [Bool.not_eq_true'] at before behind ⊢
      exact weak.notLess third.1 third.2 second.1 second.2 first.1 first.2 behind before
    · intro first second
      cases below : less second.1 first.1 with
      | false => simp [notAbove, below]
      | true => simp [notAbove, weak.asymm second.2 first.2 below]
    · intro first second before
      exact (Bool.not_eq_true' _).mp before

open Classical in
/-- A routine that keeps the promise, and otherwise does something else. -/
noncomputable def sortOr (other : List α → List α) (less : α → α → Bool) (items : List α) : List α :=
  if weak : StrictWeakOn less items then weak.exists_sorted.choose else other items

theorem sortOr_sorts {other : List α → List α} (perm : ∀ items, (other items).Perm items) :
    Sorts (sortOr other) where
  perm less items := by
    rw [sortOr]
    split
    · next weak => exact weak.exists_sorted.choose_spec.1
    · exact perm items
  sorted less items weak := by
    rw [sortOr, dif_pos weak]
    exact weak.exists_sorted.choose_spec.2

theorem sortOr_of_not_strictWeakOn {other : List α → List α} (broken : ¬StrictWeakOn less items) :
    sortOr other less items = other items :=
  dif_neg broken

end Ipbm.Lib
