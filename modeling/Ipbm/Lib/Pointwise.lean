import Mathlib.Data.List.Forall2

/-! Lists that are related item by item: what is at a place of one is at the same
place of the other. -/

set_option autoImplicit false

namespace Ipbm.Lib

variable {α β γ : Type} {relation : α → β → Prop} {left : List α} {right : List β}

theorem forall₂_left (related : List.Forall₂ relation left right) {index : Nat} {item : β}
    (here : right[index]? = some item) : ∃ other, left[index]? = some other ∧ relation other item := by
  induction related generalizing index with
  | nil => cases here
  | cons head _ ih =>
      cases index with
      | zero =>
          cases here
          exact ⟨_, rfl, head⟩
      | succ index => exact ih here

theorem forall₂_right (related : List.Forall₂ relation left right) {index : Nat} {item : α}
    (here : left[index]? = some item) : ∃ other, right[index]? = some other ∧ relation item other :=
  forall₂_left related.flip here

theorem forall₂_mem_right (related : List.Forall₂ relation left right) {item : β} (member : item ∈ right) :
    ∃ other ∈ left, relation other item := by
  obtain ⟨index, here⟩ := List.mem_iff_getElem?.mp member
  obtain ⟨other, there, holds⟩ := forall₂_left related here
  exact ⟨other, List.mem_of_getElem? there, holds⟩

theorem forall₂_mem_left (related : List.Forall₂ relation left right) {item : α} (member : item ∈ left) :
    ∃ other ∈ right, relation item other :=
  forall₂_mem_right related.flip member

theorem map_eq_map_of_forall₂ (first : α → γ) (second : β → γ)
    (same : ∀ item other, relation item other → first item = second other)
    (related : List.Forall₂ relation left right) :
    left.map first = right.map second := by
  induction related with
  | nil => rfl
  | cons head _ ih => rw [List.map_cons, List.map_cons, same _ _ head, ih]

theorem map_inj_on {name : α → γ} {known : α → Prop} {items others : List α}
    (injective : ∀ first second, known first → known second → name first = name second → first = second)
    (items_known : ∀ item ∈ items, known item) (others_known : ∀ item ∈ others, known item)
    (same : items.map name = others.map name) : items = others := by
  induction items generalizing others with
  | nil => exact (List.map_eq_nil_iff.mp same.symm).symm
  | cons item items ih =>
      cases others with
      | nil => cases same
      | cons other others =>
          obtain ⟨here, rest⟩ := List.cons.inj same
          rw [injective item other (items_known item List.mem_cons_self)
            (others_known other List.mem_cons_self) here,
            ih (fun item member => items_known item (List.mem_cons_of_mem _ member))
              (fun item member => others_known item (List.mem_cons_of_mem _ member)) rest]

theorem forall₂_set (related : List.Forall₂ relation left right) (index : Nat) {item : α} {other : β}
    (holds : relation item other) : List.Forall₂ relation (left.set index item) (right.set index other) := by
  induction related generalizing index with
  | nil => exact .nil
  | cons head tail ih =>
      cases index with
      | zero => exact .cons holds tail
      | succ index => exact .cons head (ih index)

end Ipbm.Lib
