import Mathlib.Data.List.Induction
import Mathlib.Logic.Function.Basic

/-! Assignments one after the other, of which the last to a key counts. -/

set_option autoImplicit false

namespace Ipbm.Lib

variable {α β : Type}

def lastWhere (holds : α → Bool) (items : List α) : Option α := items.reverse.find? holds

theorem lastWhere_append (holds : α → Bool) (front back : List α) :
    lastWhere holds (front ++ back) = (lastWhere holds back).or (lastWhere holds front) := by
  rw [lastWhere, List.reverse_append, List.find?_append]
  rfl

theorem lastWhere_some {holds : α → Bool} {items : List α} {item : α}
    (found : lastWhere holds items = some item) :
    item ∈ items ∧ holds item = true :=
  ⟨List.mem_reverse.mp (List.mem_of_find?_eq_some found), List.find?_some found⟩

theorem lastWhere_isSome {holds : α → Bool} {items : List α} {item : α} (member : item ∈ items)
    (isItem : holds item = true) : ∃ last, lastWhere holds items = some last :=
  Option.isSome_iff_exists.mp (List.find?_isSome.mpr ⟨item, List.mem_reverse.mpr member, isItem⟩)

theorem lastWhere_map (holds : β → Bool) (change : α → β) (items : List α) :
    lastWhere holds (items.map change) = (lastWhere (fun item => holds (change item)) items).map change := by
  rw [lastWhere, ← List.map_reverse, List.find?_map]
  rfl

theorem lastWhere_congr {first second : α → Bool} {items : List α}
    (same : ∀ item ∈ items, first item = second item) :
    lastWhere first items = lastWhere second items := by
  induction items using List.reverseRecOn with
  | nil => rfl
  | append_singleton front last ih =>
      rw [lastWhere_append, lastWhere_append, ih fun item member => same item (List.mem_append_left _ member)]
      simp [lastWhere, same last (List.mem_append_right _ (List.mem_singleton_self _))]

/-- Repeating a block changes nothing. -/
theorem lastWhere_repeat (holds : α → Bool) (times : List β) (block : List α) :
    lastWhere holds (times.flatMap fun _ => block) = if times = [] then none else lastWhere holds block := by
  induction times with
  | nil => rfl
  | cons first rest ih =>
      rw [List.flatMap_cons, lastWhere_append, ih, if_neg (List.cons_ne_nil _ _)]
      split
      · rfl
      · exact Option.or_self

/-- Blocks that are repeated, or left out. -/
theorem lastWhere_blocks {γ : Type} (holds : α → Bool) (items : List γ) (times : γ → List β)
    (block : γ → List α) :
    lastWhere holds (items.flatMap fun item => (times item).flatMap fun _ => block item) =
      lastWhere holds ((items.filter fun item => !(times item).isEmpty).flatMap block) := by
  induction items using List.reverseRecOn with
  | nil => rfl
  | append_singleton front last ih =>
      rw [List.flatMap_append, lastWhere_append, List.flatMap_singleton, lastWhere_repeat, ih,
        List.filter_append, List.flatMap_append, lastWhere_append]
      cases none : (times last).isEmpty with
      | true =>
          rw [if_pos (List.isEmpty_iff.mp none)]
          simp [none, lastWhere]
      | false =>
          have some : times last ≠ [] := by
            intro empty
            simp [empty] at none
          simp [some]

theorem foldl_update {κ ν : Type} [DecidableEq κ] (pairs : List (κ × ν)) (map : κ → Option ν) (key : κ) :
    (pairs.foldl (fun (map : κ → Option ν) pair => Function.update map pair.1 (some pair.2)) map) key =
      ((lastWhere (fun pair => pair.1 = key) pairs).map Prod.snd).or (map key) := by
  induction pairs using List.reverseRecOn with
  | nil => rfl
  | append_singleton front last ih =>
      rw [List.foldl_append, List.foldl_cons, List.foldl_nil, lastWhere_append]
      by_cases here : last.1 = key
      · simp [lastWhere, here]
      · rw [Function.update_of_ne (Ne.symm here), ih]
        simp [lastWhere, here]

end Ipbm.Lib
