import Mathlib.Data.List.Nodup
import Mathlib.Data.List.Infix
import Mathlib.Logic.Relation

/-! Chains of pointers. An item either points on to another one or ends the chain. -/

set_option autoImplicit false

namespace Ipbm.Lib

variable {α : Type} {next : α → Option α}

/-- From an item through the visited ones, itself first, to the item that ends the chain. -/
inductive PointerChain (next : α → Option α) : α → List α → α → Prop
  | stop {item : α} (ends : next item = none) : PointerChain next item [] item
  | step {item other last : α} {visited : List α} (points : next item = some other)
      (rest : PointerChain next other visited last) : PointerChain next item (item :: visited) last

namespace PointerChain

theorem ends {item last : α} {visited : List α} (chain : PointerChain next item visited last) :
    next last = none := by
  induction chain with
  | stop ends => exact ends
  | step _ _ ih => exact ih

theorem unique {item first second : α} {left right : List α} (chain : PointerChain next item left first)
    (other : PointerChain next item right second) : left = right ∧ first = second := by
  induction chain generalizing right with
  | stop ends =>
      cases other with
      | stop _ => exact ⟨rfl, rfl⟩
      | step points _ => simp [ends] at points
  | step points _ ih =>
      cases other with
      | stop ends => simp [ends] at points
      | step points' rest =>
          rw [points] at points'
          cases points'
          obtain ⟨rfl, rfl⟩ := ih rest
          exact ⟨rfl, rfl⟩

theorem next_of_mem {item last other : α} {visited : List α} (chain : PointerChain next item visited last)
    (member : other ∈ visited) : ∃ after, next other = some after := by
  induction chain with
  | stop _ => cases member
  | step points _ ih =>
      rcases List.mem_cons.mp member with rfl | later
      · exact ⟨_, points⟩
      · exact ih later

theorem points_of_mem {item last other : α} {visited : List α} (chain : PointerChain next item visited last)
    (member : other ∈ visited) : ∃ rest, PointerChain next other rest last ∧ rest <:+ visited := by
  induction chain with
  | stop _ => cases member
  | step points rest ih =>
      rcases List.mem_cons.mp member with rfl | later
      · exact ⟨_, .step points rest, List.suffix_rfl⟩
      · obtain ⟨found, chain, back⟩ := ih later
        exact ⟨found, chain, back.trans (List.suffix_cons _ _)⟩

/-- A chain that ends passes no item twice. -/
theorem nodup {item last : α} {visited : List α} (chain : PointerChain next item visited last) :
    visited.Nodup := by
  induction chain with
  | stop _ => exact List.nodup_nil
  | step points rest ih =>
      refine List.nodup_cons.mpr ⟨fun again => ?_, ih⟩
      -- a second visit would start a chain that is shorter than itself
      obtain ⟨back, chain, shorter⟩ := rest.points_of_mem again
      have same := (chain.unique (.step points rest)).1
      have length := shorter.length_le
      rw [same, List.length_cons] at length
      omega

/-- Whoever points to an item, at any distance, is on a chain if the item is. -/
theorem of_points {item other last : α} {visited : List α}
    (path : Relation.ReflTransGen (fun first second => next first = some second) item other)
    (chain : PointerChain next other visited last) :
    ∃ front, PointerChain next item (front ++ visited) last := by
  induction path using Relation.ReflTransGen.head_induction_on with
  | refl => exact ⟨[], chain⟩
  | head points _ ih =>
      obtain ⟨front, rest⟩ := ih
      exact ⟨_ :: front, .step points rest⟩

/-- The rest of a chain, seen from an item it leads to. -/
theorem along {item other last : α} {visited : List α} (chain : PointerChain next item visited last)
    (path : Relation.ReflTransGen (fun first second => next first = some second) item other) :
    ∃ rest, PointerChain next other rest last ∧ rest <:+ visited := by
  induction path using Relation.ReflTransGen.head_induction_on generalizing visited with
  | refl => exact ⟨visited, chain, List.suffix_rfl⟩
  | head points _ ih =>
      cases chain with
      | stop ends => simp [ends] at points
      | step points' rest =>
          rw [points] at points'
          cases points'
          obtain ⟨found, chain, back⟩ := ih rest
          exact ⟨found, chain, back.trans (List.suffix_cons _ _)⟩

end PointerChain

end Ipbm.Lib
