import Mathlib.Data.List.Induction
import Mathlib.Data.List.Nodup
import Mathlib.Logic.Function.Basic

/-! First fit: items go, one after the other, into the first bin that has room
for them beside those it holds. A plan names the bin of every item. -/

set_option autoImplicit false

namespace Ipbm.Lib

section

variable {Item : Type} (bins : Nat) (room : List Item → Item → Prop)

/-- Every item is in the first bin with room beside the items before it. -/
def FirstFit (items : List Item) (bin : Item → Nat) : Prop :=
  ∀ position (inside : position < items.length),
    bin items[position] < bins ∧
      room ((items.take position).filter fun other => bin other = bin items[position]) items[position] ∧
      ∀ number < bin items[position],
        ¬room ((items.take position).filter fun other => bin other = number) items[position]

instance [DecidableRel room] (items : List Item) (bin : Item → Nat) :
    Decidable (FirstFit bins room items bin) :=
  inferInstanceAs (Decidable (∀ position, ∀ _ : position < items.length, _))

variable [DecidableRel room]

/-- An item without a bin is left out. -/
def packItem (content : Nat → List Item) (item : Item) : Nat → List Item :=
  match (List.range bins).find? fun number => decide (room (content number) item) with
  | none => content
  | some number => Function.update content number (content number ++ [item])

def pack (items : List Item) : Nat → List Item := items.foldl (packItem bins room) fun _ => []

end

section

variable {Item : Type} {bins : Nat} {room : List Item → Item → Prop}

theorem firstFit_concat {items : List Item} {item : Item} {bin : Item → Nat} :
    FirstFit bins room (items ++ [item]) bin ↔ FirstFit bins room items bin ∧ bin item < bins ∧
      room (items.filter fun other => bin other = bin item) item ∧
      ∀ number < bin item, ¬room (items.filter fun other => bin other = number) item := by
  constructor
  · intro fit
    constructor
    · intro position inside
      have here := fit position (by rw [List.length_append]; omega)
      rwa [List.getElem_append_left inside, List.take_append_of_le_length (Nat.le_of_lt inside)] at here
    · have last := fit items.length (by simp)
      simpa using last
  · rintro ⟨fit, last⟩ position inside
    rcases Nat.lt_or_ge position items.length with low | high
    · rw [List.getElem_append_left low, List.take_append_of_le_length (Nat.le_of_lt low)]
      exact fit position low
    · have same : position = items.length := by
        rw [List.length_append, List.length_singleton] at inside
        omega
      subst same
      simpa using last

theorem FirstFit.congr {items : List Item} {bin other : Item → Nat}
    (same : ∀ item ∈ items, bin item = other item)
    (fit : FirstFit bins room items bin) : FirstFit bins room items other := by
  intro position inside
  have filters : ∀ number, ((items.take position).filter fun item => other item = number) =
      (items.take position).filter fun item => bin item = number := by
    intro number
    exact List.filter_congr fun item member => by rw [same item (List.mem_of_mem_take member)]
  simp only [filters, ← same _ (List.getElem_mem inside)]
  exact fit position inside

variable [DecidableRel room]

theorem packItem_of_none {content : Nat → List Item} {item : Item}
    (none_ : (List.range bins).find? (fun number => decide (room (content number) item)) = none) :
    packItem bins room content item = content := by
  rw [packItem, none_]

theorem packItem_of_some {content : Nat → List Item} {item : Item} {number : Nat}
    (found : (List.range bins).find? (fun number => decide (room (content number) item)) = some number) :
    packItem bins room content item = Function.update content number (content number ++ [item]) := by
  rw [packItem, found]

private theorem packItem_some {content : Nat → List Item} {item : Item} {number : Nat} (low : number < bins)
    (fits : room (content number) item) (first : ∀ other < number, ¬room (content other) item) :
    packItem bins room content item = Function.update content number (content number ++ [item]) := by
  have found : (List.range bins).find? (fun number => decide (room (content number) item)) = some number := by
    rw [List.find?_range_eq_some]
    exact ⟨decide_eq_true fits, List.mem_range.mpr low, fun other below => by simpa using first other below⟩
  exact packItem_of_some found

/-- Packing follows the plan. -/
theorem FirstFit.pack_eq {items : List Item} {bin : Item → Nat} (fit : FirstFit bins room items bin)
    (number : Nat) :
    pack bins room items number = items.filter fun item => bin item = number := by
  induction items using List.reverseRecOn generalizing number with
  | nil => rfl
  | append_singleton items item ih =>
      obtain ⟨before, low, fits, first⟩ := firstFit_concat.mp fit
      have content := fun number => ih before number
      rw [pack, List.foldl_append, List.foldl_cons, List.foldl_nil]
      change packItem bins room (pack bins room items) item number = _
      rw [packItem_some low (by rwa [content]) fun other below => by rw [content]; exact first other below]
      by_cases here : number = bin item
      · subst here
        simp [content]
      · rw [Function.update_of_ne here, content]
        simp [Ne.symm here]

private theorem mem_packItem {content : Nat → List Item} {item other : Item} {number : Nat}
    (member : other ∈ packItem bins room content item number) : other = item ∨ other ∈ content number := by
  cases found : (List.range bins).find? fun number => decide (room (content number) item) with
  | none =>
      rw [packItem_of_none found] at member
      exact .inr member
  | some target =>
      rw [packItem_of_some found] at member
      by_cases here : number = target
      · rw [here, Function.update_self] at member
        rcases List.mem_append.mp member with old | new
        · exact .inr (here ▸ old)
        · exact .inl (List.mem_singleton.mp new)
      · rw [Function.update_of_ne here] at member
        exact .inr member

theorem mem_of_mem_pack {items : List Item} {item : Item} {number : Nat}
    (member : item ∈ pack bins room items number) : item ∈ items := by
  induction items using List.reverseRecOn with
  | nil => cases member
  | append_singleton items last ih =>
      rw [pack, List.foldl_append, List.foldl_cons, List.foldl_nil] at member
      rcases mem_packItem member with rfl | old
      · simp
      · exact List.mem_append_left _ (ih old)

/-- If no item is left out, there is a plan. -/
theorem exists_firstFit [DecidableEq Item] {items : List Item} (nodup : items.Nodup)
    (all : ∀ item ∈ items, ∃ number, item ∈ pack bins room items number) :
    ∃ bin, FirstFit bins room items bin := by
  induction items using List.reverseRecOn with
  | nil => exact ⟨fun _ => 0, fun position inside => absurd inside (Nat.not_lt_zero _)⟩
  | append_singleton items item ih =>
      obtain ⟨before, -, apart⟩ := List.nodup_append.mp nodup
      have fresh : item ∉ items := fun member => apart item member item (List.mem_singleton_self _) rfl
      have step : ∀ number, pack bins room (items ++ [item]) number =
          packItem bins room (pack bins room items) item number := by
        intro number
        rw [pack, List.foldl_append, List.foldl_cons, List.foldl_nil]
        rfl
      obtain ⟨bin, fit⟩ := ih before fun other member => by
        obtain ⟨number, inside⟩ := all other (List.mem_append_left _ member)
        rw [step] at inside
        rcases mem_packItem inside with rfl | old
        · exact absurd member fresh
        · exact ⟨number, old⟩
      cases found : (List.range bins).find? fun number =>
        decide (room (pack bins room items number) item) with
      | none =>
          obtain ⟨number, inside⟩ := all item (by simp)
          rw [step, packItem_of_none found] at inside
          exact absurd (mem_of_mem_pack inside) fresh
      | some target =>
          rw [List.find?_range_eq_some] at found
          obtain ⟨fits, low, first⟩ := found
          have same : ∀ other ∈ items, bin other = Function.update bin item target other := by
            intro other member
            have different : other ≠ item := by
              rintro rfl
              exact fresh member
            rw [Function.update_of_ne different]
          have old := fit.congr same
          refine ⟨Function.update bin item target, firstFit_concat.mpr ⟨old, ?_⟩⟩
          rw [Function.update_self]
          simp only [old.pack_eq, decide_eq_true_eq, Bool.not_eq_true', decide_eq_false_iff_not] at fits first
          exact ⟨List.mem_range.mp low, fits, first⟩

end

end Ipbm.Lib
