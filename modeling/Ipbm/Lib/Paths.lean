import Mathlib.Data.List.Chain
import Mathlib.Data.List.Infix
import Mathlib.Data.Fintype.Card
import Mathlib.Data.Set.Finite.List
import Mathlib.Logic.Relation
import Mathlib.Order.WellFounded

/-! Paths of a relation. Every path to the last element of a chain has passed the
whole chain, exactly when nothing enters the chain behind its first element; and
every path to an element that needs something has passed one that holds it,
exactly when the first element of a path that needs it holds it. -/

set_option autoImplicit false

namespace Ipbm.Lib

variable {α : Type} {step : α → α → Prop}

/-- An element of the chain is entered from the one before it only. -/
def EnteredInOrder (step : α → α → Prop) (chain : List α) : Prop :=
  chain.IsChain fun first second => ∀ other, step other second → other = first

private theorem suffix_of_enteredInOrder {front path : List α} {last : α}
    (entered : EnteredInOrder step (front ++ [last])) (steps : (path ++ [last]).IsChain step)
    (start : ∀ first ∈ (path ++ [last]).head?, first ∉ (front ++ [last]).tail) : front <:+ path := by
  -- from the last element backwards: each step of the path is the step of the chain
  induction front using List.reverseRecOn generalizing path last with
  | nil => exact List.nil_suffix
  | append_singleton front previous ih =>
      have inTail : last ∈ (front ++ [previous] ++ [last]).tail := by
        cases front <;> simp
      rw [EnteredInOrder, List.append_assoc, List.singleton_append, List.isChain_append_cons_cons] at entered
      obtain ⟨before, only, _⟩ := entered
      cases path using List.reverseRecOn with
      | nil => exact absurd inTail (start last rfl)
      | append_singleton path other _ =>
          rw [List.append_assoc, List.singleton_append, List.isChain_append_cons_cons] at steps
          obtain ⟨earlier, into, _⟩ := steps
          have same : other = previous := only other into
          subst same
          have found := ih before earlier fun first isFirst inside => by
            refine start first ?_ ?_
            · cases path with
              | nil => simpa using isFirst
              | cons _ _ => simpa using isFirst
            · cases front with
              | nil => simp at inside
              | cons _ _ => exact List.mem_append_left _ inside
          obtain ⟨rest, rfl⟩ := found
          exact ⟨rest, (List.append_assoc rest front [other]).symm⟩

private theorem exists_way {chain : List α} (steps : chain.IsChain step) (nodup : chain.Nodup) (item : α) :
    ∃ way : List α, (way ++ [item]).IsChain step ∧ ∀ first ∈ (way ++ [item]).head?, first ∉ chain.tail := by
  by_cases inside : item ∈ chain.tail
  · cases chain with
    | nil => cases inside
    | cons head rest =>
        obtain ⟨front, back, rfl⟩ := List.append_of_mem inside
        have along : ((head :: front) ++ item :: back).IsChain step := steps
        refine ⟨head :: front, (List.isChain_split.mp along).1, ?_⟩
        intro first isFirst
        cases isFirst
        exact (List.nodup_cons.mp nodup).1
  · refine ⟨[], List.isChain_singleton item, ?_⟩
    intro first isFirst
    cases isFirst
    exact inside

private theorem enteredInOrder_of_suffix {chain : List α} (steps : chain.IsChain step) (nodup : chain.Nodup)
    (passed : ∀ path : List α, path.IsChain step → (∀ first ∈ path.head?, first ∉ chain.tail) →
      path.getLast? = chain.getLast? → chain <:+ path) : EnteredInOrder step chain := by
  refine List.isChain_iff_forall_rel_of_append_cons_cons.mpr ?_
  intro first second front back split other into
  obtain ⟨way, steps', start⟩ := exists_way steps nodup other
  subst split
  obtain ⟨_, _, rest⟩ := List.isChain_append_cons_cons.mp steps
  have path : (way ++ other :: second :: back).IsChain step :=
    List.isChain_append_cons_cons.mpr ⟨steps', into, rest⟩
  have ends : ∀ items : List α, ∀ item, (items ++ item :: second :: back).getLast? =
      (second :: back).getLast? := by
    intro items item
    rw [List.getLast?_append_of_ne_nil _ (List.cons_ne_nil _ _), List.getLast?_cons_cons]
  obtain ⟨before, same⟩ :=
    passed _ path (by simpa using start) ((ends way other).trans (ends front first).symm)
  have behind : (before ++ front ++ [first]) ++ second :: back = (way ++ [other]) ++ second :: back := by
    simpa using same
  have equal : before ++ front = way ∧ [first] = [other] :=
    List.append_inj' (List.append_cancel_right behind) rfl
  exact (List.singleton_inj.mp equal.2).symm

private theorem passed_iff {chain : List α} (nonempty : chain ≠ []) (steps : chain.IsChain step)
    (nodup : chain.Nodup) : (∀ path : List α, path.IsChain step → (∀ first ∈ path.head?, first ∉ chain.tail) →
      path.getLast? = chain.getLast? → chain <:+ path) ↔ EnteredInOrder step chain := by
  refine ⟨enteredInOrder_of_suffix steps nodup, ?_⟩
  intro entered path steps' start ends
  obtain ⟨front, last, rfl⟩ := (List.eq_nil_or_concat' chain).resolve_left nonempty
  cases path using List.reverseRecOn with
  | nil => simp at ends
  | append_singleton path item _ =>
      have same : item = last := by simpa using ends
      subst same
      obtain ⟨before, rfl⟩ := suffix_of_enteredInOrder entered steps' start
      exact ⟨before, (List.append_assoc before front [item]).symm⟩

/-- Every path to the end of a chain, from the entry or from outside the tail of the chain, has
passed the chain. -/
theorem passed_from_iff {chain : List α} (nonempty : chain ≠ []) (steps : chain.IsChain step)
    (nodup : chain.Nodup) (entry : α) :
    (∀ path : List α, path.IsChain step →
      (path.head? = some entry ∨ ∀ first ∈ path.head?, first ∉ chain.tail) →
      path.getLast? = chain.getLast? → chain <:+ path) ↔ entry ∉ chain.tail ∧ EnteredInOrder step chain := by
  constructor
  · intro passed
    refine ⟨fun inside => ?_, (passed_iff nonempty steps nodup).mp fun path steps' start =>
      passed path steps' (.inr start)⟩
    cases chain with
    | nil => cases inside
    | cons head rest =>
        -- the rest of the chain from the entry on is a path, and it is too short
        obtain ⟨front, back, rfl⟩ := List.append_of_mem inside
        have along : ((head :: front) ++ entry :: back).IsChain step := steps
        have ends : (entry :: back).getLast? = (head :: (front ++ entry :: back)).getLast? := by
          rw [← List.cons_append, List.getLast?_append_of_ne_nil _ (List.cons_ne_nil _ _)]
        have short := (passed _ (List.isChain_split.mp along).2 (.inl rfl) ends).length_le
        simp only [List.length_cons, List.length_append] at short
        omega
  · rintro ⟨outside, entered⟩ path steps' start ends
    refine (passed_iff nonempty steps nodup).mpr entered path steps' ?_ ends
    rcases start with atEntry | free
    · intro first isFirst
      cases atEntry.symm.trans isFirst
      exact outside
    · exact free

/-! ### First elements -/

/-- Some element of a list is entered from no other element of it. -/
theorem exists_first {items : List α} (acyclic : ∀ item, ¬ Relation.TransGen step item item)
    (nonempty : items ≠ []) :
    ∃ item ∈ items, ∀ other ∈ items, ¬ step other item := by
  let before : {item // item ∈ items} → {item // item ∈ items} → Prop :=
    fun first second => Relation.TransGen step first.1 second.1
  have : IsTrans _ before := ⟨fun _ _ _ => Relation.TransGen.trans⟩
  have : Std.Irrefl before := ⟨fun item => acyclic item.1⟩
  have : Finite {item // item ∈ items} := items.finite_toSet
  obtain ⟨head, isHead⟩ := List.exists_mem_of_ne_nil items nonempty
  obtain ⟨⟨item, member⟩, _, first⟩ :=
    (Finite.wellFounded_of_trans_of_irrefl before).has_min Set.univ ⟨⟨head, isHead⟩, trivial⟩
  exact ⟨item, member, fun other isOther into => first ⟨other, isOther⟩ trivial (.single into)⟩

/-! ### First meetings -/

/-- Reached from a start, with no element before that needs anything. -/
inductive Untouched (start : α → Prop) (step : α → α → Prop) (needs : α → Prop) : α → Prop
  | start {item : α} (first : start item) : Untouched start step needs item
  | step {before item : α} (reached : Untouched start step needs before) (free : ¬ needs before)
      (next : step before item) : Untouched start step needs item

theorem untouched_iff_path {start needs : α → Prop} {item : α} :
    Untouched start step needs item ↔ ∃ front : List α, (front ++ [item]).IsChain step ∧
      (∀ first ∈ (front ++ [item]).head?, start first) ∧ ∀ before ∈ front, ¬ needs before := by
  constructor
  · intro untouched
    induction untouched with
    | @start item first => exact ⟨[], List.isChain_singleton item, by simpa using first, by simp⟩
    | @step before item _ free next ih =>
        obtain ⟨front, steps, first, earlier⟩ := ih
        refine ⟨front ++ [before], ?_, ?_, ?_⟩
        · rw [List.append_assoc, List.singleton_append]
          exact List.isChain_append_cons_cons.mpr ⟨steps, next, List.isChain_singleton item⟩
        · intro other isFirst
          refine first other ?_
          cases front with
          | nil => simpa using isFirst
          | cons _ _ => simpa using isFirst
        · intro other member
          rcases List.mem_append.mp member with old | new
          · exact earlier other old
          · exact List.mem_singleton.mp new ▸ free
  · rintro ⟨front, steps, first, earlier⟩
    induction front using List.reverseRecOn generalizing item with
    | nil => exact .start (first item rfl)
    | append_singleton front before ih =>
        rw [List.append_assoc, List.singleton_append, List.isChain_append_cons_cons] at steps
        obtain ⟨into, next, _⟩ := steps
        refine .step (ih into ?_ fun other member => earlier other (List.mem_append_left _ member))
          (earlier before (by simp)) next
        intro other isFirst
        refine first other ?_
        cases front with
        | nil => simpa using isFirst
        | cons _ _ => simpa using isFirst

private theorem exists_held {needs held : α → Prop} {start : α → Prop}
    (first : ∀ item, Untouched start step needs item → needs item → held item) {head : α} {rest : List α}
    (untouched : Untouched start step needs head) (steps : (head :: rest).IsChain step)
    (last : ∀ item ∈ (head :: rest).getLast?, needs item) : ∃ item ∈ head :: rest, held item := by
  -- along the path, up to the first element that needs it
  induction rest generalizing head with
  | nil => exact ⟨head, List.mem_cons_self, first head untouched (last head rfl)⟩
  | cons next rest ih =>
      by_cases here : needs head
      · exact ⟨head, List.mem_cons_self, first head untouched here⟩
      · obtain ⟨edge, later⟩ := List.isChain_cons_cons.mp steps
        obtain ⟨item, member, holds⟩ := ih (.step untouched here edge) later fun item isLast =>
          last item (by rwa [List.getLast?_cons_cons])
        exact ⟨item, List.mem_cons_of_mem _ member, holds⟩

/-- Every path from the entry to an element that needs something passes one that holds it. -/
theorem covered_iff {needs held : α → Prop} {entry : α} (only : ∀ item, held item → needs item) :
    (∀ path : List α, path.IsChain step → path.head? = some entry → (∀ last ∈ path.getLast?, needs last) →
      ∃ item ∈ path, held item) ↔
    ∀ item, Untouched (· = entry) step needs item → needs item → held item := by
  constructor
  · intro covered item untouched here
    obtain ⟨front, steps, first, earlier⟩ := untouched_iff_path.mp untouched
    have starts : (front ++ [item]).head? = some entry := by
      cases isHead : (front ++ [item]).head? with
      | none => simp at isHead
      | some head => rw [first head isHead]
    have ends : ∀ last ∈ (front ++ [item]).getLast?, needs last := by
      intro last isLast
      have same : item = last := by simpa using isLast
      exact same ▸ here
    obtain ⟨holder, member, holds⟩ := covered _ steps starts ends
    rcases List.mem_append.mp member with old | new
    · exact absurd (only holder holds) (earlier holder old)
    · exact List.mem_singleton.mp new ▸ holds
  · intro first path steps start last
    cases path with
    | nil => cases start
    | cons head rest =>
        cases start
        exact exists_held first (.start rfl) steps last

end Ipbm.Lib
