import Ipbm.Compiler.Distribution
import Ipbm.Lib.Traversal
import Ipbm.Lib.Paths
import Mathlib.Data.List.Nodup
import Mathlib.Data.List.Perm.Subperm

/-! The topological sort: when it returns, it lists every id once and every id
behind all its predecessors. -/

set_option autoImplicit false

namespace Ipbm.Compiler.Distribution
open Lib

/-- The ids that list `key` among their successors, in the order of the table. -/
def preds (next : IdTable) (key : Int) : List Int :=
  (next.filter fun entry => key ∈ entry.2).map Prod.fst

/-- Successor lists as the pass builds them. -/
structure SuccessorTable (next : IdTable) : Prop where
  ordered : OrderedMap.Ordered next
  ordinary : ∀ key ∈ OrderedMap.keys next, 0 ≤ key
  nodup : ∀ entry ∈ next, entry.2.Nodup

/-! ### Converse tables -/

private theorem ordered_pushAll {last : IdTable} (ordered : OrderedMap.Ordered last) (targets : List Int)
    (source : Int) :
    OrderedMap.Ordered (targets.foldl (fun last target => IdTable.push last target source) last) := by
  induction targets generalizing last with
  | nil => exact ordered
  | cons target rest ih => exact ih (OrderedMap.ordered_alter ordered _ _)

private theorem mem_keys_pushAll {last : IdTable} {targets : List Int} {source key : Int} :
    key ∈ OrderedMap.keys (targets.foldl (fun last target => IdTable.push last target source) last) ↔
      key ∈ targets ∨ key ∈ OrderedMap.keys last := by
  induction targets generalizing last with
  | nil => simp
  | cons target rest ih =>
      rw [List.foldl_cons, ih, IdTable.push, OrderedMap.mem_keys_alter, List.mem_cons]
      tauto

private theorem find_pushAll {last : IdTable} (ordered : OrderedMap.Ordered last) {targets : List Int}
    (nodup : targets.Nodup) (source key : Int) :
    ((targets.foldl (fun last target => IdTable.push last target source) last).find key).getD [] =
      (last.find key).getD [] ++ if key ∈ targets then [source] else [] := by
  induction targets generalizing last with
  | nil => simp
  | cons target rest ih =>
      obtain ⟨fresh, nodup⟩ := List.nodup_cons.mp nodup
      have ordered' : OrderedMap.Ordered (IdTable.push last target source) :=
        OrderedMap.ordered_alter ordered _ _
      rw [List.foldl_cons, ih ordered' nodup, IdTable.push]
      by_cases same : key = target
      · subst same
        rw [OrderedMap.find_alter_self ordered]
        simp [fresh]
      · rw [OrderedMap.find_alter_of_ne same]
        simp [same]

private theorem converse_spec {last next : IdTable} (ordered : OrderedMap.Ordered last)
    (nodup : ∀ entry ∈ next, entry.2.Nodup) :
    OrderedMap.Ordered (converse last next) ∧
      (∀ key, key ∈ OrderedMap.keys (converse last next) ↔
        key ∈ OrderedMap.keys last ∨ ∃ entry ∈ next, key ∈ entry.2) ∧
      ∀ key, ((converse last next).find key).getD [] = (last.find key).getD [] ++ preds next key := by
  unfold converse
  induction next generalizing last with
  | nil => simp [ordered, preds]
  | cons entry rest ih =>
      have first := nodup entry List.mem_cons_self
      obtain ⟨ordered', keys, found⟩ := ih (ordered_pushAll ordered entry.2 entry.1)
        fun other member => nodup other (List.mem_cons_of_mem _ member)
      refine ⟨ordered', ?_, ?_⟩
      · intro key
        rw [List.foldl_cons, keys, mem_keys_pushAll]
        simp only [List.mem_cons, exists_eq_or_imp]
        tauto
      · intro key
        rw [List.foldl_cons, found, find_pushAll ordered first, List.append_assoc]
        congr 1
        by_cases listed : key ∈ entry.2
        · simp [preds, listed]
        · simp [preds, listed]

@[simp] theorem keys_emptyTable (table : IdTable) :
    OrderedMap.keys (emptyTable table) = OrderedMap.keys table := by
  simp [OrderedMap.keys, emptyTable]

private theorem find_emptyTable (table : IdTable) (key : Int) :
    ((emptyTable table).find key).getD [] = [] := by
  cases found : (emptyTable table).find key with
  | none => rfl
  | some items =>
      obtain ⟨entry, _, same⟩ := List.mem_map.mp (OrderedMap.mem_of_find found)
      cases same
      rfl

variable {next : IdTable}

/-- The predecessor table of the pass. -/
abbrev lastOf (next : IdTable) : IdTable := converse (emptyTable next) next

theorem ordered_lastOf (table : SuccessorTable next) : OrderedMap.Ordered (lastOf next) := by
  refine (converse_spec ?_ table.nodup).1
  rw [OrderedMap.Ordered, keys_emptyTable]
  exact table.ordered

theorem mem_keys_lastOf (table : SuccessorTable next) {key : Int} :
    key ∈ OrderedMap.keys (lastOf next) ↔
      key ∈ OrderedMap.keys next ∨ ∃ entry ∈ next, key ∈ entry.2 := by
  have ordered : OrderedMap.Ordered (emptyTable next) := by
    rw [OrderedMap.Ordered, keys_emptyTable]
    exact table.ordered
  rw [(converse_spec ordered table.nodup).2.1, keys_emptyTable]

theorem find_lastOf (table : SuccessorTable next) (key : Int) :
    ((lastOf next).find key).getD [] = preds next key := by
  have ordered : OrderedMap.Ordered (emptyTable next) := by
    rw [OrderedMap.Ordered, keys_emptyTable]
    exact table.ordered
  rw [(converse_spec ordered table.nodup).2.2, find_emptyTable, List.nil_append]

theorem mem_preds (table : SuccessorTable next) {key source : Int} :
    source ∈ preds next key ↔ ∃ targets, next.find source = some targets ∧ key ∈ targets := by
  constructor
  · intro member
    obtain ⟨entry, inside, rfl⟩ := List.mem_map.mp member
    obtain ⟨listed, has⟩ := List.mem_filter.mp inside
    exact ⟨entry.2, OrderedMap.find_of_mem table.ordered listed, by simpa using has⟩
  · rintro ⟨targets, found, has⟩
    exact List.mem_map.mpr ⟨(source, targets),
      List.mem_filter.mpr ⟨OrderedMap.mem_of_find found, by simpa using has⟩, rfl⟩

theorem nodup_preds (table : SuccessorTable next) (key : Int) : (preds next key).Nodup := by
  have nodup : (OrderedMap.keys next).Nodup := table.ordered.imp fun below => below.ne
  exact nodup.sublist (List.filter_sublist.map Prod.fst)

/-! ### Degrees -/

private theorem keys_alter_of_mem {α : Type} {map : OrderedMap Int α}
    (ordered : OrderedMap.Ordered map) {key : Int}
    (member : key ∈ OrderedMap.keys map) (change : Option α → α) :
    OrderedMap.keys (map.alter key change) = OrderedMap.keys map := by
  induction map with
  | nil => cases member
  | cons entry rest ih =>
      obtain ⟨smaller, later⟩ := List.pairwise_cons.mp ordered
      unfold OrderedMap.alter
      split
      · next below =>
          rcases List.mem_cons.mp member with rfl | inside
          · exact absurd below (lt_irrefl _)
          · exact absurd (smaller key inside) (lt_asymm below)
      · split
        · next same => simp [OrderedMap.keys, same]
        · next different =>
            have inside : key ∈ OrderedMap.keys rest := (List.mem_cons.mp member).resolve_left different
            simp only [OrderedMap.keys, List.map_cons] at ih ⊢
            rw [ih later inside]

private theorem decrementAll_spec {degrees : OrderedMap Int Int} (ordered : OrderedMap.Ordered degrees)
    {targets : List Int} (listed : ∀ target ∈ targets, target ∈ OrderedMap.keys degrees) :
    OrderedMap.Ordered (targets.foldl decrement degrees) ∧
      OrderedMap.keys (targets.foldl decrement degrees) = OrderedMap.keys degrees ∧
      ∀ key degree, degrees.find key = some degree →
        (targets.foldl decrement degrees).find key = some (degree - targets.count key) := by
  induction targets generalizing degrees with
  | nil => exact ⟨ordered, rfl, fun key degree found => by simpa using found⟩
  | cons target rest ih =>
      have here := listed target List.mem_cons_self
      have sameKeys : OrderedMap.keys (decrement degrees target) = OrderedMap.keys degrees :=
        keys_alter_of_mem ordered here _
      have stepOrdered : OrderedMap.Ordered (decrement degrees target) :=
        OrderedMap.ordered_alter ordered target _
      obtain ⟨ordered', keys, found⟩ := ih stepOrdered
        fun other member => sameKeys ▸ listed other (List.mem_cons_of_mem _ member)
      refine ⟨ordered', keys.trans sameKeys, ?_⟩
      intro key degree before
      rw [List.foldl_cons]
      by_cases same : key = target
      · subst same
        have now : (decrement degrees key).find key = some (degree - 1) := by
          rw [decrement, OrderedMap.find_alter_self ordered, before]
          rfl
        rw [found key _ now, List.count_cons_self]
        congr 1
        omega
      · have now : (decrement degrees target).find key = some degree := by
          rw [decrement, OrderedMap.find_alter_of_ne same, before]
        rw [found key _ now, List.count_cons_of_ne (Ne.symm same)]

/-- The state of the sort: ids that are taken have a negative degree, and the degree of any other
id counts its predecessors that are still waiting. -/
structure Sorting (next : IdTable) (state : OrderedMap Int Int × List Int) : Prop where
  ordered : OrderedMap.Ordered state.1
  keys : OrderedMap.keys state.1 = OrderedMap.keys (lastOf next)
  nodup : state.2.Nodup
  listed : ∀ key ∈ state.2, key ∈ OrderedMap.keys next
  taken : ∀ key ∈ state.2, ∃ degree, state.1.find key = some degree ∧ degree < 0
  waiting : ∀ key ∈ OrderedMap.keys (lastOf next), key ∉ state.2 →
    state.1.find key = some (((preds next key).filter fun source => source ∉ state.2).length : Int)
  behind : ∀ front key back, state.2 = front ++ key :: back → ∀ source ∈ preds next key, source ∈ front

private theorem filter_concat_length {items sequence : List Int} {taken : Int} (nodup : items.Nodup)
    (fresh : taken ∉ sequence) :
    ((items.filter fun source => source ∉ sequence ++ [taken]).length : Int) =
      (items.filter fun source => source ∉ sequence).length - if taken ∈ items then 1 else 0 := by
  induction items with
  | nil => simp
  | cons item rest ih =>
      obtain ⟨new, nodup⟩ := List.nodup_cons.mp nodup
      have rest := ih nodup
      by_cases same : item = taken
      · subst same
        simp [fresh, new] at rest ⊢
        exact rest
      · by_cases inside : item ∈ sequence
        · simp [inside, same, Ne.symm same] at rest ⊢
          exact rest
        · simp [inside, same, Ne.symm same] at rest ⊢
          omega

private theorem sortStep_taken (table : SuccessorTable next) {degrees : OrderedMap Int Int}
    {sequence targets : List Int} {taken : Int} (sorting : Sorting next (degrees, sequence))
    (isTaken : ((degrees.find? fun entry => entry.2 = 0).map Prod.fst).getD (-1) = taken)
    (found : next.find taken = some targets) :
    taken ∈ OrderedMap.keys next ∧ taken ∉ sequence ∧ ∀ source ∈ preds next taken, source ∈ sequence := by
  have listed : taken ∈ OrderedMap.keys next := OrderedMap.find_isSome_iff.mp (by rw [found]; rfl)
  -- the successor table has no id -1, so an id of degree zero was found
  have zero : degrees.find taken = some 0 := by
    cases first : degrees.find? fun entry => entry.2 = 0 with
    | none =>
        rw [first] at isTaken
        have ordinary := table.ordinary taken listed
        simp at isTaken
        omega
    | some entry =>
        have isZero : entry.2 = 0 := by simpa using List.find?_some first
        have member := List.mem_of_find?_eq_some first
        rw [first] at isTaken
        have same : entry.1 = taken := by simpa using isTaken
        exact OrderedMap.find_of_mem sorting.ordered (same ▸ isZero ▸ member)
  have fresh : taken ∉ sequence := by
    intro member
    obtain ⟨degree, negative, below⟩ := sorting.taken taken member
    rw [zero] at negative
    cases negative
    exact lt_irrefl _ below
  refine ⟨listed, fresh, ?_⟩
  have count := sorting.waiting taken ((mem_keys_lastOf table).mpr (.inl listed)) fresh
  change degrees.find taken = _ at count
  rw [zero, Option.some.injEq, eq_comm, Int.natCast_eq_zero, List.length_eq_zero_iff,
    List.filter_eq_nil_iff] at count
  intro source member
  simpa using count source member

private theorem sortStep_degrees (table : SuccessorTable next) {degrees : OrderedMap Int Int}
    {sequence targets : List Int} {taken : Int} (sorting : Sorting next (degrees, sequence))
    (found : next.find taken = some targets) :
    OrderedMap.Ordered (targets.foldl decrement (degrees.alter taken fun _ => -1)) ∧
      OrderedMap.keys (targets.foldl decrement (degrees.alter taken fun _ => -1)) =
        OrderedMap.keys (lastOf next) ∧
      ∀ key degree, (degrees.alter taken fun _ => -1).find key = some degree →
        (targets.foldl decrement (degrees.alter taken fun _ => -1)).find key =
          some (degree - targets.count key) := by
  have keys : OrderedMap.keys degrees = OrderedMap.keys (lastOf next) := sorting.keys
  have listed : taken ∈ OrderedMap.keys next := OrderedMap.find_isSome_iff.mp (by rw [found]; rfl)
  have inDegrees : taken ∈ OrderedMap.keys degrees := by
    rw [keys]
    exact (mem_keys_lastOf table).mpr (.inl listed)
  have sameKeys : OrderedMap.keys (degrees.alter taken fun _ => -1) = OrderedMap.keys degrees :=
    keys_alter_of_mem sorting.ordered inDegrees _
  have targetsListed : ∀ target ∈ targets, target ∈ OrderedMap.keys (degrees.alter taken fun _ => -1) := by
    intro target member
    rw [sameKeys, keys]
    exact (mem_keys_lastOf table).mpr (.inr ⟨_, OrderedMap.mem_of_find found, member⟩)
  obtain ⟨ordered, sameAfter, lowered⟩ :=
    decrementAll_spec (OrderedMap.ordered_alter sorting.ordered taken fun _ => -1) targetsListed
  exact ⟨ordered, (sameAfter.trans sameKeys).trans keys, lowered⟩

theorem sortStep_sorting (table : SuccessorTable next) {state result : OrderedMap Int Int × List Int}
    (sorting : Sorting next state) (done : sortStep next state = some result) : Sorting next result := by
  obtain ⟨degrees, sequence⟩ := state
  obtain ⟨targets, found, done⟩ := Option.bind_eq_some_iff.mp done
  cases done
  generalize isTaken : (((degrees.find? fun entry => entry.2 = 0).map Prod.fst).getD (-1)) = taken at found
  obtain ⟨listed, fresh, allBefore⟩ := sortStep_taken table sorting isTaken found
  obtain ⟨ordered, keys, lowered⟩ := sortStep_degrees table sorting found
  have negative : ∀ key degree, (degrees.alter taken fun _ => -1).find key = some degree → degree < 0 →
      ∃ lower, (targets.foldl decrement (degrees.alter taken fun _ => -1)).find key = some lower ∧
          lower < 0 :=
    fun key degree before below => ⟨_, lowered key degree before, by omega⟩
  refine ⟨ordered, keys, ?_, ?_, ?_, ?_, ?_⟩
  · exact List.nodup_append.mpr ⟨sorting.nodup, List.nodup_singleton _, by
      rintro key member _ single rfl
      rw [List.mem_singleton] at single
      exact fresh (single ▸ member)⟩
  · intro key member
    rcases List.mem_append.mp member with old | new
    · exact sorting.listed key old
    · rw [List.mem_singleton] at new
      exact new ▸ listed
  · intro key member
    rcases List.mem_append.mp member with old | new
    · obtain ⟨degree, before, below⟩ := sorting.taken key old
      have different : key ≠ taken := fun same => fresh (same ▸ old)
      exact negative key degree (by rw [OrderedMap.find_alter_of_ne different]; exact before) below
    · rw [List.mem_singleton] at new
      subst new
      exact negative key (-1) (OrderedMap.find_alter_self sorting.ordered key _) (by decide)
  · intro key inKeys absent
    have different : key ≠ taken := by
      rintro rfl
      simp at absent
    have notSeen : key ∉ sequence := fun member => absent (List.mem_append_left _ member)
    have before := sorting.waiting key inKeys notSeen
    rw [lowered key _ (by rw [OrderedMap.find_alter_of_ne different]; exact before),
      filter_concat_length (nodup_preds table key) fresh]
    have nodup := table.nodup _ (OrderedMap.mem_of_find found)
    have listedIff : taken ∈ preds next key ↔ key ∈ targets := by
      rw [mem_preds table, found]
      simp
    by_cases target : key ∈ targets
    · rw [List.count_eq_one_of_mem nodup target, if_pos (listedIff.mpr target)]
      rfl
    · rw [List.count_eq_zero_of_not_mem target, if_neg (mt listedIff.mp target)]
      rfl
  · exact forall_splits_concat sorting.behind allBefore

private theorem sortSteps_length {steps : List Nat} {state result : OrderedMap Int Int × List Int}
    (done : steps.foldlM (fun state _ => sortStep next state) state = some result) :
    result.2.length = state.2.length + steps.length := by
  induction steps generalizing state with
  | nil =>
      cases done
      rfl
  | cons step rest ih =>
      rw [List.foldlM_cons] at done
      obtain ⟨middle, first, done⟩ := Option.bind_eq_some_iff.mp done
      obtain ⟨targets, _, first⟩ := Option.bind_eq_some_iff.mp first
      cases first
      rw [ih done]
      simp only [List.length_append, List.length_cons, List.length_nil]
      omega

/-- At the start every id waits for all its predecessors. -/
theorem sorting_start (table : SuccessorTable next) :
    Sorting next ((lastOf next).map fun entry => (entry.1, (entry.2.length : Int)), []) := by
  have sameKeys : OrderedMap.keys ((lastOf next).map fun entry => (entry.1, (entry.2.length : Int))) =
      OrderedMap.keys (lastOf next) := by
    simp [OrderedMap.keys]
  have ordered : OrderedMap.Ordered ((lastOf next).map fun entry => (entry.1, (entry.2.length : Int))) := by
    rw [OrderedMap.Ordered, sameKeys]
    exact ordered_lastOf table
  refine ⟨ordered, sameKeys, List.nodup_nil, by simp, by simp, ?_, by simp⟩
  intro key inKeys _
  obtain ⟨items, found⟩ := Option.isSome_iff_exists.mp (OrderedMap.find_isSome_iff.mpr inKeys)
  have whole := find_lastOf table key
  rw [found, Option.getD_some] at whole
  refine OrderedMap.find_of_mem ordered (List.mem_map.mpr ⟨(key, items), OrderedMap.mem_of_find found, ?_⟩)
  simp [whole]

/-- A returned order lists every id once, behind its predecessors. -/
structure TopologicalOrder (next : IdTable) (sequence : List Int) : Prop where
  perm : sequence.Perm (OrderedMap.keys next)
  closed : ∀ entry ∈ next, ∀ target ∈ entry.2, target ∈ OrderedMap.keys next
  behind : ∀ front key back, sequence = front ++ key :: back → ∀ source ∈ preds next key, source ∈ front

theorem topologicalSort_order (table : SuccessorTable next) {sequence : List Int}
    (done : topologicalSort (lastOf next) next = some sequence) : TopologicalOrder next sequence := by
  obtain ⟨⟨degrees, _⟩, loop, done⟩ := Option.bind_eq_some_iff.mp done
  cases done
  have start := sorting_start table
  have sorted : Sorting next (degrees, sequence) :=
    foldlM_preserves (Sorting next) (fun _ _ _ _ sorting step =>
      sortStep_sorting table sorting step) loop start
  have length : sequence.length = (OrderedMap.keys (lastOf next)).length := by
    simpa [OrderedMap.keys] using sortSteps_length loop
  have sub : sequence ⊆ OrderedMap.keys next := fun key member => sorted.listed key member
  have more : (OrderedMap.keys next).Subperm (OrderedMap.keys (lastOf next)) := by
    refine List.subperm_of_subset (table.ordered.imp fun below => below.ne) ?_
    exact fun key member => (mem_keys_lastOf table).mpr (.inl member)
  have perm : sequence.Perm (OrderedMap.keys next) :=
    (List.subperm_of_subset sorted.nodup sub).perm_of_length_le (length ▸ more.length_le)
  refine ⟨perm, ?_, sorted.behind⟩
  intro entry member target listed
  have same : (OrderedMap.keys next).Perm (OrderedMap.keys (lastOf next)) :=
    more.perm_of_length_le (length ▸ perm.length_eq.le)
  exact same.mem_iff.mpr ((mem_keys_lastOf table).mpr (.inr ⟨entry, member, listed⟩))

/-- All successors are ids of the table. -/
def Closed (next : IdTable) : Prop := ∀ entry ∈ next, ∀ target ∈ entry.2, target ∈ OrderedMap.keys next

theorem mem_keys_lastOf_of_closed (table : SuccessorTable next) (closed : Closed next) {key : Int} :
    key ∈ OrderedMap.keys (lastOf next) ↔ key ∈ OrderedMap.keys next := by
  rw [mem_keys_lastOf table]
  refine ⟨?_, .inl⟩
  rintro (listed | ⟨entry, member, target⟩)
  · exact listed
  · exact closed entry member key target

private theorem sortStep_some (table : SuccessorTable next) (closed : Closed next)
    (acyclic : ∀ key, ¬ Relation.TransGen (fun first second => first ∈ preds next second) key key)
    {state : OrderedMap Int Int × List Int} (sorting : Sorting next state)
    (waiting : state.2.length < (OrderedMap.keys next).length) :
    ∃ result, sortStep next state = some result ∧ result.2.length = state.2.length + 1 := by
  obtain ⟨degrees, sequence⟩ := state
  have rest : (OrderedMap.keys next).filter (fun key => key ∉ sequence) ≠ [] := by
    intro none
    have all : OrderedMap.keys next ⊆ sequence := by
      intro key member
      simpa using List.filter_eq_nil_iff.mp none key member
    have keysNodup : (OrderedMap.keys next).Nodup := table.ordered.imp fun below => below.ne
    exact absurd (List.subperm_of_subset keysNodup all).length_le (Nat.not_le_of_lt waiting)
  obtain ⟨free, member, first⟩ := exists_first acyclic rest
  obtain ⟨listed, fresh⟩ := List.mem_filter.mp member
  have degree :=
    sorting.waiting free ((mem_keys_lastOf_of_closed table closed).mpr listed) (by simpa using fresh)
  have noneWaiting : (preds next free).filter (fun source => source ∉ sequence) = [] := by
    refine List.filter_eq_nil_iff.mpr fun source isSource => ?_
    intro absent
    obtain ⟨targets, found, _⟩ := (mem_preds table).mp isSource
    have inKeys : source ∈ OrderedMap.keys next :=
      OrderedMap.find_isSome_iff.mp (Option.isSome_of_eq_some found)
    exact first source (List.mem_filter.mpr ⟨inKeys, absent⟩) isSource
  change degrees.find free = some (((preds next free).filter fun source =>
    source ∉ sequence).length : Int) at degree
  rw [noneWaiting] at degree
  cases search : degrees.find? fun entry => entry.2 = 0 with
  | none =>
      have missing := List.find?_eq_none.mp search _ (OrderedMap.mem_of_find degree)
      simp at missing
  | some entry =>
      have inDegrees : entry.1 ∈ OrderedMap.keys degrees :=
        List.mem_map_of_mem (List.mem_of_find?_eq_some search)
      have keys : OrderedMap.keys degrees = _ := sorting.keys
      rw [keys, mem_keys_lastOf_of_closed table closed] at inDegrees
      obtain ⟨targets, found⟩ := Option.isSome_iff_exists.mp (OrderedMap.find_isSome_iff.mpr inDegrees)
      refine ⟨_, Option.bind_eq_some_iff.mpr ⟨targets, ?_, rfl⟩, by simp⟩
      rw [search]
      exact found

/-- The sort returns on every acyclic table. -/
theorem topologicalSort_some (table : SuccessorTable next) (closed : Closed next)
    (acyclic : ∀ key, ¬ Relation.TransGen (fun first second => first ∈ preds next second) key key) :
    ∃ sequence, topologicalSort (lastOf next) next = some sequence := by
  have keysNodup : (OrderedMap.keys next).Nodup := table.ordered.imp fun below => below.ne
  have lastNodup : (OrderedMap.keys (lastOf next)).Nodup := (ordered_lastOf table).imp fun below => below.ne
  have sameKeys : (OrderedMap.keys (lastOf next)).Perm (OrderedMap.keys next) :=
    (List.perm_ext_iff_of_nodup lastNodup keysNodup).mpr fun _ => mem_keys_lastOf_of_closed table closed
  have steps : ∀ count ≤ (OrderedMap.keys next).length, ∃ result,
      (List.range count).foldlM (fun state _ => sortStep next state)
        ((lastOf next).map fun entry => (entry.1, (entry.2.length : Int)), []) = some result ∧
      Sorting next result ∧ result.2.length = count := by
    intro count
    induction count with
    | zero => exact fun _ => ⟨_, rfl, sorting_start table, rfl⟩
    | succ count ih =>
        intro bound
        obtain ⟨middle, run, sorting, length⟩ := ih (Nat.le_of_succ_le bound)
        obtain ⟨result, step, longer⟩ := sortStep_some table closed acyclic sorting (length ▸ bound)
        refine ⟨result, ?_, sortStep_sorting table sorting step, longer.trans (by rw [length])⟩
        rw [List.range_succ, List.foldlM_append, run]
        simp [step]
  have length : (lastOf next).length = (OrderedMap.keys next).length := by
    simpa [OrderedMap.keys] using sameKeys.length_eq
  obtain ⟨result, run, _, _⟩ := steps _ le_rfl
  refine ⟨result.2, Option.bind_eq_some_iff.mpr ⟨result, ?_, rfl⟩⟩
  rw [length]
  exact run

/-! ### The tables of the pass -/

theorem mem_pushNew {items : List Int} {item other : Int} :
    other ∈ pushNew items item ↔ other ∈ items ∨ other = item := by
  unfold pushNew
  split
  · next present =>
      constructor
      · exact .inl
      · rintro (old | rfl)
        · exact old
        · exact present
  · simp

theorem nodup_pushNew {items : List Int} (nodup : items.Nodup) (item : Int) : (pushNew items item).Nodup := by
  unfold pushNew
  split
  · exact nodup
  · next absent =>
      refine List.nodup_append.mpr ⟨nodup, List.nodup_singleton _, ?_⟩
      rintro other member _ single rfl
      rw [List.mem_singleton] at single
      exact absent (single ▸ member)

/-- A list collected with `pushNew`. -/
theorem mem_collect {α : Type} {source : List α} {value : α → Int} {items : List Int} {other : Int} :
    other ∈ source.foldl (fun items entry => pushNew items (value entry)) items ↔
      other ∈ items ∨ ∃ entry ∈ source, value entry = other := by
  induction source generalizing items with
  | nil => simp
  | cons entry rest ih =>
      rw [List.foldl_cons, ih, mem_pushNew]
      simp only [List.mem_cons, exists_eq_or_imp, @eq_comm _ other]
      tauto

theorem nodup_collect {α : Type} {source : List α} {value : α → Int} {items : List Int}
    (nodup : items.Nodup) : (source.foldl (fun items entry => pushNew items (value entry)) items).Nodup := by
  induction source generalizing items with
  | nil => exact nodup
  | cons entry rest ih => exact ih (nodup_pushNew nodup _)

/-- The successors of a stage along its actions. -/
def successors (stage : Stage) : List Int :=
  (stage.actionProc.filter fun pair => 0 ≤ pair.2).foldl (fun targets pair => pushNew targets pair.2) []

theorem mem_successors {stage : Stage} {target : Int} :
    target ∈ successors stage ↔ 0 ≤ target ∧ ∃ pair ∈ stage.actionProc, pair.2 = target := by
  unfold successors
  rw [mem_collect]
  constructor
  · rintro (none | ⟨pair, member, rfl⟩)
    · cases none
    · obtain ⟨listed, nonneg⟩ := List.mem_filter.mp member
      exact ⟨by simpa using nonneg, pair, listed, rfl⟩
  · rintro ⟨nonneg, pair, listed, rfl⟩
    exact .inr ⟨pair, List.mem_filter.mpr ⟨listed, by simpa using nonneg⟩, rfl⟩

private theorem insertStages_spec (stages : List Stage) (table : IdTable)
    (ordered : OrderedMap.Ordered table) :
    OrderedMap.Ordered (stages.foldl
      (fun table stage => table.insert stage.stageId (successors stage)) table) ∧
      (∀ key, key ∈ OrderedMap.keys
          (stages.foldl (fun table stage => table.insert stage.stageId (successors stage)) table) ↔
        key ∈ OrderedMap.keys table ∨ key ∈ stages.map Stage.stageId) ∧
      (∀ key items,
        (stages.foldl (fun table stage => table.insert stage.stageId (successors stage)) table).find key =
          some items → table.find key = some items ∨ ∃ stage ∈ stages, stage.stageId = key ∧
            items = successors stage) := by
  induction stages generalizing table with
  | nil => exact ⟨ordered, by simp, fun key items found => .inl found⟩
  | cons stage rest ih =>
      have stepOrdered : OrderedMap.Ordered (table.insert stage.stageId (successors stage)) :=
        OrderedMap.ordered_alter ordered _ _
      obtain ⟨ordered', keys, found⟩ := ih _ stepOrdered
      refine ⟨ordered', ?_, ?_⟩
      · intro key
        rw [List.foldl_cons, keys, OrderedMap.insert, OrderedMap.mem_keys_alter, List.map_cons, List.mem_cons]
        tauto
      · intro key items present
        obtain old | ⟨other, member, same, equal⟩ := found key items present
        · by_cases here : key = stage.stageId
          · subst here
            rw [OrderedMap.insert, OrderedMap.find_alter_self ordered] at old
            cases before : table.find stage.stageId with
            | none =>
                rw [before] at old
                cases old
                exact .inr ⟨stage, List.mem_cons_self, rfl, rfl⟩
            | some value =>
                rw [before] at old
                cases old
                exact .inl rfl
          · rw [OrderedMap.insert, OrderedMap.find_alter_of_ne here] at old
            exact .inl old
        · exact .inr ⟨other, List.mem_cons_of_mem _ member, same, equal⟩

theorem mem_keys_nextTable {stages : List Stage} {key : Int} :
    key ∈ OrderedMap.keys (nextTable stages) ↔ key ∈ (liveStages stages).map Stage.stageId := by
  refine ((insertStages_spec (liveStages stages) [] List.Pairwise.nil).2.1 key).trans ?_
  simp [OrderedMap.keys]

theorem find_nextTable {stages : List Stage} {key : Int} {items : List Int}
    (found : (nextTable stages).find key = some items) :
    ∃ stage ∈ liveStages stages, stage.stageId = key ∧ items = successors stage := by
  have spec := (insertStages_spec (liveStages stages) [] List.Pairwise.nil).2.2 key items found
  exact spec.resolve_left (by simp [OrderedMap.find_nil])

theorem nextTable_successorTable {stages : List Stage}
    (ordinary : ∀ stage ∈ liveStages stages, 0 ≤ stage.stageId) : SuccessorTable (nextTable stages) := by
  have ordered : OrderedMap.Ordered (nextTable stages) :=
    (insertStages_spec (liveStages stages) [] List.Pairwise.nil).1
  refine ⟨ordered, ?_, ?_⟩
  · intro key member
    obtain ⟨stage, live, rfl⟩ := List.mem_map.mp (mem_keys_nextTable.mp member)
    exact ordinary stage live
  · intro entry member
    obtain ⟨stage, _, _, equal⟩ := find_nextTable (OrderedMap.find_of_mem ordered member)
    rw [equal]
    exact nodup_collect List.nodup_nil

end Ipbm.Compiler.Distribution
