import Ipbm.Compiler.DistributionProperties
import Mathlib.Order.Bounds.Defs

/-! The topological sort on the two tables of a graph. It returns on the acyclic graphs, and then takes
the smallest free id each time. -/

set_option autoImplicit false

namespace Ipbm.Compiler.Distribution
open Lib

def Edge (next : IdTable) (source target : Int) : Prop := target ∈ (next.find source).getD []

def Acyclic (next : IdTable) : Prop := ∀ key, ¬Relation.TransGen (Edge next) key key

/-- The ids that are not taken, and have no predecessor that is not. -/
def free (next : IdTable) (taken : List Int) : Set Int :=
  {key | key ∈ OrderedMap.keys next ∧ key ∉ taken ∧ ∀ source, Edge next source key → source ∈ taken}

/-- Predecessors and successors of the same ids, converse to each other. -/
structure Graph (last next : IdTable) : Prop where
  predecessors : SuccessorTable last
  successors : SuccessorTable next
  sameIds : OrderedMap.keys last = OrderedMap.keys next
  forward : ∀ entry ∈ next, ∀ target ∈ entry.2, entry.1 ∈ (last.find target).getD []
  backward : ∀ entry ∈ last, ∀ source ∈ entry.2, entry.1 ∈ (next.find source).getD []

/-- The degrees that the loop starts with. -/
def degreesOf (last : IdTable) : OrderedMap Int Int := last.map fun entry => (entry.1, (entry.2.length : Int))

/-- The loop after some rounds. -/
def sortRounds (last next : IdTable) (rounds : Nat) : Option (OrderedMap Int Int × List Int) :=
  (List.range rounds).foldlM (fun state _ => sortStep next state) (degreesOf last, [])

variable {last next : IdTable}

theorem topologicalSort_eq : topologicalSort last next = (sortRounds last next last.length).map Prod.snd := by
  rw [topologicalSort, ← degreesOf, ← sortRounds]
  cases sortRounds last next last.length with
  | none => rfl
  | some state => rfl

/-! ### The predecessor table -/

private theorem mem_getD_iff {found : Option (List Int)} {item : Int} :
    item ∈ found.getD [] ↔ ∃ items, found = some items ∧ item ∈ items := by
  cases found with
  | none => simp
  | some items => simp

theorem mem_preds_iff (table : SuccessorTable next) {source target : Int} :
    source ∈ preds next target ↔ Edge next source target :=
  (mem_preds table).trans mem_getD_iff.symm

theorem Graph.mem_iff (graph : Graph last next) {source target : Int} {sources : List Int}
    (found : last.find target = some sources) :
    source ∈ sources ↔ Edge next source target := by
  constructor
  · exact graph.backward _ (OrderedMap.mem_of_find found) source
  · intro edge
    obtain ⟨targets, isTargets, member⟩ := mem_getD_iff.mp edge
    have listed := graph.forward _ (OrderedMap.mem_of_find isTargets) target member
    rwa [found] at listed

theorem Graph.closed (graph : Graph last next) : Closed next := by
  intro entry member target listed
  obtain ⟨sources, found, _⟩ := mem_getD_iff.mp (graph.forward entry member target listed)
  rw [← graph.sameIds]
  exact OrderedMap.find_isSome_iff.mp (Option.isSome_of_eq_some found)

private theorem ordered_degreesOf (ordered : OrderedMap.Ordered last) : OrderedMap.Ordered (degreesOf last) :=
  OrderedMap.ordered_map_value ordered fun items => (items.length : Int)

private theorem find_degreesOf (key : Int) :
    (degreesOf last).find key = (last.find key).map fun items => (items.length : Int) :=
  OrderedMap.find_map_value last (fun items => (items.length : Int)) key

/-- The pass counts the same predecessors as the table that is built from the successors. -/
theorem Graph.degrees_eq (graph : Graph last next) :
    degreesOf last = degreesOf (lastOf next) := by
  apply OrderedMap.eq_of_find (ordered_degreesOf graph.predecessors.ordered)
    (ordered_degreesOf (ordered_lastOf graph.successors))
  intro key
  rw [find_degreesOf, find_degreesOf]
  have sameKeys : key ∈ OrderedMap.keys (lastOf next) ↔ key ∈ OrderedMap.keys last := by
    rw [mem_keys_lastOf_of_closed graph.successors graph.closed, graph.sameIds]
  cases found : last.find key with
  | none =>
      have missing : key ∉ OrderedMap.keys last := by
        rw [← OrderedMap.find_isSome_iff, found]
        exact Bool.false_ne_true
      rw [← sameKeys, ← OrderedMap.find_isSome_iff, Option.not_isSome_iff_eq_none] at missing
      rw [missing]
  | some sources =>
      have listed := sameKeys.mpr (OrderedMap.find_isSome_iff.mp (Option.isSome_of_eq_some found))
      obtain ⟨others, isOthers⟩ := Option.isSome_iff_exists.mp (OrderedMap.find_isSome_iff.mpr listed)
      have built := find_lastOf graph.successors key
      rw [isOthers, Option.getD_some] at built
      have same : sources.Perm others := by
        rw [built]
        refine (List.perm_ext_iff_of_nodup ?_ (nodup_preds graph.successors key)).mpr ?_
        · exact graph.predecessors.nodup _ (OrderedMap.mem_of_find found)
        · intro source
          rw [graph.mem_iff found, mem_preds_iff graph.successors]
      rw [isOthers, Option.map_some, Option.map_some, same.length_eq]

theorem Graph.length_eq (graph : Graph last next) : last.length = (OrderedMap.keys next).length := by
  rw [← graph.sameIds, OrderedMap.keys, List.length_map]

theorem Graph.sortRounds_eq (graph : Graph last next) :
    sortRounds last next = sortRounds (lastOf next) next := by
  funext rounds
  rw [sortRounds, graph.degrees_eq, sortRounds]

theorem Graph.topologicalSort_eq (graph : Graph last next) :
    topologicalSort last next = topologicalSort (lastOf next) next := by
  have lengths := congrArg List.length graph.degrees_eq
  rw [degreesOf, degreesOf, List.length_map, List.length_map] at lengths
  rw [Distribution.topologicalSort_eq, Distribution.topologicalSort_eq, graph.sortRounds_eq, lengths]

/-! ### The loop -/

private theorem find_zero_iff (table : SuccessorTable next) (closed : Closed next)
    {degrees : OrderedMap Int Int} {sequence : List Int}
    (sorting : Sorting next (degrees, sequence)) {key : Int} :
    degrees.find key = some 0 ↔ key ∈ free next sequence := by
  have waiting : key ∈ OrderedMap.keys next → key ∉ sequence →
      (degrees.find key = some 0 ↔ ∀ source, Edge next source key → source ∈ sequence) := by
    intro listed fresh
    have degree := sorting.waiting key ((mem_keys_lastOf_of_closed table closed).mpr listed) fresh
    change degrees.find key = _ at degree
    rw [degree, Option.some.injEq, Int.natCast_eq_zero, List.length_eq_zero_iff, List.filter_eq_nil_iff]
    simp only [mem_preds_iff table, decide_eq_true_eq, not_not]
  constructor
  · intro zero
    have listed : key ∈ OrderedMap.keys next := by
      have inDegrees : key ∈ OrderedMap.keys degrees :=
        OrderedMap.find_isSome_iff.mp (Option.isSome_of_eq_some zero)
      have sameKeys : OrderedMap.keys degrees = _ := sorting.keys
      rwa [sameKeys, mem_keys_lastOf_of_closed table closed] at inDegrees
    have fresh : key ∉ sequence := by
      intro member
      obtain ⟨degree, isDegree, negative⟩ := sorting.taken key member
      change degrees.find key = _ at isDegree
      rw [zero] at isDegree
      cases isDegree
      exact lt_irrefl _ negative
    exact ⟨listed, fresh, (waiting listed fresh).mp zero⟩
  · intro ⟨listed, fresh, taken⟩
    exact (waiting listed fresh).mpr taken

/-- A round takes the smallest free id. -/
theorem sortStep_least (table : SuccessorTable next) (closed : Closed next)
    {state result : OrderedMap Int Int × List Int}
    (sorting : Sorting next state) (done : sortStep next state = some result) :
    ∃ taken, result.2 = state.2 ++ [taken] ∧ IsLeast (free next state.2) taken := by
  obtain ⟨degrees, sequence⟩ := state
  obtain ⟨targets, found, done⟩ := Option.bind_eq_some_iff.mp done
  cases done
  cases search : degrees.find? fun entry => entry.2 = 0 with
  | none =>
      rw [search] at found
      have listed := OrderedMap.find_isSome_iff.mp (Option.isSome_of_eq_some found)
      exact absurd (table.ordinary _ listed) (by decide)
  | some entry =>
      have isZero : entry.2 = 0 := by simpa using List.find?_some search
      have zero : degrees.find entry.1 = some 0 :=
        isZero ▸ OrderedMap.find_of_mem sorting.ordered (List.mem_of_find?_eq_some search)
      refine ⟨entry.1, rfl, (find_zero_iff table closed sorting).mp zero, ?_⟩
      intro other isFree
      have member := OrderedMap.mem_of_find ((find_zero_iff table closed sorting).mpr isFree)
      exact OrderedMap.find?_key_le sorting.ordered search member (decide_eq_true rfl)

/-- A round that fails has no free id, and looks for the successors of -1. -/
theorem sortStep_none (table : SuccessorTable next) (closed : Closed next)
    {state : OrderedMap Int Int × List Int} (sorting : Sorting next state)
    (failed : sortStep next state = none) :
    (state.1.find? fun entry => entry.2 = 0) = none ∧ next.find (-1) = none := by
  obtain ⟨degrees, sequence⟩ := state
  cases search : degrees.find? fun entry => entry.2 = 0 with
  | none =>
      refine ⟨rfl, ?_⟩
      rw [← Option.not_isSome_iff_eq_none, OrderedMap.find_isSome_iff]
      intro listed
      exact absurd (table.ordinary _ listed) (by decide)
  | some entry =>
      have isZero : entry.2 = 0 := by simpa using List.find?_some search
      have zero : degrees.find entry.1 = some 0 :=
        isZero ▸ OrderedMap.find_of_mem sorting.ordered (List.mem_of_find?_eq_some search)
      have listed := ((find_zero_iff table closed sorting).mp zero).1
      obtain ⟨targets, found⟩ := Option.isSome_iff_exists.mp (OrderedMap.find_isSome_iff.mpr listed)
      rw [sortStep, search] at failed
      simp [found] at failed

/-- What holds of the rounds that have returned. -/
theorem sortRounds_sorting (table : SuccessorTable next) (closed : Closed next) {rounds : Nat}
    {state : OrderedMap Int Int × List Int} (run : sortRounds (lastOf next) next rounds = some state) :
    Sorting next state ∧ ∀ front key back, state.2 = front ++ key :: back →
      IsLeast (free next front) key := by
  have start : Sorting next (degreesOf (lastOf next), []) ∧
      ∀ front key back, ([] : List Int) = front ++ key :: back → IsLeast (free next front) key :=
    ⟨sorting_start table, by simp⟩
  refine foldlM_preserves (fun state => Sorting next state ∧
    ∀ front key back, state.2 = front ++ key :: back → IsLeast (free next front) key) ?_ run start
  intro state _ result _ ⟨sorting, least⟩ step
  obtain ⟨taken, sequence, isLeast⟩ := sortStep_least table closed sorting step
  exact ⟨sortStep_sorting table sorting step, sequence ▸ forall_splits_concat least isLeast⟩

/-- A run that does not return stops in a round that looks for the successors of -1. -/
theorem sortRounds_none (table : SuccessorTable next) (closed : Closed next) {rounds : Nat}
    (failed : sortRounds (lastOf next) next rounds = none) :
    ∃ before < rounds, ∃ state, sortRounds (lastOf next) next before = some state ∧
      (state.1.find? fun entry => entry.2 = 0) = none ∧ next.find (-1) = none := by
  induction rounds with
  | zero => cases failed
  | succ rounds ih =>
      cases run : sortRounds (lastOf next) next rounds with
      | none =>
          obtain ⟨before, low, stopped⟩ := ih run
          exact ⟨before, Nat.lt_succ_of_lt low, stopped⟩
      | some state =>
          rw [sortRounds, List.range_succ, List.foldlM_append, ← sortRounds, run] at failed
          have step : sortStep next state = none := by simpa using failed
          exact ⟨rounds, Nat.lt_succ_self rounds, state, run,
            sortStep_none table closed (sortRounds_sorting table closed run).1 step⟩

/-! ### The order -/

theorem TopologicalOrder.idxOf_lt (table : SuccessorTable next) {sequence : List Int}
    (order : TopologicalOrder next sequence) {source target : Int}
    (edge : Edge next source target) : sequence.idxOf source < sequence.idxOf target := by
  have isSource := (mem_preds_iff table).mpr edge
  obtain ⟨targets, found, listed⟩ := mem_getD_iff.mp edge
  have member : target ∈ sequence :=
    order.perm.mem_iff.mpr (order.closed _ (OrderedMap.mem_of_find found) target listed)
  have nodup : sequence.Nodup := order.perm.nodup_iff.mpr (table.ordered.imp fun below => below.ne)
  obtain ⟨front, back, rfl⟩ := List.append_of_mem member
  have before := order.behind front target back rfl source isSource
  have fresh : target ∉ front := by
    intro inFront
    exact (List.disjoint_of_nodup_append nodup) inFront List.mem_cons_self
  rw [List.idxOf_append_of_mem before, List.idxOf_append_of_notMem fresh, List.idxOf_cons_self, Nat.add_zero]
  exact List.idxOf_lt_length_iff.mpr before

theorem TopologicalOrder.acyclic (table : SuccessorTable next) {sequence : List Int}
    (order : TopologicalOrder next sequence) :
    Acyclic next := by
  intro key cycle
  have forward : ∀ {source target : Int}, Relation.TransGen (Edge next) source target →
      sequence.idxOf source < sequence.idxOf target := by
    intro source target path
    induction path with
    | single edge => exact order.idxOf_lt table edge
    | tail _ edge ih => exact ih.trans (order.idxOf_lt table edge)
  exact lt_irrefl _ (forward cycle)

/-- The sort returns exactly on acyclic graphs, and fails by looking for the successors of -1. What it
returns lists every id once, every edge goes forward, and each id is the smallest that is free. -/
theorem topologicalSort_graph (graph : Graph last next) :
    ((∃ sequence, topologicalSort last next = some sequence) ↔ Acyclic next) ∧
      (¬Acyclic next → ∃ rounds < last.length, ∃ state, sortRounds last next rounds = some state ∧
        (state.1.find? fun entry => entry.2 = 0) = none ∧ next.find (-1) = none) ∧
      ∀ sequence, topologicalSort last next = some sequence → sequence.Perm (OrderedMap.keys next) ∧
        (∀ source target, Edge next source target → sequence.idxOf source < sequence.idxOf target) ∧
        ∀ front key back, sequence = front ++ key :: back → IsLeast (free next front) key := by
  have table := graph.successors
  have returns : (∃ sequence, topologicalSort last next = some sequence) ↔ Acyclic next := by
    rw [graph.topologicalSort_eq]
    constructor
    · intro ⟨sequence, sorted⟩
      exact (topologicalSort_order table sorted).acyclic table
    · intro acyclic
      refine topologicalSort_some table graph.closed ?_
      intro key cycle
      exact acyclic key (Relation.TransGen.mono (fun _ _ => (mem_preds_iff table).mp) key key cycle)
  refine ⟨returns, ?_, ?_⟩
  · intro cyclic
    have failed : sortRounds last next last.length = none := by
      cases run : sortRounds last next last.length with
      | none => rfl
      | some state =>
          exact absurd (returns.mp ⟨state.2, by rw [Distribution.topologicalSort_eq, run]; rfl⟩) cyclic
    rw [graph.sortRounds_eq] at failed ⊢
    exact sortRounds_none table graph.closed failed
  · intro sequence sorted
    have run := sorted
    rw [Distribution.topologicalSort_eq, graph.sortRounds_eq] at run
    obtain ⟨state, rounds, rfl⟩ := Option.map_eq_some_iff.mp run
    rw [graph.topologicalSort_eq] at sorted
    have order := topologicalSort_order table sorted
    exact ⟨order.perm, fun source target => order.idxOf_lt table,
      (sortRounds_sorting table graph.closed rounds).2⟩

theorem topologicalSort_graph_three : Acyclic [(0, [2, 1]), (1, [2]), (2, [])] ∧
    ∀ front key back, [0, 1, 2] = front ++ key :: back →
      IsLeast (free [(0, [2, 1]), (1, [2]), (2, [])] front) key := by
  have graph : Graph [(0, []), (1, [0]), (2, [0, 1])] [(0, [2, 1]), (1, [2]), (2, [])] :=
    ⟨⟨by decide, by decide, by decide⟩, ⟨by decide, by decide, by decide⟩, by decide, by decide, by decide⟩
  have sorted : topologicalSort [(0, []), (1, [0]), (2, [0, 1])] [(0, [2, 1]), (1, [2]), (2, [])] =
    some [0, 1, 2] := by decide
  obtain ⟨returns, _, order⟩ := topologicalSort_graph graph
  exact ⟨returns.mp ⟨_, sorted⟩, (order _ sorted).2.2⟩

end Ipbm.Compiler.Distribution
