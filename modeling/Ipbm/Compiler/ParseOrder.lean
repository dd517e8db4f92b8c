import Ipbm.Compiler.DistributedLevels
import Ipbm.Lib.SortContract

/-! The order in which a stage visits its levels. The comparison of the final sort is the topological
order on different levels, but every level is less than itself. -/

set_option autoImplicit false

namespace Ipbm.Compiler
open Lib Relation
open Distribution hiding stageLevels levelLevel

/-- A stage visits its levels once, in the order of its list. -/
structure ParseOrder (levels : List Level) (sequence items : List Int) : Prop where
  consistent : items.Pairwise fun first second => sequence.idxOf first < sequence.idxOf second
  follows : items.Pairwise fun first second => ¬TransGen (LevelStep levels) second first

/-- The levels a stage is given: those it needs on some path of actions whose earlier stages do not
need them. -/
def Given (getHeader : String → Option Int) (levels : List Level) (stages : List Stage)
    (procId level : Int) : Prop :=
  NeedsAt getHeader levels stages level procId ∧
    Untouched (ActionSource stages) (ActionStep stages) (NeedsAt getHeader levels stages level) procId

/-! ### The comparison -/

theorem before_self (sequence : List Int) (level : Int) : before sequence level level = true := by
  rw [before]
  split
  · next z found =>
      simpa using List.find?_some found
  · rfl

/-- Some element is less than itself. -/
theorem not_strictWeakOn_before {sequence items : List Int} (nonempty : items ≠ []) :
    ¬StrictWeakOn (before sequence) items := by
  intro weak
  obtain ⟨level, member⟩ := List.exists_mem_of_ne_nil items nonempty
  have irrefl := weak.irrefl level member
  rw [before_self] at irrefl
  cases irrefl

/-- So the sort may leave any order. -/
theorem sortOr_before {other : List Int → List Int} (perm : ∀ items, (other items).Perm items)
    (sequence items : List Int) :
    sortOr other (before sequence) items = other items := by
  rcases List.eq_nil_or_concat items with rfl | ⟨_, _, rfl⟩
  · exact ((sortOr_sorts perm).perm _ []).eq_nil.trans (perm []).eq_nil.symm
  · exact sortOr_of_not_strictWeakOn (not_strictWeakOn_before (by simp))

/-! ### The lists -/

variable {getHeader : String → Option Int} {levels : List Level} {stages : List Stage}
  {sort : (Int → Int → Bool) → List Int → List Int} {distribution : DistributionResult}

/-- Only the last step of the pass sorts. -/
theorem distributeParsers_lists
    (distributed : distributeParsers sort getHeader levels stages = some distribution) :
    ∃ (sequence : List Int) (lists : IdTable),
      topologicalSort (levelLastTable levels) (levelNextTable levels) = some sequence ∧
      ∀ other, distributeParsers other getHeader levels stages =
        some ⟨lists.map fun entry => (entry.1, other (before sequence) entry.2),
          distribution.topoSequence⟩ := by
  obtain ⟨sequence, sorted, distributed⟩ := Option.bind_eq_some_iff.mp distributed
  obtain ⟨table, isTable, distributed⟩ := Option.bind_eq_some_iff.mp distributed
  obtain ⟨needed, isNeeded, distributed⟩ := Option.bind_eq_some_iff.mp distributed
  obtain ⟨stageOrder, stagesSorted, distributed⟩ := Option.bind_eq_some_iff.mp distributed
  cases distributed
  refine ⟨sequence, distributeLevels (lastTable stages) needed stageOrder, sorted, fun other => ?_⟩
  rw [distributeParsers, sorted, Option.bind_eq_bind, Option.bind_some, isTable]
  simp only [Option.bind_some, isNeeded, stagesSorted, Option.bind_eq_bind]
  rfl

private theorem all_equal_of_reverse {position : Int → Nat} {items : List Int}
    (forward : items.Pairwise fun first second => position first < position second)
    (backward : items.reverse.Pairwise fun first second => position first < position second) :
    ∀ first ∈ items, ∀ second ∈ items, first = second := by
  cases items with
  | nil => exact nofun
  | cons head rest =>
      cases rest with
      | nil =>
          intro first isFirst second isSecond
          rw [List.mem_singleton.mp isFirst, List.mem_singleton.mp isSecond]
      | cons next others =>
          have up := (List.pairwise_cons.mp forward).1 next List.mem_cons_self
          have down := (List.pairwise_cons.mp (List.pairwise_reverse.mp backward)).1 next List.mem_cons_self
          exact absurd up (Nat.lt_asymm down)

private theorem parseOrder_of_all_equal {sequence items : List Int} (nodup : items.Nodup)
    (equal : ∀ first ∈ items, ∀ second ∈ items, first = second) : ParseOrder levels sequence items := by
  cases items with
  | nil => exact ⟨List.Pairwise.nil, List.Pairwise.nil⟩
  | cons head rest =>
      cases rest with
      | nil => exact ⟨List.pairwise_singleton _ _, List.pairwise_singleton _ _⟩
      | cons next others =>
          have same := equal head List.mem_cons_self next (List.mem_cons_of_mem _ List.mem_cons_self)
          exact absurd (same ▸ List.mem_cons_self) (List.nodup_cons.mp nodup).1

/-- Whatever the sort does that it may do, each stage visits its levels in the order of the parse graph
exactly if it is given at most one. -/
theorem parseOrder_iff {headers : HeaderLookup} {ast : Ast} {program : Program}
    (loaded : load headers levels ast = some program)
    (returns : ∃ sort distribution,
      distributeParsers sort getHeader levels program.stages.logicalStages = some distribution) :
    (∀ sort, Sorts sort → ∀ distribution,
      distributeParsers sort getHeader levels program.stages.logicalStages = some distribution →
      ∀ sequence, topologicalSort (levelLastTable levels) (levelNextTable levels) = some sequence →
        ∀ procId, ParseOrder levels sequence ((distribution.distributedLevels.find procId).getD [])) ↔
    ∀ procId first second, Given getHeader levels program.stages.logicalStages procId first →
      Given getHeader levels program.stages.logicalStages procId second → first = second := by
  have isLoaded := load_loaded loaded
  constructor
  · intro ordered procId first second givenFirst givenSecond
    obtain ⟨_, _, distributed⟩ := returns
    obtain ⟨sequence, lists, sorted, runs⟩ := distributeParsers_lists distributed
    have kept : ∀ items : List Int, (id items).Perm items := fun items => List.Perm.refl items
    have forward := (ordered _ (sortOr_sorts kept) _ (runs _) sequence sorted procId).consistent
    have backward := (ordered _ (sortOr_sorts List.reverse_perm) _ (runs _) sequence sorted procId).consistent
    have given := fun level => mem_distributedLevels isLoaded (sortOr_sorts kept).perm (runs _) level procId
    have isFirst := (given first).mpr givenFirst
    have isSecond := (given second).mpr givenSecond
    rw [find_mapValues] at forward backward isFirst isSecond
    cases found : OrderedMap.find lists procId with
    | none =>
        rw [found] at isFirst
        cases isFirst
    | some items =>
        rw [found, Option.map_some, Option.getD_some, sortOr_before kept] at forward isFirst isSecond
        rw [found, Option.map_some, Option.getD_some, sortOr_before List.reverse_perm] at backward
        exact all_equal_of_reverse forward backward first isFirst second isSecond
  · intro single sort sorts distribution distributed sequence sorted procId
    apply parseOrder_of_all_equal (distributedLevels_nodup sorts.perm distributed procId)
    intro first isFirst second isSecond
    have given := fun level => mem_distributedLevels isLoaded sorts.perm distributed level procId
    exact single procId first second ((given first).mp isFirst) ((given second).mp isSecond)

/-- One header is one level. -/
theorem parseOrder_shared : ∃ distribution,
    distributeParsers (sortOr id) (fun name => (oneHeader.getHeader name).map Header.headerId) oneStateLevels
        sharedLevelProgram.stages.logicalStages = some distribution ∧
      ∀ sequence, topologicalSort (levelLastTable oneStateLevels) (levelNextTable oneStateLevels) =
        some sequence → ∀ procId, ParseOrder oneStateLevels sequence
          ((distribution.distributedLevels.find procId).getD []) := by
  have same : distributeParsers (fun _ items => items)
    (fun name => (oneHeader.getHeader name).map Header.headerId) oneStateLevels
      sharedLevelProgram.stages.logicalStages = some ⟨[(0, []), (1, [0]), (2, [])], [0, 1, 2]⟩ := by decide
  have loaded : load (fun _ => none) oneStateLevels (detourAst [⟨"go", "b"⟩]) = some sharedLevelProgram := rfl
  have single : ∀ procId first second, Given (fun name =>
    (oneHeader.getHeader name).map Header.headerId) oneStateLevels
      sharedLevelProgram.stages.logicalStages procId first →
    Given (fun name => (oneHeader.getHeader name).map Header.headerId) oneStateLevels
      sharedLevelProgram.stages.logicalStages procId second → first = second := by
    intro procId first second givenFirst givenSecond
    have given := fun level => mem_distributedLevels (load_loaded loaded)
      (fun _ items => List.Perm.refl items) same level procId
    have isFirst := (given first).mpr givenFirst
    have isSecond := (given second).mpr givenSecond
    cases found : OrderedMap.find ([(0, []), (1, [0]), (2, [])] : IdTable) procId with
    | none =>
        rw [found] at isFirst
        cases isFirst
    | some items =>
        rw [found, Option.getD_some] at isFirst isSecond
        have zero : ∀ entry ∈ ([(0, []), (1, [0]), (2, [])] : IdTable), ∀ level ∈ entry.2, level =
          0 := by decide
        have only := zero _ (OrderedMap.mem_of_find found)
        rw [only first isFirst, only second isSecond]
  have sorts : Sorts (sortOr (@id (List Int))) := sortOr_sorts fun items => List.Perm.refl items
  obtain ⟨_, _, _, runs⟩ := distributeParsers_lists same
  exact ⟨_, runs _, (parseOrder_iff loaded ⟨_, _, same⟩).mpr single _ sorts _ (runs _)⟩

/-- A header `h` with a header `g` behind it. -/
def twoHeaders : HeaderManager where
  headerName := "headers"
  headers := [("g", Header.ofHeaderDef ⟨"g_t", [⟨.bit 8, "f"⟩]⟩ 1),
    ("h", Header.ofHeaderDef ⟨"h_t", [⟨.bit 8, "f"⟩]⟩ 0)]

def twoStates : List StateDef :=
  [⟨"start", "headers", "h", .direct ⟨.default, "second", 2⟩⟩,
    ⟨"second", "headers", "g", .direct ⟨.default, "accept", 0⟩⟩]

def twoStateLevels : List Level := (LevelManager.load twoHeaders twoStates).get (by decide)

def secondHeaderAst : Ast where
  actions := []
  tables := []
  ingress := [{ name := "a", parser := ["g"], executor := [], matcher := ⟨[], [⟨.default, .none⟩]⟩ }]
  egress := []

def secondHeaderProgram : Program := (load (fun _ => none) twoStateLevels secondHeaderAst).get (by decide)

/-- A sort that leaves the list as it is lets the stage look for `g` before it has parsed `h`. -/
theorem not_parseOrder_second : ∃ sort, Sorts sort ∧ ∃ distribution,
    distributeParsers sort (fun name => (twoHeaders.getHeader name).map Header.headerId) twoStateLevels
        secondHeaderProgram.stages.logicalStages = some distribution ∧
      ∃ sequence, topologicalSort (levelLastTable twoStateLevels) (levelNextTable twoStateLevels) =
        some sequence ∧ ∃ procId, ¬ParseOrder twoStateLevels sequence
          ((distribution.distributedLevels.find procId).getD []) := by
  have kept : ∀ items : List Int, (id items).Perm items := fun items => List.Perm.refl items
  have same : distributeParsers (fun _ items => items)
    (fun name => (twoHeaders.getHeader name).map Header.headerId) twoStateLevels
      secondHeaderProgram.stages.logicalStages = some ⟨[(0, [1, 0])], [0]⟩ := by decide
  have sorted : topologicalSort (levelLastTable twoStateLevels) (levelNextTable twoStateLevels) =
    some [0, 1, 2] := by decide
  obtain ⟨sequence, lists, -, runs⟩ := distributeParsers_lists same
  have broken := runs (sortOr id)
  simp only [sortOr_before kept] at broken
  have unsorted := broken.trans ((runs fun _ items => items).symm.trans same)
  refine ⟨sortOr id, sortOr_sorts kept, _, unsorted, [0, 1, 2], sorted, 0, ?_⟩
  intro order
  have consistent : [1, 0].Pairwise fun first second : Int =>
    [0, 1, 2].idxOf first < [0, 1, 2].idxOf second := order.consistent
  exact absurd consistent (by decide)

end Ipbm.Compiler
