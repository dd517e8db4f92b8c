import Ipbm.Compiler.Coverage
import Ipbm.Compiler.HeaderManager

/-! The distribution of the parser levels on acyclic graphs: the pass returns, and
what a stage is given is said by the paths that lead to it. -/

set_option autoImplicit false

namespace Ipbm.Compiler
open Lib Relation
open Distribution hiding stageLevels levelLevel

/-! ### The pass returns -/

private theorem find_keys {table : IdTable} {key : Int} (member : key ∈ OrderedMap.keys table) :
    ∃ items, OrderedMap.find table key = some items :=
  Option.isSome_iff_exists.mp (OrderedMap.find_isSome_iff.mpr member)

private theorem subset_keys_addItems (table : IdTable) (key : Int) (items : List Int) :
    OrderedMap.keys table ⊆ OrderedMap.keys
      (items.foldl (fun table item => table.alter key fun own => pushNew (own.getD []) item) table) := by
  induction items generalizing table with
  | nil => exact fun _ member => member
  | cons item rest ih => exact fun other member => ih _ (OrderedMap.mem_keys_alter.mpr (.inr member))

private theorem addPreds_some {table : IdTable} {keys : List Int}
    (known : keys ⊆ OrderedMap.keys table) (key : Int) {preds : List Int} (listed : preds ⊆ keys) :
    ∃ after, preds.foldlM (fun (table : IdTable) pred => do
        let items ← table.find pred
        return items.foldl (fun table level => table.alter key fun own => pushNew
          (own.getD []) level) table) table = some after ∧ keys ⊆ OrderedMap.keys after := by
  refine foldlM_runs (fun _ (table : IdTable) => keys ⊆ OrderedMap.keys table) ?_ known
  intro _ pred state member known
  obtain ⟨items, found⟩ := find_keys (known (listed member))
  exact ⟨_, Option.bind_eq_some_iff.mpr ⟨items, found, rfl⟩,
    fun other isKey => subset_keys_addItems state key items (known isKey)⟩

theorem levelLevel_some {levels : List Level} {sequence : List Int}
    (order : TopologicalOrder (levelNextTable levels) sequence) :
    ∃ table, Distribution.levelLevel levels sequence = some table := by
  have last := levelNextTable_successorTable levels
  have start : OrderedMap.keys (levels.zipIdx.map fun entry => ((entry.2 : Int), [(entry.2 : Int)])) =
      OrderedMap.keys (levelNextTable levels) :=
    (keys_levels levels fun entry => [(entry.2 : Int)]).trans (keys_levels levels _).symm
  have runs : ∃ table, Distribution.levelLevel levels sequence = some table ∧
      OrderedMap.keys (levelNextTable levels) ⊆ OrderedMap.keys table := by
    refine foldlM_runs (fun _ (table : IdTable) =>
      OrderedMap.keys (levelNextTable levels) ⊆ OrderedMap.keys table) ?_
      (fun _ member => start ▸ member)
    intro _ levelId table member known
    have isKey := order.perm.mem_iff.mp member
    obtain ⟨sources, found⟩ := find_keys ((mem_keys_lastOf last).mpr (.inl isKey))
    have isSources : sources = preds (levelNextTable levels) levelId := by
      rw [← find_lastOf last levelId, found, Option.getD_some]
    have listed : sources ⊆ OrderedMap.keys (levelNextTable levels) := by
      intro pred isPred
      obtain ⟨targets, isTargets, _⟩ := (mem_preds last).mp (isSources ▸ isPred)
      exact OrderedMap.find_isSome_iff.mp (Option.isSome_of_eq_some isTargets)
    obtain ⟨after, visited, kept⟩ := addPreds_some
      (fun other isOther => OrderedMap.mem_keys_alter.mpr (.inr (known isOther))) levelId listed
    exact ⟨after, Option.bind_eq_some_iff.mpr ⟨sources, found, visited⟩, kept⟩
  obtain ⟨table, run, _⟩ := runs
  exact ⟨table, run⟩

private theorem stageLevels_some {getHeader : String → Option Int} (levels : List Level)
    (table : IdTable) {stage : Stage} (declared : ∀ name ∈ stage.definition.parser, (getHeader name).isSome) :
    ∃ needed, Distribution.stageLevels getHeader levels table stage = some needed ∧ True := by
  refine foldlM_runs (fun _ _ => True) ?_ trivial
  intro _ name needed member _
  obtain ⟨headerId, isHeader⟩ := Option.isSome_iff_exists.mp (declared name member)
  exact ⟨_, Option.bind_eq_some_iff.mpr ⟨headerId, isHeader, rfl⟩, trivial⟩

private theorem procLevel_some {getHeader : String → Option Int} {levels : List Level} {table : IdTable}
    {stages : List Stage}
    (declared : ∀ stage ∈ liveStages stages, ∀ name ∈ stage.definition.parser, (getHeader name).isSome) :
    ∃ needed, procLevel getHeader levels table stages = some needed ∧ True := by
  refine foldlM_runs (fun _ _ => True) ?_ trivial
  intro _ stage needed live _
  obtain ⟨items, found, _⟩ := stageLevels_some levels table (declared stage live)
  exact ⟨_, Option.bind_eq_some_iff.mpr ⟨items, found, rfl⟩, trivial⟩

theorem mem_keys_levels {levels : List Level} {levelId : Int} :
    levelId ∈ OrderedMap.keys (levelNextTable levels) ↔ ∃ index < levels.length, levelId = (index : Nat) := by
  have keys : OrderedMap.keys (levelNextTable levels) = _ := keys_levels levels _
  rw [keys, List.mem_map]
  simp only [List.mem_range, eq_comm]

/-- No entry goes on to a level that does not exist. -/
theorem levels_closed_iff {levels : List Level} : Closed (levelNextTable levels) ↔
    ∀ first second, LevelStep levels first second → ∃ index < levels.length, second = (index : Nat) := by
  have table := levelNextTable_successorTable levels
  constructor
  · intro closed first second step
    obtain ⟨targets, found, member⟩ := (mem_preds table).mp (mem_preds_level.mpr step)
    exact mem_keys_levels.mp (closed _ (OrderedMap.mem_of_find found) second member)
  · intro closed entry member target isTarget
    have step : LevelStep levels entry.1 target := mem_preds_level.mp
      ((mem_preds table).mpr ⟨entry.2, OrderedMap.find_of_mem table.ordered member, isTarget⟩)
    exact mem_keys_levels.mpr (closed _ _ step)

/-- On acyclic graphs without dangling targets the pass returns. -/
theorem distributeParsers_some {getHeader : String → Option Int} {levels : List Level} {stages : List Stage}
    (sort : (Int → Int → Bool) → List Int → List Int)
    (ordinary : ∀ stage ∈ liveStages stages, 0 ≤ stage.stageId)
    (unique : ((liveStages stages).map Stage.stageId).Nodup)
    (levelsClosed : ∀ first second, LevelStep levels first second → ∃ index < levels.length,
      second = (index : Nat))
    (levelsAcyclic : ∀ levelId, ¬ TransGen (LevelStep levels) levelId levelId)
    (live : ∀ first second, ActionStep stages first second → second ∈ (liveStages stages).map Stage.stageId)
    (stagesAcyclic : ∀ stageId, ¬ TransGen (ActionStep stages) stageId stageId)
    (declared : ∀ stage ∈ liveStages stages, ∀ name ∈ stage.definition.parser, (getHeader name).isSome) :
    ∃ distribution, distributeParsers sort getHeader levels stages = some distribution := by
  have levelTable := levelNextTable_successorTable levels
  have stageTable := nextTable_successorTable ordinary
  have closedLevels : Closed (levelNextTable levels) := levels_closed_iff.mpr levelsClosed
  have closedStages : Closed (nextTable stages) := by
    intro entry member target isTarget
    have step : ActionStep stages entry.1 target := (mem_preds_stage unique stageTable).mp
      ((mem_preds stageTable).mpr ⟨entry.2, OrderedMap.find_of_mem stageTable.ordered member, isTarget⟩)
    exact mem_keys_nextTable.mpr (live _ _ step)
  have sameLevels : (fun first second => first ∈ preds (levelNextTable levels) second) = LevelStep levels :=
    funext fun _ => funext fun _ => propext mem_preds_level
  have sameStages : (fun first second => first ∈ preds (nextTable stages) second) = ActionStep stages :=
    funext fun _ => funext fun _ => propext (mem_preds_stage unique stageTable)
  obtain ⟨levelOrder, levelSorted⟩ :=
    topologicalSort_some levelTable closedLevels (sameLevels ▸ levelsAcyclic)
  obtain ⟨table, isTable⟩ := levelLevel_some (topologicalSort_order levelTable levelSorted)
  obtain ⟨needed, isNeeded, _⟩ := procLevel_some declared
  obtain ⟨sequence, sorted⟩ := topologicalSort_some stageTable closedStages (sameStages ▸ stagesAcyclic)
  exact ⟨_, Option.bind_eq_some_iff.mpr ⟨levelOrder, levelSorted, Option.bind_eq_some_iff.mpr ⟨table, isTable,
    Option.bind_eq_some_iff.mpr ⟨needed, isNeeded, Option.bind_eq_some_iff.mpr ⟨sequence, sorted, rfl⟩⟩⟩⟩⟩

/-! ### The levels of a parser -/

private theorem extract_nextState {manager : HeaderManager} {states : List StateDef} {state : StateDef}
    {entry : ParserSramEntry} (made : LevelManager.extract manager states state = some entry) :
    ∃ index < states.length + 1, entry.nextState = (index : Nat) := by
  have same : entry.nextState = ((LevelManager.stateId states state.name).getD 0 : Nat) := by
    unfold LevelManager.extract at made
    split at made
    · obtain ⟨header, _, made⟩ := Option.bind_eq_some_iff.mp made
      obtain ⟨fields, _, made⟩ := Option.bind_eq_some_iff.mp made
      cases made
      rfl
    · cases made
  refine ⟨(LevelManager.stateId states state.name).getD 0, ?_, same⟩
  unfold LevelManager.stateId
  split
  · exact Nat.succ_pos _
  · cases found : states.findIdx? fun other => other.name = state.name with
    | none => exact Nat.succ_pos _
    | some index =>
        have inside := (List.findIdx?_eq_some_iff_findIdx_eq.mp found).1
        exact Nat.succ_lt_succ inside

private theorem buildEntry_nextState {manager : HeaderManager} {states : List StateDef} {state : Nat}
    {transition : TransitionEntry} {entry : LevelEntry}
    (made : LevelManager.buildEntry manager states state transition = some entry) :
    ∃ index < states.length + 1, entry.parserSramEntry.nextState = (index : Nat) := by
  obtain ⟨mask, _, made⟩ := Option.bind_eq_some_iff.mp made
  split at made
  · obtain ⟨next, _, made⟩ := Option.bind_eq_some_iff.mp made
    obtain ⟨action, isAction, made⟩ := Option.bind_eq_some_iff.mp made
    cases made
    exact extract_nextState isAction
  · cases made
    exact ⟨0, Nat.succ_pos _, rfl⟩

theorem load_levelsClosed {manager : HeaderManager} {states : List StateDef} {levels : List Level}
    (loaded : LevelManager.load manager states = some levels) {first second : Int}
    (step : LevelStep levels first second) : ∃ index < levels.length, second = (index : Nat) := by
  cases states with
  | nil =>
      cases loaded
      obtain ⟨index, level, _, here, _⟩ := step
      cases here
  | cons state rest =>
      obtain ⟨action, isAction, loaded⟩ := Option.bind_eq_some_iff.mp loaded
      have invariant : levels.length = (state :: rest).length + 1 ∧ ∀ level ∈ levels, ∀ entry ∈ level,
          ∃ index < (state :: rest).length + 1, entry.parserSramEntry.nextState = (index : Nat) := by
        refine foldlM_preserves (fun (levels : List Level) => levels.length = (state :: rest).length + 1 ∧
          ∀ level ∈ levels, ∀ entry ∈ level,
            ∃ index < (state :: rest).length + 1, entry.parserSramEntry.nextState =
              (index : Nat)) ?_ loaded ?_
        · rintro before state' after _ ⟨length, inside⟩ step
          obtain ⟨id, _, step⟩ := Option.bind_eq_some_iff.mp step
          obtain ⟨entries, made, step⟩ := Option.bind_eq_some_iff.mp step
          cases step
          refine ⟨by rw [List.length_modify, length], ?_⟩
          intro level member entry isEntry
          obtain ⟨position, here⟩ := List.mem_iff_getElem?.mp member
          rw [List.getElem?_modify] at here
          obtain ⟨old, isOld, same⟩ := Option.map_eq_some_iff.mp here
          subst same
          split at isEntry
          · rcases List.mem_append.mp isEntry with isEntry | isEntry
            · exact inside old (List.mem_of_getElem? isOld) entry isEntry
            · obtain ⟨transition, _, built⟩ := mem_of_mapM_some made isEntry
              exact buildEntry_nextState built
          · exact inside old (List.mem_of_getElem? isOld) entry isEntry
        · refine ⟨by simp, ?_⟩
          intro level member entry isEntry
          rcases List.mem_cons.mp member with rfl | others
          · obtain rfl := List.mem_singleton.mp isEntry
            exact extract_nextState isAction
          · rw [List.eq_of_mem_replicate others] at isEntry
            cases isEntry
      obtain ⟨index, level, _, here, entry, isEntry, rfl⟩ := step
      obtain ⟨own, isOwn, rfl⟩ := List.mem_map.mp (List.mem_of_mem_filter isEntry)
      exact invariant.1 ▸ invariant.2 level (List.mem_of_getElem? here) own isOwn

/-! ### Lists without repetition -/

private theorem stageLevels_nodup {getHeader : String → Option Int} {levels : List Level}
    {table : IdTable} {stage : Stage} {needed : List Int}
    (run : Distribution.stageLevels getHeader levels table stage = some needed) : needed.Nodup := by
  refine foldlM_preserves List.Nodup ?_ run List.nodup_nil
  intro needed name after _ nodup step
  obtain ⟨headerId, _, step⟩ := Option.bind_eq_some_iff.mp step
  cases step
  refine foldl_along (fun _ (needed : List Int) => needed.Nodup) ?_ nodup
  intro _ levelId needed _ nodup
  exact @nodup_collect Int _ id needed nodup

private theorem distributeStage_nodup {last needed : IdTable} {total : Int → List Int} {procId : Int}
    (nodup : (listed needed procId).Nodup) : (distributeStage last needed total procId).1.Nodup := by
  unfold distributeStage
  split
  · exact nodup
  · -- what was added is part of the total, so no level is added twice
    refine (foldl_along (fun _ (state : List Int × List Int) => state.1.Nodup ∧ state.1 ⊆ state.2) ?_
      ⟨List.nodup_nil, List.nil_subset _⟩).1
    rintro _ level ⟨added, total⟩ _ ⟨nodup, part⟩
    dsimp only
    split
    · exact ⟨nodup, part⟩
    · next fresh =>
        refine ⟨List.nodup_append.mpr ⟨nodup, List.nodup_singleton _, ?_⟩, ?_⟩
        · rintro other member _ single rfl
          exact fresh (List.mem_singleton.mp single ▸ part member)
        · intro other member
          rcases List.mem_append.mp member with old | new
          · exact List.mem_append_left _ (part old)
          · exact List.mem_append_right _ new

/-- Tables whose lists have no repetition. -/
structure ListsNodup (table : IdTable) : Prop where
  ordered : OrderedMap.Ordered table
  nodup : ∀ key, (listed table key).Nodup

theorem ListsNodup.alter {table : IdTable} (lists : ListsNodup table) (key : Int)
    {change : Option (List Int) → List Int} (keeps : ∀ own, (∀ items ∈ own, items.Nodup) →
      (change own).Nodup) : ListsNodup (OrderedMap.alter table key change) := by
  refine ⟨OrderedMap.ordered_alter lists.ordered key _, fun other => ?_⟩
  rw [listed]
  by_cases same : other = key
  · subst same
    rw [OrderedMap.find_alter_self lists.ordered, Option.getD_some]
    apply keeps
    intro items found
    have old := lists.nodup other
    rwa [listed, Option.mem_def.mp found, Option.getD_some] at old
  · rw [OrderedMap.find_alter_of_ne same]
    exact lists.nodup other

private theorem ListsNodup.insert {table : IdTable} (lists : ListsNodup table) (key : Int) {value : List Int}
    (nodup : value.Nodup) : ListsNodup (OrderedMap.insert table key value) := by
  apply lists.alter
  intro own keeps
  cases own with
  | none => exact nodup
  | some items => exact keeps items rfl

private theorem listsNodup_nil : ListsNodup [] := ⟨List.Pairwise.nil, fun _ => List.nodup_nil⟩

private theorem procLevel_nodup {getHeader : String → Option Int} {levels : List Level}
    {table needed : IdTable} {stages : List Stage}
    (run : procLevel getHeader levels table stages = some needed) : ListsNodup needed := by
  refine foldlM_preserves ListsNodup ?_ run listsNodup_nil
  intro before stage after _ lists step
  obtain ⟨items, isItems, step⟩ := Option.bind_eq_some_iff.mp step
  cases step
  exact lists.insert stage.stageId (stageLevels_nodup isItems)

private theorem distributeLevels_nodup {last needed : IdTable} (lists : ListsNodup needed)
    (sequence : List Int) :
    ListsNodup (distributeLevels last needed sequence) := by
  refine foldl_along (fun _ (state : IdTable × IdTable) => ListsNodup state.1) ?_ listsNodup_nil
  intro _ procId state _ nodup
  exact nodup.insert procId (distributeStage_nodup (lists.nodup procId))

theorem distributedLevels_nodup {getHeader : String → Option Int} {levels : List Level} {stages : List Stage}
    {sort : (Int → Int → Bool) → List Int → List Int} (sorts : ∀ less items, (sort less items).Perm items)
    {distribution : DistributionResult}
    (distributed : distributeParsers sort getHeader levels stages = some distribution)
    (procId : Int) : ((distribution.distributedLevels.find procId).getD []).Nodup := by
  obtain ⟨levelOrder, _, distributed⟩ := Option.bind_eq_some_iff.mp distributed
  obtain ⟨table, _, distributed⟩ := Option.bind_eq_some_iff.mp distributed
  obtain ⟨needed, isNeeded, distributed⟩ := Option.bind_eq_some_iff.mp distributed
  obtain ⟨sequence, _, distributed⟩ := Option.bind_eq_some_iff.mp distributed
  cases distributed
  have lists : ListsNodup (distributeLevels (lastTable stages) needed sequence) :=
    distributeLevels_nodup (procLevel_nodup isNeeded) sequence
  have nodup := lists.nodup procId
  rw [find_mapValues]
  rw [listed] at nodup
  cases found : OrderedMap.find (distributeLevels (lastTable stages) needed sequence) procId with
  | none => exact List.nodup_nil
  | some items =>
      rw [found] at nodup
      exact (sorts (before levelOrder) items).nodup_iff.mpr nodup

/-! ### Which levels a stage is given -/

/-- On acyclic graphs the pass returns, and a stage is given exactly the levels it needs on some
path of actions whose earlier stages do not need them. -/
theorem distribution_exact (headers : HeaderLookup) (getHeader : String → Option Int)
    (sort : (Int → Int → Bool) → List Int → List Int) (manager : HeaderManager) (states : List StateDef)
    (levels : List Level) (ast : Ast) (program : Program) (sorts : ∀ less items, (sort less items).Perm items)
    (levelsLoaded : LevelManager.load manager states = some levels)
    (loaded : load headers levels ast = some program)
    (levelsAcyclic : ∀ levelId, ¬ TransGen (LevelStep levels) levelId levelId)
    (stagesAcyclic : ∀ stageId, ¬ TransGen (ActionStep program.stages.logicalStages) stageId stageId)
    (live : ∀ first second, ActionStep program.stages.logicalStages first second →
      second ∈ (liveStages program.stages.logicalStages).map Stage.stageId) :
    ((∀ stage ∈ liveStages program.stages.logicalStages, ∀ name ∈ stage.definition.parser,
      (getHeader name).isSome) →
      ∃ distribution, distributeParsers sort getHeader levels program.stages.logicalStages =
        some distribution) ∧
    ∀ distribution, distributeParsers sort getHeader levels program.stages.logicalStages = some distribution →
      ∀ stage ∈ liveStages program.stages.logicalStages,
        ((distribution.distributedLevels.find stage.stageId).getD []).Nodup ∧
        ∀ level, level ∈ (distribution.distributedLevels.find stage.stageId).getD [] ↔
          Needs getHeader levels stage level ∧
            ∃ front : List Int, (front ++ [stage.stageId]).IsChain (ActionStep program.stages.logicalStages) ∧
              (∀ first ∈ (front ++ [stage.stageId]).head?, ActionSource program.stages.logicalStages first) ∧
              ∀ before ∈ front, ¬ NeedsAt getHeader levels program.stages.logicalStages level before := by
  have isLoaded := load_loaded loaded
  constructor
  · intro declared
    exact distributeParsers_some sort isLoaded.ordinary isLoaded.unique
      (fun first second step => load_levelsClosed levelsLoaded step) levelsAcyclic live stagesAcyclic declared
  · intro distribution distributed stage isLive
    refine ⟨distributedLevels_nodup sorts distributed stage.stageId, fun level => ?_⟩
    rw [mem_distributedLevels isLoaded sorts distributed, untouched_iff_path]
    refine and_congr_left fun _ => ?_
    constructor
    · rintro ⟨other, otherLive, same, needs⟩
      exact List.inj_on_of_nodup_map isLoaded.unique otherLive isLive same ▸ needs
    · exact fun needs => ⟨stage, isLive, rfl, needs⟩

/-- A parser of one state, for the header `h`. -/
def oneHeader : HeaderManager where
  headerName := "headers"
  headers := [("h", Header.ofHeaderDef ⟨"h_t", [⟨.bit 8, "f"⟩]⟩ 0)]

def oneState : List StateDef := [⟨"start", "headers", "h", .direct ⟨.default, "accept", 0⟩⟩]

def oneStateLevels : List Level := (LevelManager.load oneHeader oneState).get (by decide)

def sharedLevelProgram : Program :=
  (load (fun _ => none) oneStateLevels (detourAst [⟨"go", "b"⟩])).get (by decide)

theorem acyclic_of_increasing {step : Int → Int → Prop}
    (increasing : ∀ first second, step first second → first < second)
    (item : Int) : ¬ TransGen step item item := by
  have along : ∀ first second, TransGen step first second → first < second := by
    intro first second chain
    induction chain with
    | single edge => exact increasing _ _ edge
    | tail _ edge ih => exact ih.trans (increasing _ _ edge)
  exact fun cycle => lt_irrefl item (along item item cycle)

/-- Stage `c` needs the level of `h` and hands it on to stage `b`. -/
theorem distribution_exact_shared :
    ∃ distribution, distributeParsers (fun _ items => items)
        (fun name => (oneHeader.getHeader name).map Header.headerId) oneStateLevels
        sharedLevelProgram.stages.logicalStages = some distribution ∧
      ∀ stage ∈ liveStages sharedLevelProgram.stages.logicalStages,
        ((distribution.distributedLevels.find stage.stageId).getD []).Nodup := by
  have levelSteps : ∀ (index : Nat) (level : Level), (level, index) ∈ oneStateLevels.zipIdx →
      ∀ entry ∈ transitions level, (index : Int) < entry.nextState := by
    have all : ∀ pair ∈ oneStateLevels.zipIdx, ∀ entry ∈ transitions pair.1, (pair.2 : Int) <
      entry.nextState := by decide
    exact fun index level member => all (level, index) member
  have actionSteps : ∀ stage ∈ liveStages sharedLevelProgram.stages.logicalStages, ∀ pair ∈ stage.actionProc,
      (stage.stageId < pair.2 ∨ pair.2 < 0) ∧
        (pair.2 < 0 ∨ pair.2 ∈ (liveStages sharedLevelProgram.stages.logicalStages).map
          Stage.stageId) := by decide
  have exactly :=
    distribution_exact (fun _ => none) (fun name => (oneHeader.getHeader name).map Header.headerId)
    (fun _ items => items) oneHeader oneState oneStateLevels (detourAst [⟨"go", "b"⟩]) sharedLevelProgram
    (fun _ items => List.Perm.refl items) rfl rfl (acyclic_of_increasing ?_) (acyclic_of_increasing ?_) ?_
  · obtain ⟨distribution, distributed⟩ := exactly.1 (by decide)
    exact ⟨distribution, distributed, fun stage live => (exactly.2 distribution distributed stage live).1⟩
  · rintro first second ⟨index, level, rfl, here, entry, isEntry, rfl⟩
    exact levelSteps index level (mem_zipIdx_level.mpr here) entry isEntry
  · rintro first second ⟨stage, live, rfl, nonneg, pair, member, rfl⟩
    exact (actionSteps stage live pair member).1.resolve_right (by omega)
  · rintro first second ⟨stage, live, rfl, nonneg, pair, member, rfl⟩
    exact (actionSteps stage live pair member).2.resolve_left (by omega)

example :
    (distributeParsers (fun _ items => items) (fun name => (oneHeader.getHeader name).map Header.headerId)
    oneStateLevels sharedLevelProgram.stages.logicalStages).map DistributionResult.distributedLevels =
      some [(0, []), (1, [0]), (2, [])] := by
  decide

end Ipbm.Compiler
