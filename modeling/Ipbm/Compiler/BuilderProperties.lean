import Ipbm.Compiler.Builder
import Ipbm.Compiler.ProcessorManagerProperties
import Ipbm.Compiler.DistributionProperties

/-! What a loaded program satisfies, whatever its source: stages are numbered,
every reference is a number of a stage or -1, tables have distinct ids and every
stage has a gateway of its own. -/

set_option autoImplicit false

namespace Ipbm.Compiler
open Lib ProcessorManager
open Distribution (liveStages)

def GatewayEntry.stageRef? : GatewayEntry → Option Int
  | .stage stageId => some stageId
  | .table _ _ => none

/-- The stages a gateway refers to. -/
def NextTable.stageRefs (table : NextTable) : List Int :=
  (table.defaultEntry.toList ++ table.entries.map Prod.snd).filterMap GatewayEntry.stageRef?

/-- A table before it is given blocks. How many it needs is known unless it has no keys. -/
structure Unconfigured (table : Table) : Prop where
  key : table.keyMemory.config = []
  value : table.valueMemory.config = []
  space : table.space.isSome ↔ table.noTable = false

structure Loaded (program : Program) : Prop where
  numbered : Numbered program.stages.logicalStages
  gatewayIds : program.stages.logicalStages.map Stage.gatewayId = List.range program.gateways.length
  defaults : ∀ gateway ∈ program.gateways, gateway.nextTable.default.isSome
  gatewayRefs : 0 < (liveStages program.stages.logicalStages).length →
    ∀ gateway ∈ program.gateways, ∀ reference ∈ gateway.nextTable.stageRefs,
      ValidRef (liveStages program.stages.logicalStages).length reference
  tableRefs : 0 < (liveStages program.stages.logicalStages).length →
    ∀ entry ∈ program.tables, ∀ pair ∈ entry.2.actionToProc,
      ValidRef (liveStages program.stages.logicalStages).length pair.2
  tableIds : (program.tables.map fun entry => entry.2.tableId).Nodup
  tables : ∀ stage ∈ program.stages.logicalStages, ∀ tableId ∈ stage.tableId,
    tableId ∈ program.tables.map fun entry => entry.2.tableId
  memories : ∀ entry ∈ program.tables, Unconfigured entry.2
  procIds : 0 < (liveStages program.stages.logicalStages).length →
    ∀ entry ∈ program.tables, 0 ≤ entry.2.procId ∧
      entry.2.procId < (liveStages program.stages.logicalStages).length

/-! ### Tables -/

private theorem makeTable_id {headers : HeaderLookup} {actions : ActionManager} {tableId : Int}
    {tableDef : TableDef} {table : Table}
    (made : TableManager.makeTable headers actions tableId tableDef = some table) :
    table.tableId = tableId ∧ table.actionToProc = [] ∧ Unconfigured table := by
  unfold TableManager.makeTable at made
  split at made
  · cases made
    exact ⟨rfl, rfl, rfl, rfl, by simp [Table.space, TableMemory.blockCount, TableMemory.size]⟩
  · obtain ⟨fields, _, made⟩ := Option.bind_eq_some_iff.mp made
    cases made
    exact ⟨rfl, rfl, rfl, rfl, by simp [Table.space, TableMemory.blockCount, TableMemory.size]⟩

/-- Ids grow with the position, so they are distinct, and no table has targets yet. -/
theorem load_tables {headers : HeaderLookup} {actions : ActionManager} {ast : Ast} {tables : TableManager}
    (loaded : TableManager.load headers actions ast = some tables) :
    (tables.map fun entry => entry.2.tableId).Nodup ∧
      ∀ entry ∈ tables, entry.2.actionToProc = [] ∧ Unconfigured entry.2 := by
  have run :=
    Lib.foldlM_some (fun done (tables : TableManager) => (tables.map fun entry => entry.2.tableId).Nodup ∧
    ∀ entry ∈ tables, (entry.2.actionToProc = [] ∧ Unconfigured entry.2) ∧
      entry.2.tableId < done.length) ?_ loaded
    ⟨List.nodup_nil, by simp⟩
  · exact ⟨run.1, fun entry member => (run.2 entry member).1⟩
  · rintro done ⟨tableDef, position⟩ before after front ⟨nodup, small⟩ step
    obtain ⟨table, made, chosen⟩ := Option.bind_eq_some_iff.mp step
    obtain ⟨number, made⟩ := makeTable_id made
    have here : position = done.length := by
      have place := List.prefix_iff_getElem?.mp front done.length (by simp)
      rw [List.getElem?_zipIdx] at place
      obtain ⟨_, _, same⟩ := Option.map_eq_some_iff.mp place
      simpa using (congrArg Prod.snd same).symm
    have grown : ∀ entry ∈ before, (entry.2.actionToProc = [] ∧ Unconfigured entry.2) ∧
        entry.2.tableId < (done ++ [(tableDef, position)]).length := by
      intro entry member
      obtain ⟨kept, below⟩ := small entry member
      exact ⟨kept, by push_cast [List.length_append]; omega⟩
    cases chosen
    split
    · exact ⟨nodup, grown⟩
    · refine ⟨?_, ?_⟩
      · rw [List.map_append, List.nodup_append]
        refine ⟨nodup, List.nodup_singleton _, ?_⟩
        rintro id member _ single rfl
        obtain ⟨entry, inside, rfl⟩ := List.mem_map.mp member
        obtain ⟨_, below⟩ := small entry inside
        simp only [List.map_cons, List.map_nil, List.mem_singleton] at single
        omega
      · intro entry member
        rcases List.mem_append.mp member with old | new
        · exact grown entry old
        · rw [List.mem_singleton] at new
          subst new
          exact ⟨made, by push_cast [List.length_append]; simp; omega⟩

private theorem load_procIds {headers : HeaderLookup} {actions : ActionManager} {ast : Ast}
    {tables : TableManager} (loaded : TableManager.load headers actions ast = some tables) :
    ∀ entry ∈ tables, entry.2.procId = 0 := by
  refine Lib.foldlM_preserves (fun tables : TableManager =>
    ∀ entry ∈ tables, entry.2.procId = 0) ?_ loaded (by simp)
  rintro before ⟨tableDef, position⟩ after _ old step
  obtain ⟨table, made, chosen⟩ := Option.bind_eq_some_iff.mp step
  have procId : table.procId = 0 := by
    unfold TableManager.makeTable at made
    split at made
    · cases made
      rfl
    · obtain ⟨fields, _, made⟩ := Option.bind_eq_some_iff.mp made
      cases made
      rfl
  cases chosen
  split
  · exact old
  · intro entry member
    rcases List.mem_append.mp member with kept | new
    · exact old entry kept
    · rw [List.mem_singleton] at new
      exact new ▸ procId

theorem lookupName_mem {tables : TableManager} {name : String} {table : Table}
    (found : tables.lookupName name = some table) : (name, table) ∈ tables := by
  obtain ⟨entry, first, rfl⟩ := Option.map_eq_some_iff.mp found
  have same : entry.1 = name := by simpa using List.find?_some first
  exact same ▸ List.mem_of_find?_eq_some first

private theorem update_ids (tables : TableManager) (tableId : Int) (change : Table → Table)
    (keeps : ∀ table, (change table).tableId = table.tableId) :
    (tables.update tableId change).map (fun entry => entry.2.tableId) =
      tables.map fun entry => entry.2.tableId := by
  unfold TableManager.update
  rw [List.map_map]
  apply List.map_congr_left
  intro entry _
  by_cases here : entry.2.tableId = tableId
  · simp [here, keeps]
  · simp [here]

/-! ### Gateways -/

private theorem mem_stageRefs {table : NextTable} {reference : Int} (member : reference ∈ table.stageRefs) :
    table.defaultEntry = some (.stage reference) ∨
      ∃ key, (key, GatewayEntry.stage reference) ∈ table.entries := by
  obtain ⟨entry, inside, isStage⟩ := List.mem_filterMap.mp member
  have same : entry = .stage reference := by
    cases entry with
    | table tableId matcherId => cases isStage
    | stage stageId =>
        cases isStage
        rfl
  subst same
  rcases List.mem_append.mp inside with default | listed
  · exact .inl (by simpa using default)
  · obtain ⟨⟨key, value⟩, present, rfl⟩ := List.mem_map.mp listed
    exact .inr ⟨key, present⟩

private theorem loadGateway_refs {headers : HeaderLookup} {makeEntry : SwitchValue → Option GatewayEntry}
    {matcher : StageMatcher} {gateway : Gateway}
    (loaded : loadGateway headers makeEntry matcher = some gateway) :
    gateway.nextTable.default.isSome ∧
      ∀ reference ∈ gateway.nextTable.stageRefs, ∃ value, makeEntry value = some (.stage reference) := by
  obtain ⟨expressions, _, loaded⟩ := Option.bind_eq_some_iff.mp loaded
  obtain ⟨values, made, loaded⟩ := Option.bind_eq_some_iff.mp loaded
  have resolved : ∀ value ∈ values, ∃ source, makeEntry source = some value.2 := by
    intro value member
    obtain ⟨position, inside, rfl⟩ := List.mem_iff_getElem.mp member
    have bound : position < matcher.switchEntries.length := length_of_mapM_some made ▸ inside
    have step := getElem_of_mapM_some made bound
    rw [List.getElem?_eq_getElem inside] at step
    obtain ⟨target, found, same⟩ := Option.bind_eq_some_iff.mp step
    exact ⟨_, found.trans (by rw [← Option.some.inj same])⟩
  dsimp only at loaded
  split at loaded
  · next present =>
      cases loaded
      refine ⟨present, fun reference member => ?_⟩
      obtain default | ⟨key, listed⟩ := mem_stageRefs member
      · obtain ⟨value, last, same⟩ := Option.map_eq_some_iff.mp default
        obtain ⟨source, found⟩ := resolved value (List.mem_filter.mp (List.mem_of_getLast? last)).1
        exact ⟨source, same ▸ found⟩
      · obtain ⟨value, inside, same⟩ := List.mem_map.mp listed
        obtain ⟨source, found⟩ := resolved value (List.mem_filter.mp inside).1
        exact ⟨source, (Prod.mk.inj same).2 ▸ found⟩
  · cases loaded

private theorem makeGatewayEntry_valid {stages : StageManager} {tables : TableManager}
    (numbered : Numbered stages.logicalStages) (positive : 0 < (liveStages stages.logicalStages).length)
    {value : SwitchValue} {reference : Int}
    (made : GatewayManager.makeGatewayEntry stages tables value = some (.stage reference)) :
    ValidRef (liveStages stages.logicalStages).length reference := by
  cases value with
  | table name =>
      obtain ⟨table, _, made⟩ := Option.bind_eq_some_iff.mp made
      cases made
  | stage name =>
      obtain ⟨stage, found, made⟩ := Option.bind_eq_some_iff.mp made
      cases made
      obtain ⟨position, _, found⟩ := Option.bind_eq_some_iff.mp found
      exact .inr (numbered.ids positive stage (List.mem_of_getElem? found))
  | none =>
      cases made
      exact .inl rfl

private theorem setMatcherId_ref (entry : GatewayEntry) (tableId matcherId : Int) :
    (entry.setMatcherId tableId matcherId).stageRef? = entry.stageRef? := by
  cases entry with
  | table ownId ownMatcher =>
      rw [GatewayEntry.setMatcherId]
      split <;> rfl
  | stage stageId => rfl

private theorem setMatcherId_refs (table : NextTable) (tableId matcherId : Int) :
    (table.setMatcherId tableId matcherId).stageRefs = table.stageRefs ∧
      (table.setMatcherId tableId matcherId).default.isSome = table.default.isSome := by
  obtain ⟨default, entries⟩ := table
  constructor
  · have rows : ((entries.map fun entry => (entry.1, entry.2.setMatcherId tableId matcherId)).map
        Prod.snd).filterMap GatewayEntry.stageRef? = (entries.map
          Prod.snd).filterMap GatewayEntry.stageRef? := by
      rw [List.map_map, List.filterMap_map, List.filterMap_map]
      exact List.filterMap_congr fun entry _ => setMatcherId_ref entry.2 tableId matcherId
    cases default with
    | none => simpa [NextTable.stageRefs, NextTable.setMatcherId] using rows
    | some entry =>
        simp only [NextTable.stageRefs, NextTable.setMatcherId, Option.map_some, Option.toList_some,
          List.filterMap_append, rows]
        congr 1
        simp only [List.filterMap_cons, setMatcherId_ref]
  · cases default <;> cases entries <;> rfl

/-! ### Setup -/

/-- What `setupStages` keeps. -/
private structure SetUp (stages : List Stage) (before after : TableManager × List Gateway) : Prop where
  ids : after.1.map (fun entry => entry.2.tableId) = before.1.map fun entry => entry.2.tableId
  targets : ∀ entry ∈ after.1, ∀ pair ∈ entry.2.actionToProc,
    (∃ old ∈ before.1, pair ∈ old.2.actionToProc) ∨ ∃ stage ∈ stages, pair ∈ stage.actionProc
  memories : ∀ entry ∈ after.1, ∃ old ∈ before.1, entry.2.keyMemory = old.2.keyMemory ∧
    entry.2.valueMemory = old.2.valueMemory ∧ entry.2.noTable = old.2.noTable
  procIds : ∀ entry ∈ after.1,
    (∃ old ∈ before.1, entry.2.procId = old.2.procId) ∨ ∃ stage ∈ stages, entry.2.procId = stage.stageId
  length : after.2.length = before.2.length
  gateways : ∀ gateway ∈ after.2, ∃ old ∈ before.2,
    gateway.nextTable.stageRefs = old.nextTable.stageRefs ∧
      gateway.nextTable.default.isSome = old.nextTable.default.isSome

private theorem SetUp.trans {stages : List Stage} {first second third : TableManager × List Gateway}
    (front : SetUp stages first second) (back : SetUp stages second third) : SetUp stages first third := by
  refine ⟨back.ids.trans front.ids, ?_, ?_, ?_, back.length.trans front.length, ?_⟩
  · intro entry member pair inside
    obtain ⟨old, before, kept⟩ | fresh := back.targets entry member pair inside
    · exact front.targets old before pair kept
    · exact .inr fresh
  · intro entry member
    obtain ⟨middle, before, key, value, noTable⟩ := back.memories entry member
    obtain ⟨old, earlier, key', value', noTable'⟩ := front.memories middle before
    exact ⟨old, earlier, key.trans key', value.trans value', noTable.trans noTable'⟩
  · intro entry member
    obtain ⟨middle, before, same⟩ | fresh := back.procIds entry member
    · rw [same]
      exact front.procIds middle before
    · exact .inr fresh
  · intro gateway member
    obtain ⟨middle, before, refs, default⟩ := back.gateways gateway member
    obtain ⟨old, earlier, refs', default'⟩ := front.gateways middle before
    exact ⟨old, earlier, refs.trans refs', default.trans default'⟩

private theorem setupTable_setUp {stages : List Stage} {stage : Stage} (member : stage ∈ stages)
    (state : TableManager × List Gateway) (tableId : Int) (matcherId : Nat) :
    SetUp stages state (setupTable stage state tableId matcherId) := by
  refine ⟨update_ids state.1 tableId (fun table => { table with
      procId := stage.stageId
      id := matcherId
      actionToProc :=
        table.actionToProc ++ stage.actionProc }) fun _ => rfl, ?_, ?_, ?_, by simp [setupTable], ?_⟩
  · intro entry inside pair target
    obtain ⟨old, before, rfl⟩ := List.mem_map.mp inside
    dsimp only at target
    split at target
    · rcases List.mem_append.mp target with kept | fresh
      · exact .inl ⟨old, before, kept⟩
      · exact .inr ⟨stage, member, fresh⟩
    · exact .inl ⟨old, before, target⟩
  · intro entry inside
    obtain ⟨old, before, rfl⟩ := List.mem_map.mp inside
    refine ⟨old, before, ?_⟩
    dsimp only
    split <;> exact ⟨rfl, rfl, rfl⟩
  · intro entry inside
    obtain ⟨old, before, rfl⟩ := List.mem_map.mp inside
    dsimp only
    split
    · exact .inr ⟨stage, member, rfl⟩
    · exact .inl ⟨old, before, rfl⟩
  · intro gateway inside
    obtain ⟨position, bound, rfl⟩ := List.mem_iff_getElem.mp inside
    have oldBound : position < state.2.length := by simpa [setupTable] using bound
    refine ⟨state.2[position], List.getElem_mem oldBound, ?_⟩
    simp only [setupTable, List.getElem_modify]
    split
    · exact setMatcherId_refs _ _ _
    · exact ⟨rfl, rfl⟩

private theorem SetUp.refl (stages : List Stage) (state : TableManager × List Gateway) :
    SetUp stages state state :=
  ⟨rfl, fun entry member _ target => .inl ⟨entry, member, target⟩,
    fun entry member => ⟨entry, member, rfl, rfl, rfl⟩, fun entry member => .inl ⟨entry, member, rfl⟩, rfl,
    fun gateway member => ⟨gateway, member, rfl, rfl⟩⟩

private theorem setupStages_setUp (stages : List Stage) (state : TableManager × List Gateway) :
    SetUp stages state (setupStages stages state) := by
  refine Lib.foldl_along (fun _ after => SetUp stages state after) ?_ (SetUp.refl stages state)
  intro _ stage after front before
  have member : stage ∈ stages := front.subset (List.mem_append_right _ (List.mem_singleton_self _))
  exact Lib.foldl_along (fun _ after => SetUp stages state after)
    (fun _ ref after _ before => before.trans (setupTable_setUp member after ref.1 ref.2)) before

/-! ### Load -/

private theorem generateTables_listed {tables : TableManager} {stages result : List Stage}
    (noTables : ∀ stage ∈ stages, stage.tableId = []) (done : generateTables tables stages = some result) :
    ∀ stage ∈ result, switchTables tables stage = some stage.tableId := by
  intro stage member
  obtain ⟨before, inside, step⟩ := mem_of_mapM_some done member
  obtain ⟨ids, listed, same⟩ := Option.bind_eq_some_iff.mp step
  cases same
  rw [noTables before inside]
  exact listed

private theorem switchTables_found {tables : TableManager} {stage : Stage} {ids : List Int}
    (listed : switchTables tables stage = some ids) :
    ∀ tableId ∈ ids, tableId ∈ tables.map fun entry => entry.2.tableId := by
  intro tableId inside
  obtain ⟨name, _, lookup⟩ := mem_of_mapM_some listed inside
  obtain ⟨table, named, number⟩ := Option.map_eq_some_iff.mp lookup
  exact List.mem_map.mpr ⟨_, lookupName_mem named, number⟩

private theorem load_noTables (ast : Ast) :
    ∀ stage ∈ (StageManager.load ast).logicalStages, stage.tableId = [] := by
  unfold StageManager.load
  induction ast.ingress ++ ast.egress using List.reverseRecOn with
  | nil => simp
  | append_singleton stageDefs stageDef ih =>
      rw [List.foldl_append]
      simp only [List.foldl_cons, List.foldl_nil, StageManager.addStage]
      split
      · exact ih
      · intro stage member
        rcases List.mem_append.mp member with old | new
        · exact ih stage old
        · rw [List.mem_singleton] at new
          rw [new]

private theorem initializeStages_listed {tables : TableManager} {state result : StageState}
    (positions : state.stages.logicalStages.map Stage.stageId =
      (List.range state.stages.logicalStages.length).map fun (position : Nat) => (position : Int))
    (noTables : ∀ stage ∈ state.stages.logicalStages, stage.tableId = [])
    (done : initializeStages tables state = some result) :
    ∀ stage ∈ result.stages.logicalStages, switchTables tables stage = some stage.tableId := by
  obtain ⟨⟨removedState, gotoMap⟩, removed, done⟩ := Option.bind_eq_some_iff.mp done
  obtain ⟨⟨stages, map⟩, reordered, done⟩ := Option.bind_eq_some_iff.mp done
  obtain ⟨final, generated, done⟩ := Option.bind_eq_some_iff.mp done
  cases done
  obtain ⟨unique, ordinary⟩ := removed_positions positions removed
  have followed := reorderMap_followed unique ordinary reordered
  refine generateTables_listed (fun stage member => ?_) generated
  obtain ⟨source, inside, rfl⟩ := List.mem_map.mp member
  have old : identity source ∈ (fillActionProc state).stages.logicalStages.map identity := by
    rw [← (removeStages_identity removed).1]
    exact List.mem_map_of_mem (followed.copies source inside)
  obtain ⟨origin, before, same⟩ := List.mem_map.mp old
  obtain ⟨first, listed, rfl⟩ := List.mem_map.mp before
  have tablesSame : first.tableId = source.tableId := congrArg (fun view => view.2.2) same
  exact tablesSame ▸ noTables first listed

private theorem gatewayIds_eq (stages : List Stage) :
    (stages.zipIdx.map fun (stage, gatewayId) => { stage with gatewayId }).map Stage.gatewayId =
      List.range stages.length := by
  apply List.ext_getElem
  · simp
  · intro position left right
    simp

private theorem gatewayIds_view (stages : List Stage) :
    (stages.zipIdx.map fun (stage, gatewayId) => { stage with gatewayId }).map numberView =
      stages.map numberView := by
  apply List.ext_getElem
  · simp
  · intro position left right
    simp [numberView]

theorem load_loaded {headers : HeaderLookup} {levels : List Level} {ast : Ast} {program : Program}
    (done : load headers levels ast = some program) : Loaded program := by
  obtain ⟨actions, _, done⟩ := Option.bind_eq_some_iff.mp done
  obtain ⟨tables, loadedTables, done⟩ := Option.bind_eq_some_iff.mp done
  obtain ⟨state, initialized, done⟩ := Option.bind_eq_some_iff.mp done
  obtain ⟨⟨stages, gateways⟩, loadedGateways, done⟩ := Option.bind_eq_some_iff.mp done
  obtain ⟨made, gatewaysMade, assigned⟩ := Option.bind_eq_some_iff.mp loadedGateways
  cases assigned
  have shape := Option.some.inj done
  subst shape
  have numbered := initializeStages_numbered (load_positions ast) initialized
  have listed := initializeStages_listed (load_positions ast) (load_noTables ast) initialized
  have view := gatewayIds_view state.stages.logicalStages
  have numbered' := numbered.congr view
  have sameLength : (liveStages (state.stages.logicalStages.zipIdx.map fun (stage, gatewayId) =>
      { stage with gatewayId })).length = (liveStages state.stages.logicalStages).length :=
    liveStages_length_congr view
  have setUp := setupStages_setUp (state.stages.logicalStages.zipIdx.map fun (stage, gatewayId) =>
    { stage with gatewayId }) (tables, gateways)
  obtain ⟨nodup, fresh⟩ := load_tables loadedTables
  have refs : ∀ gateway ∈ gateways, gateway.nextTable.default.isSome ∧
      ∀ reference ∈ gateway.nextTable.stageRefs, ∃ value,
        GatewayManager.makeGatewayEntry state.stages tables value = some (.stage reference) := by
    intro gateway member
    obtain ⟨position, bound, rfl⟩ := List.mem_iff_getElem.mp member
    have stageBound := length_of_mapM_some gatewaysMade ▸ bound
    have step := getElem_of_mapM_some gatewaysMade stageBound
    rw [List.getElem?_eq_getElem bound] at step
    exact loadGateway_refs step
  refine ⟨numbered', ?_, ?_, ?_, ?_, ?_, ?_, ?_, ?_⟩
  · refine (gatewayIds_eq _).trans (congrArg List.range ?_)
    exact (setUp.length.trans (length_of_mapM_some gatewaysMade)).symm
  · intro gateway member
    obtain ⟨old, before, _, default⟩ := setUp.gateways gateway member
    rw [default]
    exact (refs old before).1
  · intro positive gateway member reference inside
    obtain ⟨old, before, same, _⟩ := setUp.gateways gateway member
    rw [same] at inside
    obtain ⟨value, resolved⟩ := (refs old before).2 reference inside
    rw [sameLength] at positive ⊢
    exact makeGatewayEntry_valid numbered positive resolved
  · intro positive entry member pair inside
    obtain ⟨old, before, kept⟩ | ⟨stage, listed, kept⟩ := setUp.targets entry member pair inside
    · rw [(fresh old before).1] at kept
      cases kept
    · exact numbered'.references positive stage listed pair kept
  · exact (congrArg List.Nodup setUp.ids).mpr nodup
  · intro stage member tableId inside
    obtain ⟨source, before, rfl⟩ := List.mem_map.mp member
    refine (congrArg (fun ids => tableId ∈ ids) setUp.ids).mpr ?_
    exact switchTables_found (listed source.1 (List.fst_mem_of_mem_zipIdx before)) tableId inside
  · intro entry member
    obtain ⟨old, before, key, value, noTable⟩ := setUp.memories entry member
    obtain ⟨oldKey, oldValue, oldSpace⟩ := (fresh old before).2
    refine ⟨key ▸ oldKey, value ▸ oldValue, ?_⟩
    rw [noTable, ← oldSpace, Table.space, Table.space, key, value]
  · intro positive entry member
    obtain ⟨old, before, same⟩ | ⟨stage, listed, same⟩ := setUp.procIds entry member
    · rw [same, load_procIds loadedTables old before]
      exact ⟨le_rfl, by exact_mod_cast positive⟩
    · rw [same]
      exact numbered'.ids positive stage listed

/-- The tables of a loaded program, and those its stages run. -/
theorem load_parts {headers : HeaderLookup} {levels : List Level} {ast : Ast} {program : Program}
    {actions : ActionManager} (declared : ActionManager.load headers ast = some actions)
    (done : load headers levels ast = some program) :
    ∃ tables gateways, TableManager.load headers actions ast = some tables ∧
      program.tables = (setupStages program.stages.logicalStages (tables, gateways)).1 ∧
      ∀ stage ∈ program.stages.logicalStages, switchTables tables stage = some stage.tableId := by
  obtain ⟨actions', isActions, done⟩ := Option.bind_eq_some_iff.mp done
  cases declared.symm.trans isActions
  obtain ⟨tables, isTables, done⟩ := Option.bind_eq_some_iff.mp done
  obtain ⟨state, initialized, done⟩ := Option.bind_eq_some_iff.mp done
  obtain ⟨⟨stages, gateways⟩, loadedGateways, done⟩ := Option.bind_eq_some_iff.mp done
  cases done
  obtain ⟨made, _, assigned⟩ := Option.bind_eq_some_iff.mp loadedGateways
  cases assigned
  refine ⟨tables, gateways, isTables, rfl, fun stage member => ?_⟩
  obtain ⟨source, before, rfl⟩ := List.mem_map.mp member
  exact initializeStages_listed (load_positions ast) (load_noTables ast) initialized source.1
    (List.fst_mem_of_mem_zipIdx before)

/-! ### The order of the stages -/

theorem Loaded.ordinary {program : Program} (loaded : Loaded program) :
    ∀ stage ∈ liveStages program.stages.logicalStages, 0 ≤ stage.stageId := by
  intro stage live
  have number : stage.stageId ∈ (liveStages program.stages.logicalStages).map Stage.stageId :=
    List.mem_map_of_mem live
  rw [loaded.numbered.live] at number
  obtain ⟨position, _, same⟩ := List.mem_map.mp number
  exact same ▸ Int.natCast_nonneg position

theorem Loaded.unique {program : Program} (loaded : Loaded program) :
    ((liveStages program.stages.logicalStages).map Stage.stageId).Nodup := by
  rw [loaded.numbered.live]
  exact List.nodup_range.map fun _ _ equal => Int.ofNat.inj equal

/-- The stages that stay, in an order of the action edges. -/
theorem distributeParsers_order {program : Program} {getHeader : String → Option Int}
    {sort : (Int → Int → Bool) → List Int → List Int} {levels : List Level}
    {distribution : DistributionResult} (loaded : Loaded program)
    (distributed : distributeParsers sort getHeader levels program.stages.logicalStages = some distribution) :
    Distribution.TopologicalOrder (Distribution.nextTable program.stages.logicalStages)
      distribution.topoSequence ∧ distribution.topoSequence.Nodup ∧
      ∀ id, id ∈ distribution.topoSequence ↔
        id ∈ (liveStages program.stages.logicalStages).map Stage.stageId := by
  obtain ⟨levelOrder, _, distributed⟩ := Option.bind_eq_some_iff.mp distributed
  obtain ⟨levelLevel, _, distributed⟩ := Option.bind_eq_some_iff.mp distributed
  obtain ⟨needed, _, distributed⟩ := Option.bind_eq_some_iff.mp distributed
  obtain ⟨sequence, sorted, distributed⟩ := Option.bind_eq_some_iff.mp distributed
  cases distributed
  have table := Distribution.nextTable_successorTable loaded.ordinary
  have order := Distribution.topologicalSort_order table sorted
  refine ⟨order, order.perm.nodup_iff.mpr (table.ordered.imp fun below => below.ne), fun id => ?_⟩
  exact order.perm.mem_iff.trans Distribution.mem_keys_nextTable

end Ipbm.Compiler
