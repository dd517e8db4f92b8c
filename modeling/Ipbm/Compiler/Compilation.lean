import Ipbm.Compiler.Blocks
import Ipbm.Compiler.References

/-! A whole compile: what the documents of the processors take over from the
source. Passes number, place and configure the tables, but what a table was
declared with goes through all of them. -/

set_option autoImplicit false

namespace Ipbm.Compiler
open Lib Dataplane IpsaConfiguration Memory Builder
open Distribution (liveStages)

/-- The members that only `TableManager::load` writes, but for the sizes of the memories. -/
def Table.declared (table : Table) : Table where
  tableId := table.tableId
  missActionId := table.missActionId
  noTable := table.noTable
  matchType := table.matchType
  keyWidthVec := table.keyWidthVec
  fieldInfos := table.fieldInfos

def declaredEntry (entry : String × Table) : String × Table := (entry.1, entry.2.declared)

namespace TableManager

theorem load_made {headers : HeaderLookup} {actions : ActionManager} {ast : Ast} {tables : TableManager}
    (loaded : load headers actions ast = some tables) {entry : String × Table} (member : entry ∈ tables) :
    ∃ (position : Nat) (tableDef : TableDef), ast.tables[position]? = some tableDef ∧
      entry.1 = tableDef.name ∧ makeTable headers actions position tableDef = some entry.2 := by
  refine foldlM_preserves (fun tables : TableManager => ∀ entry ∈ tables,
    ∃ (position : Nat) (tableDef : TableDef), ast.tables[position]? = some tableDef ∧
      entry.1 = tableDef.name ∧
      makeTable headers actions position tableDef = some entry.2) ?_ loaded (by simp) entry member
  rintro state ⟨tableDef, position⟩ after listed old step
  obtain ⟨table, made, step⟩ := Option.bind_eq_some_iff.mp step
  have here : ast.tables[position]? = some tableDef := List.mem_zipIdx_iff_getElem?.mp listed
  obtain rfl := Option.some.inj step
  split
  · exact old
  · intro entry inside
    rcases List.mem_append.mp inside with before | new
    · exact old entry before
    · obtain rfl := List.mem_singleton.mp new
      exact ⟨position, tableDef, here, rfl, made⟩

theorem makeTable_tableId {headers : HeaderLookup} {actions : ActionManager} {tableId : Int}
    {tableDef : TableDef} {table : Table}
    (made : makeTable headers actions tableId tableDef = some table) : table.tableId = tableId := by
  unfold makeTable at made
  split at made
  · cases made
    rfl
  · obtain ⟨fields, _, made⟩ := Option.bind_eq_some_iff.mp made
    cases made
    rfl

theorem declared_update {tables : TableManager} {tableId : Int} {change : Table → Table}
    (keeps : ∀ entry ∈ tables, entry.2.tableId = tableId → (change entry.2).declared = entry.2.declared) :
    (tables.update tableId change).map declaredEntry = tables.map declaredEntry := by
  rw [update, List.map_map]
  refine List.map_congr_left fun entry member => ?_
  by_cases here : entry.2.tableId = tableId
  · simp [declaredEntry, here, keeps entry member here]
  · simp [declaredEntry, here]

theorem declared_reorderStages (tables : TableManager) (procProc : Int → Option Int) :
    (tables.reorderStages procProc).map declaredEntry = tables.map declaredEntry := by
  rw [reorderStages, List.map_map]
  rfl

end TableManager

theorem declared_setupStages (stages : List Stage) (state : TableManager × List Gateway) :
    (setupStages stages state).1.map declaredEntry = state.1.map declaredEntry := by
  have table : ∀ (stage : Stage) (state : TableManager × List Gateway) (tableId : Int) (matcherId : Nat),
      (setupTable stage state tableId matcherId).1.map declaredEntry = state.1.map declaredEntry := by
    intro stage state tableId matcherId
    simp only [setupTable, TableManager.setMatcherId]
    apply TableManager.declared_update
    intro entry _ _
    rfl
  have stage : ∀ (stage : Stage) (refs : List (Int × Nat)) (state : TableManager × List Gateway),
      (refs.foldl (fun state (ref : Int × Nat) => setupTable stage state ref.1 ref.2)
        state).1.map declaredEntry = state.1.map declaredEntry := by
    intro stage refs
    induction refs with
    | nil => exact fun state => rfl
    | cons ref rest ih => exact fun state => (ih _).trans (table stage state ref.1 ref.2)
  induction stages generalizing state with
  | nil => rfl
  | cons first rest ih => exact (ih _).trans (stage first first.tableId.zipIdx state)

theorem tableIds_of_declared {first second : TableManager}
    (same : first.map declaredEntry = second.map declaredEntry) :
    (first.map fun entry => entry.2.tableId) = second.map fun entry => entry.2.tableId := by
  have ids : ∀ tables : TableManager, (tables.map fun entry => entry.2.tableId) =
      (tables.map declaredEntry).map fun entry => entry.2.tableId := by
    intro tables
    rw [List.map_map]
    rfl
  rw [ids first, same, ← ids second]

private theorem declared_configureTable {used after : Counters} {table configured : Table}
    (done : configureTable used table = some (configured, after)) : configured.declared = table.declared := by
  obtain ⟨key, _, done⟩ := Option.bind_eq_some_iff.mp done
  obtain ⟨value, _, done⟩ := Option.bind_eq_some_iff.mp done
  cases done
  rfl

private theorem declared_configureRef {state after : TableManager × List Counters} {ref : Nat × Int}
    (nodup : (state.1.map fun entry => entry.2.tableId).Nodup) (step : configureRef state ref = some after) :
    after.1.map declaredEntry = state.1.map declaredEntry := by
  obtain ⟨table, found, step⟩ := Option.bind_eq_some_iff.mp step
  obtain ⟨⟨configured, used⟩, done, step⟩ := Option.bind_eq_some_iff.mp step
  cases step
  change (state.1.update ref.2 fun _ => configured).map declaredEntry = _
  refine TableManager.declared_update fun entry member here => ?_
  have same := lookupId_of_mem nodup member
  rw [here, found] at same
  cases same
  exact declared_configureTable done

theorem declared_allocateMemory {tables : TableManager} {stages : List Stage} {topoSequence : List Int}
    {memory : MemoryResult} (nodup : (tables.map fun entry => entry.2.tableId).Nodup)
    (allocated : allocateMemory tables stages topoSequence = some memory) :
    memory.tables.map declaredEntry = tables.map declaredEntry := by
  obtain ⟨space, _, allocated⟩ := Option.bind_eq_some_iff.mp allocated
  obtain ⟨⟨configured, spaces⟩, run, allocated⟩ := Option.bind_eq_some_iff.mp allocated
  cases allocated
  refine foldlM_preserves (fun state => state.1.map declaredEntry = tables.map declaredEntry) ?_ run rfl
  intro state ref after _ old step
  exact (declared_configureRef (tableIds_of_declared old ▸ nodup) step).trans old

theorem declared_load {headers : HeaderLookup} {levels : List Level} {ast : Ast} {program : Program}
    (done : load headers levels ast = some program) :
    ∃ actions tables, TableManager.load headers actions ast = some tables ∧
      program.tables.map declaredEntry = tables.map declaredEntry := by
  obtain ⟨actions, _, done⟩ := Option.bind_eq_some_iff.mp done
  obtain ⟨tables, loaded, done⟩ := Option.bind_eq_some_iff.mp done
  obtain ⟨state, _, done⟩ := Option.bind_eq_some_iff.mp done
  obtain ⟨⟨stages, gateways⟩, _, done⟩ := Option.bind_eq_some_iff.mp done
  cases done
  exact ⟨actions, tables, loaded, declared_setupStages _ _⟩

theorem processorDoc_parts {ipsa : Ipsa} {processor : Processor} {doc : ProcessorDoc}
    (made : ipsa.processorDoc processor = some doc) :
    processor.matcher.mapM ipsa.tables.lookupId = some doc.matcher ∧
      processor.executor.mapM ipsa.actions.lookupId = some doc.executor := by
  obtain ⟨_, _, made⟩ := Option.bind_eq_some_iff.mp made
  obtain ⟨_, _, made⟩ := Option.bind_eq_some_iff.mp made
  obtain ⟨matcher, tables, made⟩ := Option.bind_eq_some_iff.mp made
  obtain ⟨executor, actions, made⟩ := Option.bind_eq_some_iff.mp made
  cases made
  exact ⟨tables, actions⟩

/-- The tables of an emitted processor are those of the builder. -/
theorem mem_tables_of_doc {ipsa : Ipsa} {docs : List (Option ProcessorDoc)}
    (written : ipsa.toIpsaValue = some docs) {index : Nat} {doc : ProcessorDoc}
    (here : docs[index]? = some (some doc)) {table : Table}
    (member : table ∈ doc.matcher) : ∃ name, (name, table) ∈ ipsa.tables := by
  obtain ⟨inside, _⟩ := List.getElem?_eq_some_iff.mp here
  have bound : index < ipsa.processors.length := length_of_mapM_some written ▸ inside
  have step := getElem_of_mapM_some written bound
  rw [here] at step
  cases source : ipsa.processors[index] with
  | none => simp [source] at step
  | some processor =>
      rw [source] at step
      obtain ⟨made, isDoc, same⟩ := Option.map_eq_some_iff.mp step
      cases same
      obtain ⟨looked, -⟩ := processorDoc_parts isDoc
      obtain ⟨position, bound, rfl⟩ := List.mem_iff_getElem.mp member
      have found := getElem_of_mapM_some looked (length_of_mapM_some looked ▸ bound)
      rw [List.getElem?_eq_getElem bound] at found
      exact (lookupId_entry found).2

/-! ### Processors and stages -/

/-- The tables and actions a document has from its stage, and the processors that take the place of
its targets. -/
structure StageDoc (program : Program) (memory : MemoryResult) (procProc : Int → Option Int) (stage : Stage)
    (doc : ProcessorDoc) : Prop where
  matcher : stage.tableId.mapM (memory.tables.reorderStages procProc).lookupId = some doc.matcher
  executor : (stage.actionProc.map Prod.fst).mapM program.actions.lookupId = some doc.executor
  renames : ∀ reference, ProcessorManager.ValidRef
    (liveStages program.stages.logicalStages).length reference →
    ∃ number, procProc reference = some number ∧ Renamed memory.physicalProcId reference number

/-- An emitted table differs from the table of the memory pass in the numbers of processors only. -/
def EmittedAs (source table : Table) : Prop :=
  ∃ procId, ∃ rename : Int → Int, table = { source with
    procId, actionToProc := source.actionToProc.map fun pair => (pair.1, rename pair.2) }

section

variable {program : Program} {distribution : DistributionResult} {memory : MemoryResult}
  {docs : List (Option ProcessorDoc)}

theorem StageDoc.lookup_table {procProc : Int → Option Int} {stage : Stage} {doc : ProcessorDoc}
    (stageDoc : StageDoc program memory procProc stage doc) {table : Table} (member : table ∈ doc.matcher) :
    table.tableId ∈ stage.tableId ∧
      (memory.tables.reorderStages procProc).lookupId table.tableId = some table := by
  obtain ⟨tableId, listed, found⟩ := mem_of_mapM_some stageDoc.matcher member
  obtain ⟨rfl, _⟩ := lookupId_entry found
  exact ⟨listed, found⟩

theorem StageDoc.table_of_id {procProc : Int → Option Int} {stage : Stage} {doc : ProcessorDoc}
    (stageDoc : StageDoc program memory procProc stage doc) {tableId : Int}
    (listed : tableId ∈ stage.tableId) :
    ∃ table ∈ doc.matcher, ∃ source, memory.tables.lookupId tableId = some source ∧
      EmittedAs source table := by
  obtain ⟨position, inside, rfl⟩ := List.mem_iff_getElem.mp listed
  have step := getElem_of_mapM_some stageDoc.matcher inside
  rw [lookupId_reorder, List.getElem?_eq_getElem (length_of_mapM_some stageDoc.matcher ▸ inside)] at step
  obtain ⟨source, found, same⟩ := Option.map_eq_some_iff.mp step
  exact ⟨_, List.getElem_mem _, source, found, _, fun target => (procProc target).getD 0, same.symm⟩

theorem StageDoc.id_of_table {procProc : Int → Option Int} {stage : Stage} {doc : ProcessorDoc}
    (stageDoc : StageDoc program memory procProc stage doc) {table : Table} (member : table ∈ doc.matcher) :
    ∃ tableId ∈ stage.tableId, ∃ source, memory.tables.lookupId tableId = some source ∧
      EmittedAs source table := by
  obtain ⟨position, inside, rfl⟩ := List.mem_iff_getElem.mp member
  have bound : position < stage.tableId.length := length_of_mapM_some stageDoc.matcher ▸ inside
  have step := getElem_of_mapM_some stageDoc.matcher bound
  rw [lookupId_reorder, List.getElem?_eq_getElem inside] at step
  obtain ⟨source, found, same⟩ := Option.map_eq_some_iff.mp step
  exact ⟨_, List.getElem_mem bound, source, found, _, fun target => (procProc target).getD 0, same.symm⟩

private theorem renameOwn_parts (procProc : Int → Option Int) (processor : Processor) :
    (renameOwn procProc processor).matcher = processor.matcher ∧
      (renameOwn procProc processor).executor = processor.executor := by
  unfold renameOwn
  split <;> exact ⟨rfl, rfl⟩

private theorem emitted_parts {processors : Processors} {processor : Processor} {doc : ProcessorDoc}
    (made : (finalIpsa program memory processors).processorDoc (renameOwn (procProc processors) processor) =
      some doc) :
    processor.matcher.mapM (memory.tables.reorderStages (procProc processors)).lookupId = some doc.matcher ∧
      processor.executor.mapM program.actions.lookupId = some doc.executor := by
  obtain ⟨sameMatcher, sameExecutor⟩ := renameOwn_parts (procProc processors) processor
  have parts := processorDoc_parts made
  rw [sameMatcher, sameExecutor] at parts
  exact parts

theorem Emission.docs_length (emission : Emission program distribution memory docs) :
    docs.length = procCount := by
  obtain ⟨ipsa, allocated, written⟩ := Option.bind_eq_some_iff.mp emission.emitted
  obtain ⟨processors, build, allocated⟩ := Option.bind_eq_some_iff.mp allocated
  obtain ⟨extraId, built⟩ := buildProcessors_built emission.placed.length build
  have shape : finalIpsa program memory processors = ipsa := Option.some.inj allocated
  rw [length_of_mapM_some written, ← shape, finalIpsa, renameDefaults_processors, List.length_map]
  exact built.length

/-- A processor with tables or actions is the one of a stage. -/
theorem Emission.doc_cases (emission : Emission program distribution memory docs) {index : Nat}
    {doc : ProcessorDoc} (here : docs[index]? = some (some doc)) :
    doc.matcher = [] ∧ doc.executor = [] ∨
      ∃ stage ∈ liveStages program.stages.logicalStages, memory.physicalProcId[index]? = some stage.stageId ∧
        ∃ procProc, StageDoc program memory procProc stage doc := by
  obtain ⟨processors, extraId, built, written⟩ := emission.processors
  have inside : index < processors.length := by
    rw [built.length, ← emission.docs_length]
    exact (List.getElem?_eq_some_iff.mp here).1
  cases source : processors[index] with
  | none =>
      have absent := written index none (by rw [List.getElem?_eq_getElem inside, source])
      cases here.symm.trans absent
  | some processor =>
      have at_ : processors[index]? = some (some processor) := by rw [List.getElem?_eq_getElem inside, source]
      obtain ⟨doc', isDoc, made⟩ := written index _ at_
      cases here.symm.trans isDoc
      obtain ⟨tables, actions⟩ := emitted_parts made
      obtain ⟨stageId, placedAt, _, _, stage, levels, found, _, rfl⟩ | ⟨_, _, _, entry, own,
          noTables, noActions⟩ :=
        processor_cases emission.placed built at_
      · obtain ⟨live, rfl⟩ := lookupId_live found
        exact .inr ⟨stage, live, placedAt, _, tables, actions, fun _ => renamed_procProc emission built⟩
      · rw [noTables] at tables
        rw [noActions] at actions
        exact .inl ⟨(Option.some.inj tables).symm, (Option.some.inj actions).symm⟩

/-- The processor of a stage has the stage's tables and actions. -/
theorem Emission.doc_at (emission : Emission program distribution memory docs) {stage : Stage}
    (live : stage ∈ liveStages program.stages.logicalStages) {index : Nat}
    (at_ : memory.physicalProcId[index]? = some stage.stageId) :
    ∃ doc procProc, docs[index]? = some (some doc) ∧ StageDoc program memory procProc stage doc := by
  obtain ⟨processors, extraId, built, written⟩ := emission.processors
  obtain ⟨nonneg, _⟩ := stageId_placed emission (List.mem_map_of_mem live)
  have inside : index < procCount := emission.placed.length ▸ (List.getElem?_eq_some_iff.mp at_).1
  obtain ⟨found, levels, looked, _, here⟩ := built.stages index inside stage.stageId at_ nonneg
  rw [lookupId_of_live emission.loaded live] at looked
  cases looked
  obtain ⟨doc, isDoc, made⟩ := written index _ here
  obtain ⟨tables, actions⟩ := emitted_parts made
  exact ⟨doc, _, isDoc, tables, actions, fun _ => renamed_procProc emission built⟩

/-- What holds of all emitted tables is what holds of the tables of the stages. -/
theorem Emission.forall_tables_iff (emission : Emission program distribution memory docs)
    {property : Table → Prop} (invariant : ∀ source table, EmittedAs source table →
      (property table ↔ property source)) :
    (∀ (index : Nat) doc, docs[index]? = some (some doc) → ∀ table ∈ doc.matcher, property table) ↔
      ∀ stage ∈ liveStages program.stages.logicalStages, ∀ tableId ∈ stage.tableId, ∀ source,
        memory.tables.lookupId tableId = some source → property source := by
  constructor
  · intro all stage live tableId listed source found
    obtain ⟨_, index, at_⟩ := stageId_placed emission (List.mem_map_of_mem live)
    obtain ⟨doc, procProc, here, stageDoc⟩ := emission.doc_at live at_
    obtain ⟨table, member, other, same, emitted⟩ := stageDoc.table_of_id listed
    cases found.symm.trans same
    exact (invariant source table emitted).mp (all index doc here table member)
  · intro all index doc here table member
    rcases emission.doc_cases here with ⟨noTables, -⟩ | ⟨stage, live, -, procProc, stageDoc⟩
    · simp [noTables] at member
    · obtain ⟨tableId, listed, source, found, emitted⟩ := stageDoc.id_of_table member
      exact (invariant source table emitted).mpr (all stage live tableId listed source found)

theorem lookupId_action {actions : ActionManager} {actionId : Int} {action : Action}
    (found : actions.lookupId actionId = some action) : action.id = actionId := by
  obtain ⟨entry, first, rfl⟩ := Option.map_eq_some_iff.mp found
  simpa using List.find?_some first

theorem StageDoc.lookup_action {procProc : Int → Option Int} {stage : Stage} {doc : ProcessorDoc}
    (stageDoc : StageDoc program memory procProc stage doc) {action : Action}
    (member : action ∈ doc.executor) :
    program.actions.lookupId action.id = some action := by
  obtain ⟨actionId, _, found⟩ := mem_of_mapM_some stageDoc.executor member
  exact lookupId_action found ▸ found

theorem StageDoc.executor_ids {procProc : Int → Option Int} {stage : Stage} {doc : ProcessorDoc}
    (stageDoc : StageDoc program memory procProc stage doc) :
    doc.executor.map Action.id = stage.actionProc.map Prod.fst := by
  have looked := stageDoc.executor
  refine List.ext_getElem (by simp [← length_of_mapM_some looked]) fun position low high => ?_
  have step := getElem_of_mapM_some looked high
  rw [List.getElem?_eq_getElem (by simpa using low)] at step
  rw [List.getElem_map, lookupId_action step]

/-- The numbers of the emitted actions are those the stages list. -/
theorem Emission.forall_actions_iff (emission : Emission program distribution memory docs)
    (property : Int → Prop) : (∀ (index : Nat) doc, docs[index]? = some (some doc) →
      ∀ action ∈ doc.executor, property action.id) ↔
      ∀ stage ∈ liveStages program.stages.logicalStages, ∀ pair ∈ stage.actionProc, property pair.1 := by
  constructor
  · intro all stage live pair listed
    obtain ⟨_, index, at_⟩ := stageId_placed emission (List.mem_map_of_mem live)
    obtain ⟨doc, procProc, here, stageDoc⟩ := emission.doc_at live at_
    have number : pair.1 ∈ doc.executor.map Action.id := stageDoc.executor_ids ▸ List.mem_map_of_mem listed
    obtain ⟨action, member, same⟩ := List.mem_map.mp number
    exact same ▸ all index doc here action member
  · intro all index doc here action member
    rcases emission.doc_cases here with ⟨-, noActions⟩ | ⟨stage, live, -, procProc, stageDoc⟩
    · simp [noActions] at member
    · have number : action.id ∈ stage.actionProc.map Prod.fst :=
        stageDoc.executor_ids ▸ List.mem_map_of_mem member
      obtain ⟨pair, listed, same⟩ := List.mem_map.mp number
      exact same ▸ all stage live pair listed

end

/-- A compile that prints no error: every pass succeeds and every stage finds room. -/
structure Compiled (headers : HeaderLookup) (getHeader : String → Option Int)
    (sort : (Int → Int → Bool) → List Int → List Int) (levels : List Level) (ast : Ast) (program : Program)
    (distribution : DistributionResult) (memory : MemoryResult)
    (docs : List (Option ProcessorDoc)) : Prop where
  done : load headers levels ast = some program
  distributed : distributeParsers sort getHeader levels program.stages.logicalStages = some distribution
  allocation : allocateMemory program.tables program.stages.logicalStages distribution.topoSequence =
    some memory
  placed : ∀ stage ∈ liveStages program.stages.logicalStages, stage.stageId ∈ memory.physicalProcId
  emitted : (allocateProcessors program distribution memory).bind Ipsa.toIpsaValue = some docs

section

variable {headers : HeaderLookup} {getHeader : String → Option Int}
  {sort : (Int → Int → Bool) → List Int → List Int} {levels : List Level} {ast : Ast} {program : Program}
  {distribution : DistributionResult} {memory : MemoryResult} {docs : List (Option ProcessorDoc)}

theorem Compiled.allocated
    (compiled : Compiled headers getHeader sort levels ast program distribution memory docs) :
    ∃ space, tableSpace program.tables = some space ∧
      Allocated program distribution.topoSequence space memory := by
  have loaded := load_loaded compiled.done
  obtain ⟨_, nodup, _⟩ := distributeParsers_order loaded compiled.distributed
  obtain ⟨space, spaces, _⟩ := Option.bind_eq_some_iff.mp compiled.allocation
  have keyed : ∀ entry ∈ program.tables, entry.2.noTable = false := fun entry member =>
    (loaded.memories entry member).space.mp
      (Option.isSome_of_eq_some (tableSpace_known loaded.tableIds spaces entry member))
  obtain ⟨memory', same, allocated⟩ := allocateMemory_allocated loaded nodup keyed
  cases compiled.allocation.symm.trans same
  exact allocated

theorem Compiled.emission
    (compiled : Compiled headers getHeader sort levels ast program distribution memory docs) :
    Emission program distribution memory docs := by
  obtain ⟨space, _, allocated⟩ := compiled.allocated
  have order := (distributeParsers_order (load_loaded compiled.done) compiled.distributed).2.2
  exact emission_of_passes compiled.done compiled.distributed (allocated.isPlaced order compiled.placed)
    allocated.targets compiled.emitted

/-- The memory pass changes the blocks of the tables only. -/
theorem Compiled.lookupId_memory
    (compiled : Compiled headers getHeader sort levels ast program distribution memory docs) (tableId : Int) :
    (memory.tables.lookupId tableId).map Table.blank = (program.tables.lookupId tableId).map Table.blank := by
  have lookup : ∀ tables : TableManager, (tables.lookupId tableId).map Table.blank =
      TableManager.lookupId (tables.map blankEntry) tableId := by
    intro tables
    unfold TableManager.lookupId
    rw [List.find?_map, Option.map_map, Option.map_map]
    rfl
  obtain ⟨space, _, allocated⟩ := compiled.allocated
  obtain ⟨spaces, configured⟩ := allocated.configured
  rw [lookup, lookup, configured.tables]

end

end Ipbm.Compiler
