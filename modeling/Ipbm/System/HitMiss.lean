import Ipbm.Compiler.Compilation
import Ipbm.Compiler.Declarations
import Ipbm.Compiler.EliminationRuns
import Ipbm.Compiler.P4HitMiss
import Ipbm.Controller.PushedProcessor
import Ipbm.Dataplane.Lookup

/-! Hits and misses of a P4 table, from the translator over the compiler and the push to the
processors. Single-action stages are removed on the way, so a processor may execute what is
assigned on the way behind an action, and go on to the stage behind. -/

set_option autoImplicit false

namespace Ipbm.System
open Lib Compiler Compiler.P4r Controller ProcessorManager Builder Distribution Memory

/-- A P4 program that is printed, compiled and pushed to a switch. -/
structure Deployment (program : P4Program) (surroundings : P4Surroundings) where
  headers : HeaderLookup
  getHeader : String → Option Int
  sort : (Int → Int → Bool) → List Int → List Int
  levels : List Level
  metadata : List MetadataEntry
  ast : Ast
  actions : ActionManager
  loaded : Program
  distribution : DistributionResult
  memory : MemoryResult
  docs : List (Option ProcessorDoc)
  requests : List Dataplane.Request
  pipeline : Dataplane.Pipeline
  printed : (emitted program).printAst surroundings = some ast
  declared : ActionManager.load headers ast = some actions
  compiled : Compiled headers getHeader sort levels ast loaded distribution memory docs
  sent : InitDataplane.extract docs metadata = some requests
  pushed : Dataplane.Pipeline.fresh.configure requests = some pipeline

namespace Deployment

variable {program : P4Program} {surroundings : P4Surroundings} (deployment : Deployment program surroundings)

/-- The declared stages. -/
def state : StageState := ⟨StageManager.load deployment.ast, deployment.actions⟩

/-- The place of a successor among the declared stages. -/
def place (name : String) : Int :=
  stageIdOf (StageManager.load deployment.ast) ((emitted program).entryStage name)

/-- A processor holds the stage of a place, or both are behind the end. -/
def Arrives (place next : Int) : Prop :=
  ∃ number, deployment.loaded.Numbers place number ∧ Renamed deployment.memory.physicalProcId number next

/-- If a lookup selects the action id, the processor executes some primitives and goes on where the
declared stages go on from a successor: what it executes more, it would on its way there. -/
def Continues (doc : ProcessorDoc) (processor : Dataplane.Processor) (matcherId actionId : Int)
    (primitives : List Assign) (successor : Int) : Prop :=
  ∃ action ∈ doc.executor, action.id = actionId ∧ ∃ slot next, extractAction action = some slot ∧
    processor.afterLookup matcherId actionId = some (slot, next) ∧ ∃ extra arrival rest ending,
      action.primitives = primitives ++ extra ∧ deployment.Arrives arrival next ∧
        Through deployment.state arrival rest ending ∧
        Through deployment.state successor (extra ++ rest) ending

/-- Where a processor looks up in the table, the action of an entry and the successor of a hit
follow on a hit, and the default action and the successor of a miss on a miss. -/
def FlowKept (table : P4Table) (hit miss : String) : Prop :=
  ∀ (index : Nat) doc, deployment.docs[index]? = some (some doc) → ∀ compiled ∈ doc.matcher,
    (deployment.loaded.tables.lookupName ((emitted program).tableText table.name)).map Table.tableId =
        some compiled.tableId →
      ∃ processor thread, deployment.pipeline.procs[index]? = some processor ∧
        processor.matcher.thread compiled.id = some thread ∧
          (∀ action ∈ program.actions, action.id ∈ table.actionIds → ∃ own,
            deployment.actions.lookupName ((emitted program).actionText action.name action.id) = some own ∧
              deployment.Continues doc processor compiled.id own.id own.primitives (deployment.place hit)) ∧
          ∀ action ∈ program.actions, action.id = table.defaultActionId → ∃ own,
            deployment.actions.lookupName ((emitted program).actionText action.name action.id) = some own ∧
              deployment.Continues doc processor compiled.id thread.missActId own.primitives
                (deployment.place miss)

/-- From both places the same is assigned on the way to where they meet. -/
def LeadAlike (first second : Int) : Prop :=
  ∃ assigned meeting, Through deployment.state first assigned meeting ∧
    Through deployment.state second assigned meeting

/-- The default action does nothing, and whatever stage runs the table also runs another table that
lists every action of the table by name, the last time with a successor that leads on like the
successor of a hit. -/
structure ListedElsewhere (table : P4Table) (hit : String) : Prop where
  default : (∃ stage ∈ p4Stages program surroundings, runsTable table stage = true) →
    ∀ action ∈ program.actions, action.id = table.defaultActionId → action.expressions = []
  entries : ∀ action ∈ program.actions, action.id ∈ table.actionIds →
    ∀ stage ∈ p4Stages program surroundings, runsTable table stage = true →
      ∃ item ∈ listing stage, refersTo action item = true
  last : ∀ action ∈ program.actions, action.id ∈ table.actionIds → ∀ item, lastWhere (refersTo action)
      (((p4Stages program surroundings).filter (runsTable table)).flatMap listing) = some item →
    deployment.LeadAlike (deployment.place item.2.2) (deployment.place hit)

/-- The tables of one processor have matchers of their own. -/
def MatchersApart : Prop :=
  ∀ doc, some doc ∈ deployment.docs → ∀ first ∈ doc.matcher, ∀ second ∈ doc.matcher, first.id = second.id →
    first.tableId = second.tableId

/-- The action and the place that an executor entry stands for. -/
def pairOf (item : P4Table × String × String) : Int × Int :=
  actionProcEntry deployment.state ((emitted program).executorEntry item.1 item.2)

/-! ### The declared program -/

section

variable (denote : NamesDenote (emitted program) program.hitMissActions)
include denote

theorem names : NamesDistinct deployment.ast := denote.namesDistinct deployment.printed

/-- The compiler's action for each printed one. -/
theorem own_actions : ∃ own : P4Action → Compiler.Action, ∀ action ∈ (emitted program).actions,
    deployment.actions.lookupName ((emitted program).actionText action.name action.id) = some (own action) ∧
      deployment.actions.primitives (own action).id = (own action).primitives ∧
      ((own action).primitives = [] ↔ action.expressions = []) ∧
      ∀ other ∈ (emitted program).actions, (own action).id = (own other).id → action = other := by
  obtain ⟨actions, _, _⟩ := printAst_some deployment.printed
  have names := (deployment.names denote).actions
  have made := ActionManager.load_madeOf names deployment.declared
  rw [actions] at names made
  have each : ∀ action, ∃ own : Compiler.Action, action ∈ (emitted program).actions →
      deployment.actions.lookupName ((emitted program).actionText action.name action.id) = some own ∧
        ((emitted program).printAction action).expressions.mapM
            (ActionManager.assign deployment.headers ((emitted program).printAction action)) =
              some own.primitives ∧
          ∃ index : Nat, (emitted program).actions[index]? = some action ∧ own.id = index := by
    intro action
    by_cases member : action ∈ (emitted program).actions
    · obtain ⟨index, here⟩ := List.mem_iff_getElem?.mp member
      have listed : ((emitted program).actions.map (emitted program).printAction)[index]? =
          some ((emitted program).printAction action) := by rw [List.getElem?_map, here, Option.map_some]
      obtain ⟨own, found, id, assigned⟩ := made.lookup names listed
      exact ⟨own, fun _ => ⟨found, assigned, index, here, id⟩⟩
    · exact ⟨⟨0, 0, [], []⟩, fun inside => absurd inside member⟩
  choose own each using each
  refine ⟨own, fun action member => ?_⟩
  obtain ⟨found, assigned, index, here, id⟩ := each action member
  refine ⟨found, ?_, ?_, ?_⟩
  · rw [ActionManager.primitives, ActionManager.lookupId_of_lookupName made.unique found]
    rfl
  · have length := length_of_mapM_some assigned
    rw [← List.length_eq_zero_iff, length, List.length_eq_zero_iff]
    rfl
  · intro other isOther same
    obtain ⟨_, _, position, there, otherId⟩ := each other isOther
    obtain rfl : index = position := by omega
    exact Option.some.inj (here.symm.trans there)

/-- The declared stages are the printed ones. -/
theorem declared_stages : deployment.state.stages.logicalStages =
    ((p4Stages program surroundings).map ((emitted program).printStage surroundings)).mapIdx
      fun index definition =>
      { stageId := index, definition } := by
  rw [state, StageManager.load_declared (deployment.names denote).stages,
    (printAst_some deployment.printed).2.2]
  rfl

theorem filled_length : (fillActionProc deployment.state).stages.logicalStages.length =
    (p4Stages program surroundings).length := by
  rw [length_filled, deployment.declared_stages denote, List.length_mapIdx, List.length_map]

theorem filled_stages {position : Nat} {source : P4Stage}
    (here : (p4Stages program surroundings)[position]? = some source) :
    (fillActionProc deployment.state).stages.logicalStages[position]? = some
      { stageId := position, definition := (emitted program).printStage surroundings source
        actionProc := (listing source).map deployment.pairOf } := by
  rw [fillActionProc, List.getElem?_map, deployment.declared_stages denote, List.getElem?_mapIdx,
    List.getElem?_map, here]
  simp only [Option.map_some, P4Program.printStage, listing, List.map_flatMap, List.map_map]
  rfl

/-- A successor is behind the end, or the place of the stage with its name. -/
theorem place_node (wellFormed : WellFormedNodes program) {name : String}
    (isNode : name = "" ∨ name ∈ (emitted program).stageNodes) :
    name = "" ∧ deployment.place name = -1 ∨ ∃ (position : Nat) (stage : P4Stage),
      (p4Stages program surroundings)[position]? = some stage ∧ stage.name = name ∧
        deployment.place name = position := by
  have unique := (deployment.names denote).stages
  have texts := printAst_stages deployment.printed
  have stages : (deployment.ast.ingress ++ deployment.ast.egress).map StageDef.name =
      (p4Stages program surroundings).map fun stage => (emitted program).stageText stage.name := by
    rw [(printAst_some deployment.printed).2.2, List.map_map]
    rfl
  unfold place P4Program.entryStage
  rw [stageIdOf_declared unique]
  by_cases empty : name = ""
  · have missing : "None" ∉ (deployment.ast.ingress ++ deployment.ast.egress).map StageDef.name := by
      intro member
      obtain ⟨other, isOther, same⟩ := List.mem_map.mp (texts.mem_iff.mp member)
      exact wellFormed.keyword other isOther same
    refine .inl ⟨empty, ?_⟩
    rw [if_pos empty, List.idxOf?_eq_none_iff.mpr missing]
    rfl
  · have member := isNode.resolve_left empty
    rw [if_neg empty]
    have listed := texts.mem_iff.mpr (List.mem_map_of_mem (f := (emitted program).stageText) member)
    obtain ⟨position, found⟩ := Option.isSome_iff_exists.mp (List.isSome_idxOf?.mpr listed)
    obtain ⟨inside, here, _⟩ := List.idxOf?_eq_some_iff.mp found
    have there : ((p4Stages program surroundings).map fun stage =>
      (emitted program).stageText stage.name)[position]? =
        some ((emitted program).stageText name) := by
      rw [← stages, List.getElem?_eq_getElem inside, here]
    rw [List.getElem?_map] at there
    obtain ⟨stage, isStage, text⟩ := Option.map_eq_some_iff.mp there
    refine .inr ⟨position, stage, isStage, ?_, by rw [found]; rfl⟩
    exact List.inj_on_of_nodup_map denote.stages (stage_node (List.mem_of_getElem? isStage)) member
      (String.ofList_injective text)

end

/-! ### The stages of a table -/

/-- The printed switch names a table where the stage runs it. -/
theorem printStage_runs (wellFormed : WellFormedNodes program)
    (denote : NamesDenote (emitted program) program.hitMissActions)
    {source : P4Stage} (isSource : source ∈ p4Stages program surroundings) {table : P4Table}
    (isTable : table ∈ (emitted program).tables) :
    .table ((emitted program).tableText table.name) ∈
        ((emitted program).printStage surroundings source).matcher.switchEntries.map SwitchEntry.value ↔
      runsTable table source = true := by
  obtain ⟨pipeline, inside, isStage⟩ := List.mem_flatMap.mp isSource
  rw [runsTable, decide_eq_true_eq]
  constructor
  · intro named
    obtain ⟨entry, isEntry, value⟩ := List.mem_map.mp named
    obtain ⟨before, isBefore, rfl⟩ := List.mem_map.mp isEntry
    cases branch : before.value with
    | table name =>
        have here : SwitchValue.table name ∈ source.switch.map SwitchEntry.value :=
          List.mem_map.mpr ⟨before, isBefore, branch⟩
        obtain ⟨other, isOther, rfl, _⟩ := switch_lists wellFormed inside isStage here
        simp only [branch, P4Program.translateValue, SwitchValue.table.injEq] at value
        have same := (table_eq denote (List.mem_flatMap.mpr ⟨pipeline, inside, isOther⟩) isTable).mp value
        exact same ▸ here
    | stage name => simp [branch, P4Program.translateValue] at value
    | none => simp [branch, P4Program.translateValue] at value
  · intro named
    obtain ⟨before, isBefore, value⟩ := List.mem_map.mp named
    refine List.mem_map.mpr ⟨_, List.mem_map_of_mem isBefore, ?_⟩
    simp only [value]
    rfl

/-- A loaded stage in the place of a P4 stage. If the P4 stage runs the table, it stays and keeps
its entries. -/
structure StageOf (next : Int × Int → Int) (index : Nat) (table : P4Table) (source : P4Stage)
    (stage : Stage) : Prop where
  tables : (index : Int) ∈ stage.tableId ↔ runsTable table source = true
  live : runsTable table source = true → stage.removed = false
  actionProc : runsTable table source = true →
    stage.actionProc = (listing source).map fun item =>
      ((deployment.pairOf item).1, next (deployment.pairOf item))
  staying : runsTable table source = true → ∀ item ∈ listing source,
    deployment.pairOf item ∈ stayingEntries deployment.state deployment.state.stages.logicalStages.length

/-- No stage that runs a keyed table is removed. -/
theorem keyed_stays (wellFormed : WellFormedNodes program)
    (denote : NamesDenote (emitted program) program.hitMissActions)
    {table printed : P4Table} {hit miss : String} {missAction : P4Action}
    (keyed : Keyed program table printed hit miss missAction) {position : Nat} {source : P4Stage}
    (here : (p4Stages program surroundings)[position]? = some source)
    (runs : runsTable printed source = true) :
    position ∉ removedStages deployment.state := by
  intro removed
  obtain ⟨own, isSingle⟩ := removedBefore_single removed
  obtain ⟨stage, there, only⟩ := single_entries isSingle
  cases (deployment.filled_stages denote here).symm.trans there
  have long := keyed.listing_long wellFormed denote (List.mem_of_getElem? here) runs
  have short := congrArg List.length only
  rw [List.length_map, List.length_singleton] at short
  omega

theorem stages_become (wellFormed : WellFormedNodes program)
    (denote : NamesDenote (emitted program) program.hitMissActions)
    {table printed : P4Table} {hit miss : String} {missAction : P4Action}
    (keyed : Keyed program table printed hit miss missAction) {next : Int × Int → Int}
    (becomes : deployment.state.Becomes deployment.loaded next) {index : Nat} {loadedTable : Table}
    (declared : DeclaredTable deployment.actions deployment.loaded index
      ((emitted program).printTable surroundings printed) loadedTable) :
    List.Forall₂ (deployment.StageOf next index printed) (p4Stages program surroundings)
      deployment.loaded.stages.logicalStages := by
  have length := becomes.length.trans (length_filled.symm.trans (deployment.filled_length denote))
  refine List.forall₂_iff_get.mpr ⟨length.symm, fun position low high => ?_⟩
  have here : (p4Stages program surroundings)[position]? =
      some ((p4Stages program surroundings).get ⟨position, low⟩) :=
    List.getElem?_eq_getElem low
  have there := List.getElem?_eq_getElem high
  generalize (p4Stages program surroundings).get ⟨position, low⟩ = source at here
  have filled := deployment.filled_stages denote here
  have runs := declared.runs _ (List.getElem_mem high)
  by_cases removed : position ∈ removedStages deployment.state
  · obtain ⟨final, isFinal, _, other, otherRemoved, stage, isStage, definition⟩ :=
      becomes.gone position removed
    cases there.symm.trans isFinal
    have inside := (List.getElem?_eq_some_iff.mp isStage).1
    rw [deployment.declared_stages denote, List.length_mapIdx, List.length_map] at inside
    have otherHere := List.getElem?_eq_getElem inside
    have otherStage := isStage
    rw [deployment.declared_stages denote, List.getElem?_mapIdx, List.getElem?_map, otherHere] at otherStage
    rw [definition, ← Option.some.inj otherStage] at runs
    have absent : ¬runsTable printed source = true :=
      fun isRun => deployment.keyed_stays wellFormed denote keyed here isRun removed
    refine ⟨?_, fun isRun => absurd isRun absent, fun isRun => absurd isRun absent,
      fun isRun => absurd isRun absent⟩
    refine iff_of_false (fun listed => ?_) absent
    have isRun :=
      (printStage_runs wellFormed denote (List.mem_of_getElem? otherHere) keyed.inTables).mp (runs.mp listed)
    exact deployment.keyed_stays wellFormed denote keyed otherHere isRun otherRemoved
  · obtain ⟨final, isFinal, live, definition, actionProc⟩ := becomes.stays position _ filled removed
    cases there.symm.trans isFinal
    rw [definition] at runs
    refine ⟨runs.trans (printStage_runs wellFormed denote (List.mem_of_getElem? here) keyed.inTables),
      fun _ => live, ?_, ?_⟩
    · intro _
      rw [List.get_eq_getElem, actionProc, List.map_map]
      rfl
    · intro _ item listed
      exact mem_stayingEntries.mpr ⟨position, _, filled, removed, List.mem_map_of_mem listed⟩

/-- The targets of a table: the last listing of an action counts. -/
theorem lastWhere_targets {next : Int × Int → Int} {index : Nat} {table : P4Table} {sources : List P4Stage}
    {stages : List Stage} (become : List.Forall₂ (deployment.StageOf next index table) sources stages)
    (actionId : Int) :
    lastWhere (fun pair => pair.1 = actionId) (targets stages index) =
      (lastWhere (fun item => (deployment.pairOf item).1 = actionId)
        ((sources.filter (runsTable table)).flatMap listing)).map fun item =>
          ((deployment.pairOf item).1, next (deployment.pairOf item)) := by
  have blocks : ((stages.filter fun stage => !(stage.tableId.filter (· = (index : Int))).isEmpty).flatMap
      Stage.actionProc) = ((sources.filter (runsTable table)).flatMap listing).map fun item =>
        ((deployment.pairOf item).1, next (deployment.pairOf item)) := by
    induction become with
    | nil => rfl
    | @cons source stage sources stages here _ ih =>
        have same : (!(stage.tableId.filter (· = (index : Int))).isEmpty) = runsTable table source := by
          rw [Bool.eq_iff_iff, ← here.tables, Bool.not_eq_true', List.isEmpty_eq_false_iff_exists_mem]
          constructor
          · rintro ⟨id, member⟩
            obtain ⟨member, isId⟩ := List.mem_filter.mp member
            exact of_decide_eq_true isId ▸ member
          · exact fun member => ⟨index, List.mem_filter.mpr ⟨member, by simp⟩⟩
        rw [List.filter_cons, List.filter_cons, same]
        split
        · next runs => rw [List.flatMap_cons, List.flatMap_cons, List.map_append, here.actionProc runs, ih]
        · exact ih
  rw [targets, lastWhere_blocks, blocks, lastWhere_map]

/-! ### One processor -/

/-- The last listing of an action in the stages that run the table. -/
def lastListing (table : P4Table) (actionId : Int) : Option (P4Table × String × String) :=
  lastWhere (fun item => (deployment.pairOf item).1 = actionId)
    (((p4Stages program surroundings).filter (runsTable table)).flatMap listing)

/-- The processor of a stage that runs the table looks up in it: it has the actions that the stage
lists, as they are loaded, and goes on to the stage that the last listing of an action leads to. -/
structure Site (next : Int × Int → Int) (table : P4Table) (missId : Int) (source : P4Stage)
    (doc : ProcessorDoc) (processor : Dataplane.Processor) (matcherId : Int) : Prop where
  miss : ∃ thread, processor.matcher.thread matcherId = some thread ∧ thread.missActId = missId
  listed : ∀ action ∈ doc.executor, (∃ item ∈ listing source, (deployment.pairOf item).1 = action.id) ∧
    action.primitives = deployment.loaded.actions.primitives action.id
  selects : ∀ item ∈ listing source, ∀ last,
      deployment.lastListing table (deployment.pairOf item).1 = some last →
    ∃ action ∈ doc.executor, action.id = (deployment.pairOf item).1 ∧
      ∃ slot nextProc, extractAction action = some slot ∧
      processor.afterLookup matcherId (deployment.pairOf item).1 = some (slot, nextProc) ∧
        Renamed deployment.memory.physicalProcId (next (deployment.pairOf last)) nextProc

/-- The table in a document is the loaded one, but for where its targets are placed. -/
theorem compiled_table {procProc : Int → Option Int} {stage : Stage} {doc : ProcessorDoc}
    (stageDoc : StageDoc deployment.loaded deployment.memory procProc stage doc) {compiled : Table}
    (member : compiled ∈ doc.matcher) {name : String} {loadedTable : Table}
    (found : deployment.loaded.tables.lookupName name = some loadedTable)
    (number : loadedTable.tableId = compiled.tableId) : compiled.missActionId = loadedTable.missActionId ∧
      compiled.actionToProc = loadedTable.actionToProc.map fun pair => (pair.1,
        (procProc pair.2).getD 0) := by
  obtain ⟨_, looked⟩ := stageDoc.lookup_table member
  rw [lookupId_reorder] at looked
  obtain ⟨source, isSource, same⟩ := Option.map_eq_some_iff.mp looked
  have loadedId :=
    Memory.lookupId_of_mem (load_loaded deployment.compiled.done).tableIds (lookupName_mem found)
  have blank := deployment.compiled.lookupId_memory compiled.tableId
  rw [isSource, ← number, loadedId, Option.map_some, Option.map_some] at blank
  have blank := Option.some.inj blank
  have miss : source.missActionId = loadedTable.missActionId := (congrArg Table.missActionId blank :)
  have leads : source.actionToProc = loadedTable.actionToProc := (congrArg Table.actionToProc blank :)
  rw [← same, ← miss, ← leads]
  exact ⟨rfl, rfl⟩

theorem site {next : Int × Int → Int} {index : Nat} {table : P4Table} {source : P4Stage} {stage : Stage}
    (become : List.Forall₂ (deployment.StageOf next index table) (p4Stages program surroundings)
      deployment.loaded.stages.logicalStages)
    {tableDef : TableDef} {loadedTable : Table}
    (declared : DeclaredTable deployment.actions deployment.loaded index tableDef loadedTable)
    (live : stage ∈ liveStages deployment.loaded.stages.logicalStages)
    (stageOf : deployment.StageOf next index table source stage)
    (apart : deployment.MatchersApart) {procProc : Int → Option Int} {docIndex : Nat} {doc : ProcessorDoc}
    (here : deployment.docs[docIndex]? = some (some doc))
    (stageDoc : StageDoc deployment.loaded deployment.memory procProc stage doc) {compiled : Table}
    (member : compiled ∈ doc.matcher) (number : compiled.tableId = index) :
    ∃ processor, deployment.pipeline.procs[docIndex]? = some processor ∧
      deployment.Site next table loadedTable.missActionId source doc processor compiled.id := by
  have loaded := load_loaded deployment.compiled.done
  have runs : runsTable table source = true := stageOf.tables.mp (number ▸ (stageDoc.lookup_table member).1)
  obtain ⟨miss, leads⟩ :=
    deployment.compiled_table stageDoc member declared.found (declared.number.trans number.symm)
  have pushes := configure_pushes deployment.sent rfl deployment.pushed
  obtain ⟨calls, _, processor, asked, _, pushed, there⟩ := pushes.pushed docIndex doc here
  have installed := push_installed asked pushed
  have ownTable : ∀ other ∈ doc.matcher, other.id = compiled.id → other = compiled := by
    intro other isOther same
    have tableIds := apart doc (List.mem_of_getElem? here) other isOther compiled member same
    have looked := (stageDoc.lookup_table isOther).2
    rw [tableIds, (stageDoc.lookup_table member).2] at looked
    exact (Option.some.inj looked).symm
  obtain ⟨thread, isThread, configured⟩ := installed.threads compiled member ownTable
  have ownAction : ∀ action ∈ doc.executor, ∀ other ∈ doc.executor, other.id = action.id →
      other = action := by
    intro action isAction other isOther same
    have looked := stageDoc.lookup_action isOther
    rw [same, stageDoc.lookup_action isAction] at looked
    exact (Option.some.inj looked).symm
  have ids : doc.executor.map Compiler.Action.id = (listing source).map fun item =>
      (deployment.pairOf item).1 := by
    rw [stageDoc.executor_ids, stageOf.actionProc runs, List.map_map]
    rfl
  refine ⟨processor, there, ⟨thread, isThread, configured.miss.trans miss⟩, ?_, ?_⟩
  · intro action isAction
    have isId : action.id ∈ doc.executor.map Compiler.Action.id := List.mem_map_of_mem isAction
    rw [ids] at isId
    obtain ⟨item, listed, same⟩ := List.mem_map.mp isId
    refine ⟨⟨item, listed, same⟩, ?_⟩
    rw [ActionManager.primitives, stageDoc.lookup_action isAction]
    rfl
  · intro item listed last isLast
    have isId : (deployment.pairOf item).1 ∈ doc.executor.map Compiler.Action.id :=
      ids ▸ List.mem_map_of_mem listed
    obtain ⟨action, isAction, same⟩ := List.mem_map.mp isId
    obtain ⟨nonneg, slot, isSlot, inSlot⟩ := installed.slots action isAction (ownAction action isAction)
    have lastTarget : lastWhere (fun pair => pair.1 = action.id) loadedTable.actionToProc =
        some ((deployment.pairOf last).1, next (deployment.pairOf last)) := by
      rw [declared.leads, deployment.lastWhere_targets become, same]
      exact congrArg (Option.map _) isLast
    have positive : 0 < (liveStages deployment.loaded.stages.logicalStages).length :=
      List.length_pos_of_mem live
    have valid := loaded.tableRefs positive _ (lookupName_mem declared.found) _ (lastWhere_some lastTarget).1
    obtain ⟨nextProc, isNext, renamed⟩ := stageDoc.renames _ valid
    have goes : thread.nextProc action.id = nextProc := by
      rw [Dataplane.MatcherThread.nextProc, configured.leads, leads, lastWhere_map]
      simp only [lastTarget, Option.map_some, isNext, Option.getD_some]
    refine ⟨action, isAction, same, slot, nextProc, isSlot, ?_, renamed⟩
    rw [Dataplane.Processor.afterLookup, isThread, Option.bind_eq_bind, Option.bind_some, ← same,
      if_neg (by omega), inSlot, Option.bind_eq_bind, Option.bind_some, goes]
    rfl

/-- What the processor does for an action follows from its last listing. -/
theorem Site.continues_iff {next : Int × Int → Int} {table : P4Table} {missId matcherId : Int}
    {source : P4Stage} {doc : ProcessorDoc} {processor : Dataplane.Processor}
    (site : deployment.Site next table missId source doc processor matcherId)
    (isSource : source ∈ p4Stages program surroundings)
    (runs : runsTable table source = true) {actionId successor : Int} {primitives : List Assign} :
    deployment.Continues doc processor matcherId actionId primitives successor ↔
      (∃ item ∈ listing source, (deployment.pairOf item).1 = actionId) ∧
        ∀ last, deployment.lastListing table actionId = some last → ∃ extra arrival rest ending,
          deployment.loaded.actions.primitives actionId = primitives ++ extra ∧
            deployment.loaded.Numbers arrival (next (deployment.pairOf last)) ∧
              Through deployment.state arrival rest ending ∧
              Through deployment.state successor (extra ++ rest) ending := by
  constructor
  · rintro ⟨action, isAction, rfl, slot, nextProc, _, selected, extra, arrival, rest, ending, does,
      arrives, way, same⟩
    obtain ⟨⟨item, listed, isItem⟩, loadedPrimitives⟩ := site.listed action isAction
    refine ⟨⟨item, listed, isItem⟩, fun last isLast => ?_⟩
    obtain ⟨_, _, _, slot', nextProc', _, selected', renamed⟩ :=
      site.selects item listed last (isItem ▸ isLast)
    rw [isItem, selected] at selected'
    cases selected'
    obtain ⟨number, isNumber, alsoRenamed⟩ := arrives
    refine ⟨extra, arrival, rest, ending, loadedPrimitives ▸ does, ?_, way, same⟩
    rcases renamed with ⟨ends, rfl⟩ | ⟨_, nonneg, here⟩
    · rcases alsoRenamed with ⟨rfl, _⟩ | ⟨_, nonneg, _⟩
      · rwa [ends]
      · omega
    · rcases alsoRenamed with ⟨_, rfl⟩ | ⟨_, _, there⟩
      · omega
      · rwa [Option.some.inj (here.symm.trans there)]
  · rintro ⟨⟨item, listed, rfl⟩, leads⟩
    have inside : item ∈ ((p4Stages program surroundings).filter (runsTable table)).flatMap listing :=
      List.mem_flatMap.mpr ⟨source, List.mem_filter.mpr ⟨isSource, runs⟩, listed⟩
    obtain ⟨last, isLast⟩ : ∃ last, deployment.lastListing table (deployment.pairOf item).1 = some last :=
      lastWhere_isSome inside (decide_eq_true rfl)
    obtain ⟨extra, arrival, rest, ending, does, numbers, way, same⟩ := leads last isLast
    obtain ⟨action, isAction, isId, slot, nextProc, isSlot, selected, renamed⟩ :=
      site.selects item listed last isLast
    refine ⟨action, isAction, isId, slot, nextProc, isSlot, selected, extra, arrival, rest, ending,
      ?_, ?_, way, same⟩
    · rw [(site.listed action isAction).2, isId, does]
    · exact ⟨_, numbers, renamed⟩

/-! ### Actions and entries -/

/-- Where an entry leads: the id of the action it names, and the stage of its successor. -/
theorem pairOf_fst (wellFormed : WellFormedNodes program)
    (denote : NamesDenote (emitted program) program.hitMissActions)
    {stage : P4Stage} (isStage : stage ∈ p4Stages program surroundings) {item : P4Table × String × String}
    (listed : item ∈ listing stage) {action : P4Action} (member : action ∈ (emitted program).actions)
    {own : Compiler.Action}
    (found : deployment.actions.lookupName ((emitted program).actionText action.name action.id) = some own) :
    (deployment.pairOf item).1 = own.id ↔
      (emitted program).entryAction item.1 item.2.1 = (emitted program).actionText action.name action.id := by
  obtain ⟨owns, each⟩ := deployment.own_actions denote
  obtain ⟨pipeline, inside, isTable, leads⟩ := item_inside isStage listed
  obtain ⟨named, isNamed, text, _⟩ := item_action wellFormed denote inside isTable leads
  obtain ⟨ownFound, _⟩ := each action member
  cases found.symm.trans ownFound
  have first : (deployment.pairOf item).1 = (owns named).id := by
    change ((deployment.actions.lookupName ((emitted program).entryAction item.1 item.2.1)).map
      Compiler.Action.id).getD 0 = _
    rw [text, (each named isNamed).1]
    rfl
  rw [first]
  constructor
  · intro same
    rw [text, (each named isNamed).2.2.2 action member same]
  · intro same
    have equal := (each named isNamed).1
    rw [← text, same, ownFound] at equal
    rw [Option.some.inj equal]

theorem pairOf_refersTo (wellFormed : WellFormedNodes program)
    (denote : NamesDenote (emitted program) program.hitMissActions)
    {stage : P4Stage} (isStage : stage ∈ p4Stages program surroundings) {item : P4Table × String × String}
    (listed : item ∈ listing stage) {action : P4Action} (member : action ∈ program.actions)
    {own : Compiler.Action}
    (found : deployment.actions.lookupName ((emitted program).actionText action.name action.id) = some own) :
    (deployment.pairOf item).1 = own.id ↔ refersTo action item = true := by
  have isEmitted : action ∈ (emitted program).actions := List.mem_append_left _ member
  rw [deployment.pairOf_fst wellFormed denote isStage listed isEmitted found]
  obtain ⟨pipeline, inside, isTable, leads⟩ := item_inside isStage listed
  obtain ⟨named, isNamed, text, refers, _⟩ := item_action wellFormed denote inside isTable leads
  rw [refers action member, text]
  constructor
  · intro same
    exact List.inj_on_of_nodup_map denote.actions isNamed isEmitted (String.ofList_injective same)
  · rintro rfl
    rfl

/-- The loaded table of a keyed one misses with the synthetic action. -/
theorem keyed_declared (wellFormed : WellFormedNodes program)
    (denote : NamesDenote (emitted program) program.hitMissActions)
    {table printed : P4Table} {hit miss : String} {missAction : P4Action}
    (keyed : Keyed program table printed hit miss missAction) : ∃ (index : Nat) (loadedTable : Table),
      DeclaredTable deployment.actions deployment.loaded index
        ((emitted program).printTable surroundings printed) loadedTable ∧
        ∀ own, deployment.actions.lookupName
          ((emitted program).actionText missAction.name missAction.id) = some own →
          loadedTable.missActionId = own.id := by
  obtain ⟨index, here⟩ := List.mem_iff_getElem?.mp keyed.inTables
  have listed : deployment.ast.tables[index]? = some ((emitted program).printTable surroundings printed) := by
    rw [(printAst_some deployment.printed).2.1, List.getElem?_map, here, Option.map_some]
  obtain ⟨loadedTable, declared⟩ :=
    load_table (deployment.names denote) deployment.declared deployment.compiled.done listed
  refine ⟨index, loadedTable, declared, fun own isOwn => ?_⟩
  rw [declared.miss, P4Program.printTable, keyed.printDefault wellFormed]
  simp [TableManager.defaultActionId, isOwn]

/-- Single-action stages lead downwards. -/
theorem descends (wellFormed : WellFormedNodes program)
    (denote : NamesDenote (emitted program) program.hitMissActions) :
    ∃ rank : Int → Nat, ∀ (position : Nat) own, single deployment.state position = some own →
      rank own.2 < rank position := by
  obtain ⟨rank, below⟩ := @listing_descends program surroundings wellFormed
  let placeRank (place : Int) : Nat :=
    if place = -1 then rank "" else (((p4Stages program surroundings)[place.toNat]?).map fun stage =>
      rank stage.name).getD 0
  have stageRank {position : Nat} {stage : P4Stage}
    (here : (p4Stages program surroundings)[position]? = some stage) :
      placeRank position = rank stage.name := by
    have ordinary : (position : Int) ≠ -1 := by omega
    simp [placeRank, ordinary, here]
  refine ⟨placeRank, fun position own isSingle => ?_⟩
  obtain ⟨stage, there, only⟩ := single_entries isSingle
  have inside : position < (p4Stages program surroundings).length := by
    rw [← deployment.filled_length denote]
    exact (List.getElem?_eq_some_iff.mp there).1
  have here := List.getElem?_eq_getElem inside
  cases (deployment.filled_stages denote here).symm.trans there
  have isStage := List.getElem_mem inside
  obtain ⟨item, listed, rfl⟩ : ∃ item ∈ listing ((p4Stages program surroundings)[position]),
      deployment.pairOf item = own :=
    List.mem_map.mp (only ▸ List.mem_singleton_self own)
  have lower := below _ isStage item listed
  obtain ⟨pipeline, isPipeline, isTable, leads⟩ := item_inside isStage listed
  rw [stageRank here]
  change placeRank (deployment.place item.2.2) < _
  rcases deployment.place_node denote wellFormed (successor_node wellFormed isPipeline isTable leads) with
    ⟨empty, ending⟩ | ⟨other, successor, isOther, name, place⟩
  · rw [ending]
    simpa [placeRank, empty] using lower
  · rw [place, stageRank isOther, name]
    exact lower

/-! ### Hits and misses -/

section Selected

variable {next : Int × Int → Int} {table : P4Table} {missId matcherId : Int} {source : P4Stage}
  {doc : ProcessorDoc} {processor : Dataplane.Processor} {successor : Int}

/-- The action of an entry is continued as the successor of a hit is, if the last listing of it
leads alike. -/
theorem Site.hit_iff (site : deployment.Site next table missId source doc processor matcherId)
    (becomes : deployment.state.Becomes deployment.loaded next)
    (staying : ∀ stage ∈ p4Stages program surroundings, runsTable table stage = true → ∀ item ∈ listing stage,
      deployment.pairOf item ∈ stayingEntries deployment.state deployment.state.stages.logicalStages.length)
    (isSource : source ∈ p4Stages program surroundings) (runs : runsTable table source = true)
    {own : Compiler.Action} (primitives : deployment.actions.primitives own.id = own.primitives) :
    deployment.Continues doc processor matcherId own.id own.primitives successor ↔
      (∃ item ∈ listing source, (deployment.pairOf item).1 = own.id) ∧
        ∀ last, deployment.lastListing table own.id = some last →
          deployment.LeadAlike (deployment.pairOf last).2 successor := by
  rw [site.continues_iff deployment isSource runs]
  refine and_congr_right fun _ => forall_congr' fun last => forall_congr' fun isLast => ?_
  obtain ⟨isItem, isOwn⟩ := lastWhere_some isLast
  obtain ⟨stage, isStage, listed⟩ := List.mem_flatMap.mp isItem
  obtain ⟨isStage, alsoRuns⟩ := List.mem_filter.mp isStage
  obtain ⟨taken, arrival, loadedPrimitives, way, numbers⟩ :=
    becomes.entries _ (staying stage isStage alsoRuns last listed)
  rw [of_decide_eq_true isOwn] at loadedPrimitives
  have before : deployment.state.actions.primitives own.id = own.primitives := primitives
  rw [before] at loadedPrimitives
  constructor
  · rintro ⟨extra, other, rest, ending, does, alsoNumbers, onward, same⟩
    obtain rfl := (load_loaded deployment.compiled.done).numbers_inj numbers alsoNumbers
    obtain rfl : taken = extra := List.append_cancel_left (loadedPrimitives.symm.trans does)
    exact ⟨_, ending, way.append onward, same⟩
  · rintro ⟨assigned, meeting, one, two⟩
    rcases way.compare one with ⟨rest, onward, rfl⟩ | ⟨rest, onward, rfl⟩
    · exact ⟨taken, arrival, rest, meeting, loadedPrimitives, numbers, onward, two⟩
    · refine ⟨_, arrival, [], arrival, loadedPrimitives, numbers, .stop arrival, ?_⟩
      rw [List.append_nil]
      exact two.append onward

/-- On a miss nothing is executed but what the successor of a miss executes. -/
theorem Site.miss_iff (site : deployment.Site next table missId source doc processor matcherId)
    (becomes : deployment.state.Becomes deployment.loaded next)
    (staying : ∀ stage ∈ p4Stages program surroundings, runsTable table stage = true → ∀ item ∈ listing stage,
      deployment.pairOf item ∈ stayingEntries deployment.state deployment.state.stages.logicalStages.length)
    (isSource : source ∈ p4Stages program surroundings) (runs : runsTable table source = true)
    (wellFormed : WellFormedNodes program) (denote : NamesDenote (emitted program) program.hitMissActions)
    (idle : deployment.actions.primitives missId = [])
    (lists : ∃ item ∈ listing source, (deployment.pairOf item).1 = missId)
    (leads : ∀ last, deployment.lastListing table missId = some last → (deployment.pairOf last).2 = successor)
    (primitives : List Assign) :
    deployment.Continues doc processor matcherId missId primitives successor ↔ primitives = [] := by
  rw [site.continues_iff deployment isSource runs, and_iff_right lists]
  obtain ⟨item, isListed, isMiss⟩ := lists
  have inside : item ∈ ((p4Stages program surroundings).filter (runsTable table)).flatMap listing :=
    List.mem_flatMap.mpr ⟨source, List.mem_filter.mpr ⟨isSource, runs⟩, isListed⟩
  obtain ⟨last, isLast⟩ : ∃ last, deployment.lastListing table missId = some last :=
    lastWhere_isSome inside (decide_eq_true isMiss)
  obtain ⟨isItem, isOwn⟩ := lastWhere_some isLast
  obtain ⟨stage, isStage, listed⟩ := List.mem_flatMap.mp isItem
  obtain ⟨isStage, alsoRuns⟩ := List.mem_filter.mp isStage
  obtain ⟨taken, arrival, loadedPrimitives, way, numbers⟩ :=
    becomes.entries _ (staying stage isStage alsoRuns last listed)
  rw [of_decide_eq_true isOwn] at loadedPrimitives
  have before : deployment.state.actions.primitives missId = [] := idle
  rw [before, List.nil_append] at loadedPrimitives
  rw [leads last isLast] at way
  constructor
  · intro continues
    obtain ⟨extra, other, rest, ending, does, alsoNumbers, onward, same⟩ := continues last isLast
    obtain rfl := (load_loaded deployment.compiled.done).numbers_inj numbers alsoNumbers
    obtain ⟨rank, down⟩ := deployment.descends wellFormed denote
    have assigned := (way.append onward).unique down same
    rw [← loadedPrimitives, does, List.append_assoc] at assigned
    exact List.append_left_eq_self.mp assigned
  · rintro rfl other isOther
    obtain rfl := Option.some.inj (isLast.symm.trans isOther)
    refine ⟨taken, arrival, [], arrival, loadedPrimitives, numbers, .stop arrival, ?_⟩
    rw [List.append_nil]
    exact way

end Selected

/-! ### The flow of a table -/

/-- What a processor does for the actions of the table follows from what the stage lists. -/
structure Decides (table : P4Table) (hit miss : String) (own : P4Action → Compiler.Action) (source : P4Stage)
    (doc : ProcessorDoc) (processor : Dataplane.Processor) (matcherId missId : Int) : Prop where
  hit : ∀ action ∈ program.actions,
    deployment.Continues doc processor matcherId (own action).id (own action).primitives
      (deployment.place hit) ↔
      (∃ item ∈ listing source, refersTo action item = true) ∧ ∀ item, lastWhere (refersTo action)
        (((p4Stages program surroundings).filter (runsTable table)).flatMap listing) = some item →
          deployment.LeadAlike (deployment.place item.2.2) (deployment.place hit)
  miss : ∀ primitives,
    deployment.Continues doc processor matcherId missId primitives (deployment.place miss) ↔ primitives = []

/-- The processors that look up in the table are those of the stages that run it. -/
structure Flow (table : P4Table) (hit miss : String) (own : P4Action → Compiler.Action) : Prop where
  found : ∀ action ∈ program.actions,
    deployment.actions.lookupName ((emitted program).actionText action.name action.id) = some (own action)
  idle : ∀ action ∈ program.actions, (own action).primitives = [] ↔ action.expressions = []
  processors : ∀ (index : Nat) doc, deployment.docs[index]? = some (some doc) → ∀ compiled ∈ doc.matcher,
    (deployment.loaded.tables.lookupName ((emitted program).tableText table.name)).map Table.tableId =
        some compiled.tableId →
      ∃ source ∈ p4Stages program surroundings, runsTable table source = true ∧ ∃ processor thread,
        deployment.pipeline.procs[index]? = some processor ∧
          processor.matcher.thread compiled.id = some thread ∧
          deployment.Decides table hit miss own source doc processor compiled.id thread.missActId
  stages : ∀ source ∈ p4Stages program surroundings, runsTable table source = true →
    ∃ (index : Nat) (doc : ProcessorDoc),
    deployment.docs[index]? = some (some doc) ∧ ∃ compiled ∈ doc.matcher,
      (deployment.loaded.tables.lookupName ((emitted program).tableText table.name)).map Table.tableId =
        some compiled.tableId ∧ ∃ processor thread, deployment.pipeline.procs[index]? = some processor ∧
          processor.matcher.thread compiled.id = some thread ∧
            deployment.Decides table hit miss own source doc processor compiled.id thread.missActId

theorem keyed_decides (wellFormed : WellFormedNodes program)
    (denote : NamesDenote (emitted program) program.hitMissActions) {table printed : P4Table}
    {hit miss : String} {missAction : P4Action}
    (keyed : Keyed program table printed hit miss missAction) {next : Int × Int → Int}
    (becomes : deployment.state.Becomes deployment.loaded next)
    (staying : ∀ stage ∈ p4Stages program surroundings, runsTable printed stage = true →
      ∀ item ∈ listing stage,
      deployment.pairOf item ∈ stayingEntries deployment.state deployment.state.stages.logicalStages.length)
    {own : P4Action → Compiler.Action} (owns : ∀ action ∈ (emitted program).actions,
      deployment.actions.lookupName ((emitted program).actionText action.name action.id) = some (own action) ∧
        deployment.actions.primitives (own action).id = (own action).primitives ∧
        ((own action).primitives = [] ↔ action.expressions = []))
    {source : P4Stage} (isSource : source ∈ p4Stages program surroundings)
    (runs : runsTable printed source = true) {doc : ProcessorDoc} {processor : Dataplane.Processor}
    {matcherId : Int}
    (site : deployment.Site next printed (own missAction).id source doc processor matcherId) :
    deployment.Decides printed hit miss own source doc processor matcherId (own missAction).id := by
  have isMiss : missAction ∈ (emitted program).actions := List.mem_append_right _ keyed.isHitMiss
  obtain ⟨missFound, missPrimitives, missIdle⟩ := owns missAction isMiss
  have missItem {stage : P4Stage} (isStage : stage ∈ p4Stages program surroundings) {item :
    P4Table × String × String}
      (listed : item ∈ listing stage) : (deployment.pairOf item).1 = (own missAction).id ↔
        (emitted program).entryAction item.1 item.2.1 =
            (emitted program).actionText missAction.name missAction.id :=
    deployment.pairOf_fst wellFormed denote isStage listed isMiss missFound
  constructor
  · intro action member
    obtain ⟨found, primitives, _⟩ := owns action (List.mem_append_left _ member)
    have refers {stage : P4Stage} (isStage : stage ∈ p4Stages program surroundings) {item :
      P4Table × String × String}
        (listed : item ∈ listing stage) : (deployment.pairOf item).1 = (own action).id ↔
            refersTo action item = true :=
      deployment.pairOf_refersTo wellFormed denote isStage listed member found
    have same : deployment.lastListing printed (own action).id = lastWhere (refersTo action)
        (((p4Stages program surroundings).filter (runsTable printed)).flatMap listing) := by
      refine lastWhere_congr fun item inside => ?_
      obtain ⟨stage, isStage, listed⟩ := List.mem_flatMap.mp inside
      rw [Bool.eq_iff_iff, decide_eq_true_eq]
      exact refers (List.mem_filter.mp isStage).1 listed
    rw [site.hit_iff deployment becomes staying isSource runs primitives, same]
    exact and_congr_left fun _ => exists_congr fun item => and_congr_right fun listed =>
      refers isSource listed
  · refine site.miss_iff deployment becomes staying isSource runs wellFormed denote ?_ ?_ ?_
    · rw [missPrimitives, missIdle, keyed.body]
    · obtain ⟨item, listed, text⟩ := keyed.lists_miss wellFormed denote isSource runs
      exact ⟨item, listed, (missItem isSource listed).mpr text⟩
    · intro last isLast
      obtain ⟨isItem, isOwn⟩ := lastWhere_some isLast
      obtain ⟨stage, isStage, listed⟩ := List.mem_flatMap.mp isItem
      have isStage := (List.mem_filter.mp isStage).1
      obtain ⟨pipeline, inside, isTable, leads⟩ := item_inside isStage listed
      have successor := keyed.miss_item wellFormed denote inside isTable leads
        ((missItem isStage listed).mp (of_decide_eq_true isOwn))
      exact congrArg deployment.place successor

theorem keyed_flow (wellFormed : WellFormedNodes program)
    (denote : NamesDenote (emitted program) program.hitMissActions) (follow : EntriesFollow deployment.state)
    (apart : deployment.MatchersApart) {pipeline : P4Pipeline}
    (inside : pipeline ∈ program.pipelines) {table : P4Table}
    (isTable : table ∈ pipeline.tables) {hit miss : String}
    (nextTables : table.nextTables = [("__HIT__", hit), ("__MISS__", miss)]) :
    ∃ own, deployment.Flow table hit miss own := by
  obtain ⟨printed, missAction, keyed⟩ := keyed_table inside isTable nextTables
  obtain ⟨own, owns⟩ := deployment.own_actions denote
  obtain ⟨index, loadedTable, declared, missId⟩ := deployment.keyed_declared wellFormed denote keyed
  obtain ⟨next, becomes⟩ := load_becomes deployment.declared deployment.compiled.done follow
  have become := deployment.stages_become wellFormed denote keyed becomes declared
  have emission := deployment.compiled.emission
  have isMiss : missAction ∈ (emitted program).actions := List.mem_append_right _ keyed.isHitMiss
  have sameRuns : runsTable table = runsTable printed := by rw [keyed.same]; rfl
  have number : deployment.loaded.tables.lookupName ((emitted program).tableText table.name) =
      some loadedTable := by
    rw [← declared.found, keyed.same]
    rfl
  have staying : ∀ stage ∈ p4Stages program surroundings, runsTable printed stage = true →
    ∀ item ∈ listing stage,
      deployment.pairOf item ∈ stayingEntries deployment.state
          deployment.state.stages.logicalStages.length := by
    intro stage isStage
    obtain ⟨position, here⟩ := List.mem_iff_getElem?.mp isStage
    obtain ⟨_, _, stageOf⟩ := forall₂_right become here
    exact stageOf.staying
  have decides {source : P4Stage} (isSource : source ∈ p4Stages program surroundings) {stage : Stage}
      (stageOf : deployment.StageOf next index printed source stage)
      (live : stage ∈ liveStages deployment.loaded.stages.logicalStages) {procProc : Int →
        Option Int} {docIndex : Nat}
      {doc : ProcessorDoc} (here : deployment.docs[docIndex]? = some (some doc))
      (stageDoc : StageDoc deployment.loaded deployment.memory procProc stage doc) {compiled : Table}
      (member : compiled ∈ doc.matcher) (isNumber : compiled.tableId = index) : ∃ processor thread,
        deployment.pipeline.procs[docIndex]? = some processor ∧
          processor.matcher.thread compiled.id = some thread ∧
          deployment.Decides table hit miss own source doc processor compiled.id thread.missActId := by
    obtain ⟨processor, isProcessor, site⟩ :=
      deployment.site become declared live stageOf apart here stageDoc member isNumber
    obtain ⟨thread, isThread, isMissId⟩ := site.miss
    have runs := stageOf.tables.mp (isNumber ▸ (stageDoc.lookup_table member).1)
    rw [missId _ (owns missAction isMiss).1] at site isMissId
    have decided := deployment.keyed_decides wellFormed denote keyed becomes staying
      (fun action member => ⟨(owns action member).1, (owns action member).2.1, (owns action member).2.2.1⟩)
      isSource runs site
    refine ⟨processor, thread, isProcessor, isThread, ⟨?_, isMissId ▸ decided.miss⟩⟩
    rw [sameRuns]
    exact decided.hit
  refine ⟨own, ?_, ?_, ?_, ?_⟩
  · exact fun action member => (owns action (List.mem_append_left _ member)).1
  · exact fun action member => (owns action (List.mem_append_left _ member)).2.2.1
  · intro docIndex doc here compiled member isNumber
    rw [number, Option.map_some, declared.number] at isNumber
    have isNumber := (Option.some.inj isNumber).symm
    rcases emission.doc_cases here with ⟨noTables, _⟩ | ⟨stage, live, _, procProc, stageDoc⟩
    · simp [noTables] at member
    · obtain ⟨source, isSource, stageOf⟩ := forall₂_mem_right become (List.mem_filter.mp live).1
      refine ⟨source, isSource, ?_, decides isSource stageOf live here stageDoc member isNumber⟩
      rw [sameRuns]
      exact stageOf.tables.mp (isNumber ▸ (stageDoc.lookup_table member).1)
  · intro source isSource runs
    rw [sameRuns] at runs
    obtain ⟨position, at_⟩ := List.mem_iff_getElem?.mp isSource
    obtain ⟨stage, there, stageOf⟩ := forall₂_right become at_
    have live : stage ∈ liveStages deployment.loaded.stages.logicalStages :=
      List.mem_filter.mpr ⟨List.mem_of_getElem? there, by rw [stageOf.live runs]; rfl⟩
    obtain ⟨_, docIndex, placed⟩ := stageId_placed emission (List.mem_map_of_mem live)
    obtain ⟨doc, procProc, here, stageDoc⟩ := emission.doc_at live placed
    obtain ⟨compiled, member, source', found, _, _, rfl⟩ := stageDoc.table_of_id (stageOf.tables.mpr runs)
    have isNumber : source'.tableId = index := (Memory.lookupId_entry found).1
    refine ⟨docIndex, doc, here, _, member, ?_, decides isSource stageOf live here stageDoc member isNumber⟩
    rw [number, Option.map_some, declared.number]
    exact congrArg some isNumber.symm

section

variable {table : P4Table} {hit miss : String} {own : P4Action → Compiler.Action}

private theorem Flow.listedElsewhere (flow : deployment.Flow table hit miss own)
    (kept : deployment.FlowKept table hit miss) :
    deployment.ListedElsewhere table hit := by
  have entry : ∀ action ∈ program.actions, action.id ∈ table.actionIds →
    ∀ source ∈ p4Stages program surroundings,
      runsTable table source = true → (∃ item ∈ listing source, refersTo action item = true) ∧ ∀ item,
        lastWhere (refersTo action)
          (((p4Stages program surroundings).filter (runsTable table)).flatMap listing) =
          some item → deployment.LeadAlike (deployment.place item.2.2) (deployment.place hit) := by
    intro action member isEntry source isSource runs
    obtain ⟨index, doc, here, compiled, isCompiled, isNumber, processor, thread, isProcessor,
        isThread, decides⟩ :=
      flow.stages source isSource runs
    obtain ⟨processor', thread', alsoProcessor, alsoThread, hits, _⟩ :=
      kept index doc here compiled isCompiled isNumber
    cases isProcessor.symm.trans alsoProcessor
    obtain ⟨own', found, continues⟩ := hits action member isEntry
    cases (flow.found action member).symm.trans found
    exact (decides.hit action member).mp continues
  refine ⟨?_, ?_, ?_⟩
  · rintro ⟨source, isSource, runs⟩ action member isDefault
    obtain ⟨index, doc, here, compiled, isCompiled, isNumber, processor, thread, isProcessor,
        isThread, decides⟩ :=
      flow.stages source isSource runs
    obtain ⟨processor', thread', alsoProcessor, alsoThread, _, misses⟩ :=
      kept index doc here compiled isCompiled isNumber
    cases isProcessor.symm.trans alsoProcessor
    cases isThread.symm.trans alsoThread
    obtain ⟨own', found, continues⟩ := misses action member isDefault
    cases (flow.found action member).symm.trans found
    exact (flow.idle action member).mp ((decides.miss _).mp continues)
  · exact fun action member isEntry source isSource runs =>
      (entry action member isEntry source isSource runs).1
  · intro action member isEntry item last
    obtain ⟨source, isSource, _⟩ := List.mem_flatMap.mp (lastWhere_some last).1
    obtain ⟨isSource, runs⟩ := List.mem_filter.mp isSource
    exact (entry action member isEntry source isSource runs).2 item last

private theorem Flow.flowKept (flow : deployment.Flow table hit miss own)
    (listedElsewhere : deployment.ListedElsewhere table hit) : deployment.FlowKept table hit miss := by
  intro index doc here compiled isCompiled isNumber
  obtain ⟨source, isSource, runs, processor, thread, isProcessor, isThread, decides⟩ :=
    flow.processors index doc here compiled isCompiled isNumber
  refine ⟨processor, thread, isProcessor, isThread, ?_, ?_⟩
  · intro action member isEntry
    refine ⟨own action, flow.found action member, (decides.hit action member).mpr ⟨?_, ?_⟩⟩
    · exact listedElsewhere.entries action member isEntry source isSource runs
    · exact listedElsewhere.last action member isEntry
  · intro action member isDefault
    refine ⟨own action, flow.found action member, (decides.miss _).mpr ?_⟩
    exact (flow.idle action member).mpr
      (listedElsewhere.default ⟨source, isSource, runs⟩ action member isDefault)

end

end Deployment

/-- For a table that the P4 program asks for hits and misses, the flow is kept exactly if its stages
list its actions for another table, and a miss has nothing to do. -/
theorem flowKept_iff {program : P4Program} {surroundings : P4Surroundings}
    (deployment : Deployment program surroundings)
    (wellFormed : WellFormedNodes program) (denote : NamesDenote (emitted program) program.hitMissActions)
    (follow : EntriesFollow deployment.state) (apart : deployment.MatchersApart) {pipeline : P4Pipeline}
    (inside : pipeline ∈ program.pipelines) {table : P4Table} (isTable : table ∈ pipeline.tables)
    {hit miss : String} (nextTables : table.nextTables = [("__HIT__", hit), ("__MISS__", miss)]) :
    deployment.FlowKept table hit miss ↔ deployment.ListedElsewhere table hit := by
  obtain ⟨own, flow⟩ := deployment.keyed_flow wellFormed denote follow apart inside isTable nextTables
  exact ⟨flow.listedElsewhere deployment, flow.flowKept deployment⟩

/-- Every table matches one field, and a conditional takes its branch on the value 1. -/
def plainSurroundings : P4Surroundings where
  operands _ := []
  values _ := [1]
  headers _ := []
  keys _ := [(.field "hdr" "h" "f", .exact)]
  maxSize _ := 1024
  valueWidth _ := 16

/-- A table that marks what it hits. -/
def markTable : P4Table where
  name := "t"
  actions := ["mark"]
  actionIds := [1]
  defaultActionId := 0
  nextTables := [("__HIT__", "last"), ("__MISS__", "")]

/-- The table behind it, which counts. -/
def lastTable : P4Table where
  name := "last"
  actions := ["count"]
  actionIds := [2]
  defaultActionId := 2
  nextTables := [("count", "done")]

/-- The last table. -/
def doneTable : P4Table where
  name := "done"
  actions := ["idle", "count"]
  actionIds := [0, 2]
  defaultActionId := 0
  nextTables := [("idle", ""), ("count", "")]

def markProgram (ingress : P4Pipeline) : P4Program where
  actions := [{ name := "idle", id := 0 },
    { name := "mark", id := 1, expressions := [(.field "hdr" "h" "f", .literal 1)] },
    { name := "count", id := 2, expressions := [(.field "hdr" "h" "g", .literal 2)] }]
  pipelines := [ingress, { initTable := "", conditionals := [], tables := [] }]

/-- A conditional runs the table or, where it does not hold, another one with the same action. -/
def siblingIngress : P4Pipeline where
  initTable := "check"
  conditionals := [{ name := "check", trueNext := "t", falseNext := "u" }]
  tables :=
    [markTable, { markTable with name := "u", nextTables := [("mark", "last")] }, lastTable, doneTable]

/-- The pipeline starts with the table. -/
def markIngress : P4Pipeline where
  initTable := "t"
  conditionals := []
  tables := [markTable, lastTable, doneTable]

/-! The controller's requests for actions that assign constants to fields. -/

def assigns (item : String × Int) : Assign :=
  ⟨some (("h", item.1), { fieldLength := 8 }), some (.constant item.2)⟩

def assigning (action : Int × List (String × Int)) : Compiler.Action :=
  ⟨action.1, 0, [], action.2.map assigns⟩

def slot (items : List (String × Int)) : Dataplane.Action where
  prims := items.map fun item =>
    ⟨sentField { fieldLength := 8 },
      .node (.constant ⟨32, Dataplane.getUints (Dataplane.wrap 32 item.2) 32⟩) .nil .nil⟩
  paraNum := 0
  actionParaLens := []

theorem extractAction_assigning (action : Int × List (String × Int)) :
    extractAction (assigning action) = some (slot action.2) := by
  have prims : (action.2.map assigns).mapM extractPrimitive = some (slot action.2).prims := by
    unfold slot
    induction action.2 with
    | nil => rfl
    | cons item rest ih =>
        rw [List.map_cons, List.mapM_cons, ih]
        simp [extractPrimitive, assigns, buildExpTree]
  rw [extractAction, assigning, prims]
  rfl

/-- What the controller sends about a processor with such actions. -/
def assigningRequests (procId : Int) (doc : ProcessorDoc) (actions : List (Int × List (String × Int))) :
    Option (List Dataplane.Request) := do
  let gateway ← extractGateway doc.gateway
  let matcher ← extractMatcher doc.matcher procId
  return extractParser doc.levels procId ++ gateway.map (.gateway procId) ++ matcher ++
    actions.map (fun action => .insertAction procId action.1 (slot action.2)) ++ [extractMetadata []]

theorem extractExecutor_assigning (procId : Int) (actions : List (Int × List (String × Int))) :
    extractExecutor (actions.map assigning) procId =
      some (actions.map fun action => .insertAction procId action.1 (slot action.2)) := by
  unfold extractExecutor
  induction actions with
  | nil => rfl
  | cons action rest ih =>
      rw [List.map_cons, List.mapM_cons, ih, extractAction_assigning]
      rfl

theorem extractProcessor_assigning (procId : Int) {doc : ProcessorDoc}
    {actions : List (Int × List (String × Int))} (executor : doc.executor = actions.map assigning) :
    extractProcessor [] procId doc = assigningRequests procId doc actions := by
  rw [extractProcessor, executor, extractExecutor_assigning]
  rfl

theorem extract_assigning {docs : List (Option ProcessorDoc)} (first second : ProcessorDoc)
    (shape : docs = some first :: some second :: List.replicate 14 none)
    {front back : List (Int × List (String × Int))} (isFront : first.executor = front.map assigning)
    (isBack : second.executor = back.map assigning) {frontRequests backRequests : List Dataplane.Request}
    (firstSent : assigningRequests 0 first front = some frontRequests)
    (secondSent : assigningRequests 1 second back = some backRequests) :
    InitDataplane.extract docs [] = some (frontRequests ++ backRequests) := by
  rw [← extractProcessor_assigning 0 isFront] at firstSent
  rw [← extractProcessor_assigning 1 isBack] at secondSent
  subst shape
  simp [InitDataplane.extract, List.zipIdx_cons, List.replicate, firstSent, secondSent]

def markCompile (ast : Ast) :
    Option (ActionManager × Program × DistributionResult × MemoryResult × List (Option ProcessorDoc)) := do
  let actions ← ActionManager.load tableHeaders ast
  let program ← load tableHeaders [] ast
  let distribution ← distributeParsers (fun _ items => items) (fun _ => none) [] program.stages.logicalStages
  let memory ← allocateMemory program.tables program.stages.logicalStages distribution.topoSequence
  let ipsa ← allocateProcessors program distribution memory
  return (actions, program, distribution, memory, ← ipsa.toIpsaValue)

def siblingAst : Ast := ((emitted (markProgram siblingIngress)).printAst plainSurroundings).get (by decide)

def siblingCompile : ActionManager × Program × DistributionResult × MemoryResult ×
      List (Option ProcessorDoc) :=
  (markCompile siblingAst).get (by decide)

def siblingFirst : ProcessorDoc := ((siblingCompile.2.2.2.2[0]?).join).get (by decide)

def siblingSecond : ProcessorDoc := ((siblingCompile.2.2.2.2[1]?).join).get (by decide)

def siblingFront : List Dataplane.Request :=
  (assigningRequests 0 siblingFirst [(3, [("g", 2)]), (4, []), (1, [("f", 1), ("g", 2)])]).get (by decide)

def siblingBack : List Dataplane.Request :=
  (assigningRequests 1 siblingSecond [(0, []), (2, [("g", 2)])]).get (by decide)

def siblingDeployment : Deployment (markProgram siblingIngress) plainSurroundings where
  headers := tableHeaders
  getHeader _ := none
  sort _ items := items
  levels := []
  metadata := []
  ast := siblingAst
  actions := siblingCompile.1
  loaded := siblingCompile.2.1
  distribution := siblingCompile.2.2.1
  memory := siblingCompile.2.2.2.1
  docs := siblingCompile.2.2.2.2
  requests := siblingFront ++ siblingBack
  pipeline := (Dataplane.Pipeline.fresh.configure (siblingFront ++ siblingBack)).get (by decide)
  printed := rfl
  declared := rfl
  compiled := ⟨rfl, rfl, rfl, by decide, rfl⟩
  sent := extract_assigning siblingFirst siblingSecond rfl rfl rfl rfl rfl
  pushed := rfl

/-- The other table lists the action with the same successor, so the table keeps its flow. The stage
behind is removed, and its action is executed with the one that marks. -/
theorem flowKept_sibling : siblingDeployment.FlowKept markTable "last" "" := by
  have branches : ∀ pipeline ∈ (markProgram siblingIngress).pipelines, ∀ conditional ∈ pipeline.conditionals,
      ∀ name ∈ [conditional.trueNext, conditional.falseNext], name = "" ∨
        name ∈ pipeline.conditionals.map P4Conditional.name ∨
        name ∈ pipeline.tables.map P4Table.name := by decide
  have wellFormed : WellFormedNodes (markProgram siblingIngress) := by
    refine ⟨by decide, by decide, by decide, ?_, by decide, by decide,
      fun name => if name = "check" then 4 else
      if name = "t" ∨ name = "u" then 3 else if name = "last" then 2 else if name = "done" then 1
        else 0, by decide⟩
    exact fun pipeline inside conditional member name isName =>
      branches pipeline inside conditional member name (by simpa using isName)
  have denote : NamesDenote (emitted (markProgram siblingIngress))
      (markProgram siblingIngress).hitMissActions :=
    ⟨by decide, by decide, by decide, by decide⟩
  have only : ∀ position own, single siblingDeployment.state position = some own → position = 1 ∧
      own = (2, 2) := by
    intro position own isSingle
    have inside : position < 3 := single_inside isSingle
    match position with
    | 0 | 2 => cases isSingle
    | 1 => exact ⟨rfl, (Option.some.inj isSingle).symm⟩
  have follow : EntriesFollow siblingDeployment.state := by
    refine ⟨?_, ?_, by decide, ?_⟩
    · intro position own isSingle _
      obtain ⟨rfl, rfl⟩ := only position own isSingle
      decide
    · intro position own isSingle
      obtain ⟨rfl, rfl⟩ := only position own isSingle
      decide
    · intro entry member position removed leads own isSingle next gone
      obtain ⟨rfl, rfl⟩ := only position own isSingle
      have away : ∀ next ∈ removedStages siblingDeployment.state, (2 : Int) ≠ next := by decide
      exact fun same => absurd same (away next gone)
  have matchers : ∀ entry ∈ siblingDeployment.docs, ∀ doc ∈ entry.toList, ∀ first ∈ doc.matcher,
    ∀ second ∈ doc.matcher,
      first.id = second.id → first.tableId = second.tableId := by decide
  have apart : siblingDeployment.MatchersApart :=
    fun doc member => matchers _ member doc (List.mem_singleton_self doc)
  have inside : siblingIngress ∈ (markProgram siblingIngress).pipelines := List.mem_cons_self
  have last : ∀ action ∈ (markProgram siblingIngress).actions, action.id ∈ markTable.actionIds → ∀ item ∈
      (lastWhere (refersTo action) (((p4Stages (markProgram siblingIngress) plainSurroundings).filter
        (runsTable markTable)).flatMap listing)).toList, item.2.2 = "last" := by decide
  refine (flowKept_iff siblingDeployment wellFormed denote follow apart inside List.mem_cons_self rfl).mpr
    ⟨by decide, by decide, ?_⟩
  intro action member isEntry item isLast
  rw [last action member isEntry item (by simp [isLast])]
  exact ⟨[], _, .stop _, .stop _⟩

def aloneAst : Ast := ((emitted (markProgram markIngress)).printAst plainSurroundings).get (by decide)

def aloneCompile : ActionManager × Program × DistributionResult × MemoryResult × List (Option ProcessorDoc) :=
  (markCompile aloneAst).get (by decide)

def aloneFirst : ProcessorDoc := ((aloneCompile.2.2.2.2[0]?).join).get (by decide)

def aloneSecond : ProcessorDoc := ((aloneCompile.2.2.2.2[1]?).join).get (by decide)

def aloneFront : List Dataplane.Request :=
  (assigningRequests 0 aloneFirst [(3, [("g", 2)]), (4, [])]).get (by decide)

def aloneBack : List Dataplane.Request :=
  (assigningRequests 1 aloneSecond [(0, []), (2, [("g", 2)])]).get (by decide)

def aloneDeployment : Deployment (markProgram markIngress) plainSurroundings where
  headers := tableHeaders
  getHeader _ := none
  sort _ items := items
  levels := []
  metadata := []
  ast := aloneAst
  actions := aloneCompile.1
  loaded := aloneCompile.2.1
  distribution := aloneCompile.2.2.1
  memory := aloneCompile.2.2.2.1
  docs := aloneCompile.2.2.2.2
  requests := aloneFront ++ aloneBack
  pipeline := (Dataplane.Pipeline.fresh.configure (aloneFront ++ aloneBack)).get (by decide)
  printed := rfl
  declared := rfl
  compiled := ⟨rfl, rfl, rfl, by decide, rfl⟩
  sent := extract_assigning aloneFirst aloneSecond rfl rfl rfl rfl rfl
  pushed := rfl

def aloneTable : Table := aloneFirst.matcher.head (by decide)

/-- A hit of a table that is a stage of its own selects an action that the stage does not have. -/
theorem hit_without_action : ¬aloneDeployment.FlowKept markTable "last" "" := by
  intro kept
  have here : aloneDeployment.docs[0]? = some (some aloneFirst) := rfl
  have number : (aloneDeployment.loaded.tables.lookupName
    ((emitted (markProgram markIngress)).tableText markTable.name)).map
      Table.tableId = some aloneTable.tableId := by decide
  have absent :
      ∀ own ∈ (aloneDeployment.actions.lookupName
        ((emitted (markProgram markIngress)).actionText "mark" 1)).toList,
      ∀ action ∈ aloneFirst.executor, action.id ≠ own.id := by decide
  obtain ⟨processor, thread, _, _, hits, _⟩ := kept 0 aloneFirst here aloneTable (List.head_mem _) number
  obtain ⟨own, found, action, isAction, isId, _⟩ :=
    hits { name := "mark", id := 1, expressions := [(.field "hdr" "h" "f", .literal 1)] }
      (by decide) (by decide)
  exact absent own (by rw [found]; exact List.mem_singleton_self own) action isAction isId

end Ipbm.System
