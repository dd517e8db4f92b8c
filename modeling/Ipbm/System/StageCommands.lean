import Ipbm.Compiler.Compilation
import Ipbm.System.CommandFiles
import Ipbm.System.ConfigurationFile
import Ipbm.System.StagePipeline

/-! From a program to the frames. A compile, its configuration file, table commands in their
files, and the switch that these leave, next to the pipeline of the stages with the same commands. -/

set_option autoImplicit false

namespace Ipbm.System
open Lib Dataplane Compiler IpsaConfiguration ProcessorManager Builder
open Controller (TableRequest TableUpdate InitDataplane.extract DesignFile.extract sentMetaInfos)
open Compiler.Distribution (liveStages)

/-! ### Tables are on stages -/

private theorem load_procIds {headers : HeaderLookup} {actions : ActionManager} {ast : Ast}
    {tables : TableManager} (done : TableManager.load headers actions ast = some tables) :
    ∀ entry ∈ tables, entry.2.procId = 0 := by
  refine foldlM_preserves (fun tables : TableManager =>
    ∀ entry ∈ tables, entry.2.procId = 0) ?_ done (by simp)
  rintro tables ⟨tableDef, position⟩ after _ old step entry member
  obtain ⟨table, made, step⟩ := Option.bind_eq_some_iff.mp step
  have fresh : table.procId = 0 := by
    unfold TableManager.makeTable at made
    split at made
    · cases made
      rfl
    · obtain ⟨fields, _, made⟩ := Option.bind_eq_some_iff.mp made
      cases made
      rfl
  cases step
  split at member
  · exact old entry member
  · rcases List.mem_append.mp member with before | last
    · exact old entry before
    · rw [List.mem_singleton.mp last]
      exact fresh

private theorem setupStages_procIds {valid : Int → Prop} {stages : List Stage}
    (ids : ∀ stage ∈ stages, valid stage.stageId)
    {state : TableManager × List Compiler.Gateway} (start : ∀ entry ∈ state.1, valid entry.2.procId) :
    ∀ entry ∈ (setupStages stages state).1, valid entry.2.procId := by
  refine foldl_along (fun _ (after : TableManager × List Compiler.Gateway) =>
    ∀ entry ∈ after.1, valid entry.2.procId) ?_ start
  intro _ stage after front before
  have member : stage ∈ stages := front.subset (List.mem_append_right _ (List.mem_singleton_self _))
  refine foldl_along (fun _ (after : TableManager × List Compiler.Gateway) =>
    ∀ entry ∈ after.1, valid entry.2.procId) ?_ before
  intro _ ref after _ before entry inside
  obtain ⟨old, listed, rfl⟩ := List.mem_map.mp inside
  split
  · exact ids stage member
  · exact before old listed

theorem table_procIds {headers : HeaderLookup} {levels : List Level} {ast : Ast} {program : Program}
    (done : load headers levels ast = some program)
    (some_live : 0 < (liveStages program.stages.logicalStages).length) :
    ∀ entry ∈ program.tables, ValidRef (liveStages program.stages.logicalStages).length entry.2.procId := by
  have numbered := (load_loaded done).numbered
  obtain ⟨actions, _, done⟩ := Option.bind_eq_some_iff.mp done
  obtain ⟨tables, loadedTables, done⟩ := Option.bind_eq_some_iff.mp done
  obtain ⟨state, _, done⟩ := Option.bind_eq_some_iff.mp done
  obtain ⟨⟨stages, gateways⟩, _, same⟩ := Option.bind_eq_some_iff.mp done
  have shape := Option.some.inj same
  subst shape
  refine setupStages_procIds (fun stage member => .inr (numbered.ids some_live stage member))
    fun entry member => ?_
  rw [load_procIds loadedTables entry member]
  exact .inr ⟨le_rfl, by exact_mod_cast some_live⟩

/-! ### Commands under other numbers -/

def TableRequest.renamed (number : Int → Int) : TableRequest → TableRequest
  | .insertSramEntry procId matcherId key value => .insertSramEntry (number procId) matcherId key value
  | .insertTcamEntry procId matcherId key mask
    value => .insertTcamEntry (number procId) matcherId key mask value

theorem extract_renamed (number : Int → Int) (update : TableUpdate) :
    Controller.extract { update with procId := number update.procId } =
      (Controller.extract update).map (TableRequest.renamed number) := by
  unfold Controller.extract
  cases update.matchType <;> simp [Option.map_bind, Function.comp_def, TableRequest.renamed]

private theorem lookupName_reorder (tables : TableManager) (procProc : Int → Option Int) (name : String) :
    (tables.reorderStages procProc).lookupName name = (tables.lookupName name).map fun table =>
      { table with
        procId := (procProc table.procId).getD 0
        actionToProc := table.actionToProc.map fun pair => (pair.1, (procProc pair.2).getD 0) } := by
  unfold TableManager.lookupName TableManager.reorderStages
  rw [List.find?_map, Option.map_map, Option.map_map]
  rfl

variable {inetPton : AddressFamily → List Char → Option (List UInt8)} {ipsa ideal : Ipsa}
  {procProc : Int → Option Int}

/-- The commands of a builder whose tables are renamed. -/
theorem tableCommand_renamed (tables : ipsa.tables = ideal.tables.reorderStages procProc)
    (actions : ipsa.actions = ideal.actions) (params : List String) :
    tableCommand inetPton ipsa params = (tableCommand inetPton ideal params).map fun command =>
      { command with
          request := TableRequest.renamed (fun stageId => (procProc stageId).getD 0) command.request } := by
  have emitted : Rp4Runtime.emitUpdate ipsa params = (Rp4Runtime.emitUpdate ideal params).map fun updater =>
      { updater with procId := (procProc updater.procId).getD 0 } := by
    unfold Rp4Runtime.emitUpdate
    split
    · rw [tables, actions, lookupName_reorder]
      simp only [Option.bind_eq_bind, Option.map_bind, Option.bind_map, Function.comp_def,
        Option.pure_def, Option.map_some]
    · rfl
  unfold tableCommand
  rw [emitted]
  cases Rp4Runtime.emitUpdate ideal params with
  | none => rfl
  | some updater =>
      have document : updateDocument inetPton { updater with procId := (procProc updater.procId).getD 0 } =
          (updateDocument inetPton updater).map fun update =>
              { update with procId := (procProc update.procId).getD 0 } := by
        unfold updateDocument
        simp only [Option.bind_eq_bind, Option.map_bind, Function.comp_def, Option.pure_def, Option.map_some]
      simp only [Option.map_some, Option.bind_eq_bind, Option.bind_some, document]
      cases updateDocument inetPton updater with
      | none => rfl
      | some update =>
          have extracted := extract_renamed (fun stageId => (procProc stageId).getD 0) update
          simp only [Option.map_some, Option.bind_some, extracted]
          cases Controller.extract update <;> rfl

def TableRequest.procId : TableRequest → Int
  | .insertSramEntry procId _ _ _ => procId
  | .insertTcamEntry procId _ _ _ _ => procId

private theorem tableCommand_procId {command : TableCommand} {params : List String}
    (made : tableCommand inetPton ideal params = some command) :
    ∃ entry ∈ ideal.tables, TableRequest.procId command.request = entry.2.procId := by
  obtain ⟨updater, emitted, made⟩ := Option.bind_eq_some_iff.mp made
  obtain ⟨update, isUpdate, made⟩ := Option.bind_eq_some_iff.mp made
  obtain ⟨request, extracted, same⟩ := Option.bind_eq_some_iff.mp made
  cases same
  obtain ⟨_, _, isUpdate⟩ := Option.bind_eq_some_iff.mp isUpdate
  obtain ⟨_, _, same⟩ := Option.bind_eq_some_iff.mp isUpdate
  cases same
  match params, emitted with
  | cmd :: tableName :: actionName :: texts, emitted =>
    obtain ⟨table, isTable, emitted⟩ := Option.bind_eq_some_iff.mp emitted
    obtain ⟨action, _, same⟩ := Option.bind_eq_some_iff.mp emitted
    cases same
    refine ⟨_, lookupName_mem isTable, ?_⟩
    unfold Controller.extract at extracted
    split at extracted <;> simp only [Option.bind_eq_bind, Option.bind_eq_some_iff, Option.pure_def,
      Option.some.injEq] at extracted
    · obtain ⟨_, _, _, _, _, _, _, _, rfl⟩ := extracted
      rfl
    · obtain ⟨_, _, _, _, _, _, _, _, _, _, rfl⟩ := extracted
      rfl
    · obtain ⟨_, _, _, _, _, _, _, _, _, _, rfl⟩ := extracted
      rfl

private theorem command_alike {located : Int → Int → Prop} {command : TableCommand}
    (here : located (TableRequest.procId command.request)
      ((procProc (TableRequest.procId command.request)).getD 0)) :
    Request.Alike located
      ({ command with
           request := TableRequest.renamed (fun stageId => (procProc stageId).getD 0) command.request } :
        TableCommand).toRequest command.toRequest := by
  obtain ⟨type, actionId, request⟩ := command
  cases request with
  | insertSramEntry procId matcherId key value => exact .insertSramEntry here matcherId key value
  | insertTcamEntry procId matcherId key mask value => exact .insertTcamEntry here matcherId key mask value

section

variable {headers : HeaderLookup} {getHeader : String → Option Int} {sort : (Int → Int → Bool) →
  List Int → List Int}
  {levels : List Level} {ast : Ast} {program : Program} {distribution : DistributionResult}
    {memory : MemoryResult}
  {docs : List (Option ProcessorDoc)} {metadata : List MetadataEntry} {isIncremental : Nat}
    {value : IpsaValue}
  {requests : List Request} {used : Pipeline}

private theorem renamed_tables
    (compiled : Compiled headers getHeader sort levels ast program distribution memory docs)
    (allocated : allocateProcessors program distribution memory = some ipsa)
    (first : memory.physicalProcId[0]? = some 0) :
    ∃ procProc, ipsa.tables = memory.tables.reorderStages procProc ∧
      ∀ entry ∈ memory.tables,
        Renamed memory.physicalProcId entry.2.procId ((procProc entry.2.procId).getD 0) := by
  have emission := compiled.emission
  obtain ⟨processors, build, shape⟩ := Option.bind_eq_some_iff.mp allocated
  obtain ⟨extraId, built⟩ := buildProcessors_built emission.placed.length build
  refine ⟨Builder.procProc processors, by rw [← Option.some.inj shape], fun entry member => ?_⟩
  have some_live : 0 < (liveStages program.stages.logicalStages).length := by
    obtain ending | live := emission.placed.entries 0 (List.mem_of_getElem? first)
    · cases ending
    · rw [← List.length_map Stage.stageId]
      exact List.length_pos_of_mem live
  obtain ⟨space, _, memories⟩ := compiled.allocated
  obtain ⟨spaces, tables⟩ := memories.configured
  obtain ⟨source, listed, same⟩ := Memory.mem_of_blank tables.tables member
  have blank := congrArg Table.procId same
  have procIds : source.2.procId = entry.2.procId := blank
  obtain ⟨number, found, renamed⟩ :=
    renamed_procProc emission built (procIds ▸ table_procIds compiled.done some_live source listed)
  rw [found]
  exact renamed

/-- The switch that the configuration file of a compile and the files of some commands leave forwards
every frame as the pipeline of the stages does with these commands. -/
theorem runFiles_stagePipeline
    (compiled : Compiled headers getHeader sort levels ast program distribution memory docs)
    (allocated : allocateProcessors program distribution memory = some ipsa)
    (written : ipsa.document isIncremental metadata = some value) (fits : value.Fits) (ints : IntMembers ipsa)
    (small : ∀ stage ∈ liveStages program.stages.logicalStages, ∀ levels,
      stageLevels program distribution.distributedLevels stage.stageId = some levels →
        levels.length ≤ maxLevel)
    (own : ∀ stage ∈ liveStages program.stages.logicalStages, ∀ gateway,
      program.gateways[stage.gatewayId]? = some gateway →
      ∀ key target, (key, GatewayEntry.stage target) ∈ gateway.nextTable.keptEntries →
        target = -1 ∨ memory.physicalProcId[target.toNat]? = some target)
    (first : memory.physicalProcId[0]? = some 0)
    (sent : DesignFile.extract (IpsaOutput.emit 0 value) = some requests)
    (configured : Pipeline.fresh.configure requests = some used) :
    ∃ ideal, stagePipeline program distribution memory metadata = some ideal ∧ ∀ commands,
      Option.Rel (fun used ideal => ∀ scratch ifMacs fuel frame ifIndex,
        forward used scratch ifMacs fuel frame ifIndex = forward ideal scratch ifMacs fuel frame ifIndex)
        (runFiles inetPton ipsa used commands)
        (runCommands inetPton { ipsa with tables := memory.tables } ideal commands) := by
  obtain ⟨docs', isDocs, read⟩ :=
    Controller.DesignFile.extract_emit (length_allocateProcessors allocated) written fits
  have same : docs = docs' := by
    have emitted := compiled.emitted
    rw [allocated, Option.bind_some, isDocs] at emitted
    exact (Option.some.inj emitted).symm
  subst same
  have emission := compiled.emission
  have pushes := Controller.configure_pushes (read.symm.trans sent) rfl configured
  have numbering := numbering_renamed emission.placed first
  obtain ⟨ideal, isIdeal, alike⟩ := stagePipeline_alike emission pushes small own first
  obtain ⟨procProc, tables, renamed⟩ := renamed_tables compiled allocated first
  refine ⟨ideal, isIdeal, fun commands => ?_⟩
  have commandSteps : ∀ (used ideal : Pipeline) (params : List String), used.Alike
    (Renamed memory.physicalProcId) ideal →
      Option.Rel (Pipeline.Alike (Renamed memory.physicalProcId))
        (do
          let file ← commandFile inetPton ipsa params
          let request ← Controller.UpdateFile.extract file
          used.apply (toRequest request))
        (do
          let command ← tableCommand inetPton { ipsa with tables := memory.tables } params
          ideal.apply command.toRequest) := by
    intro used ideal params alike
    rw [commandFile_step ints,
      @tableCommand_renamed inetPton ipsa { ipsa with tables := memory.tables } procProc tables rfl]
    cases made : tableCommand inetPton { ipsa with tables := memory.tables } params with
    | none => exact .none
    | some command =>
        obtain ⟨entry, member, procId⟩ := tableCommand_procId made
        exact alike.apply numbering (command_alike (procId ▸ renamed entry member))
  have after : Option.Rel (Pipeline.Alike (Renamed memory.physicalProcId))
    (runFiles inetPton ipsa used commands)
      (runCommands inetPton { ipsa with tables := memory.tables } ideal commands) :=
    rel_foldlM (List.forall₂_same.mpr fun _ _ => rfl)
      (fun params _ used ideal same alike => same ▸ commandSteps used ideal params alike) alike
  cases here : runFiles inetPton ipsa used commands <;>
    cases there : runCommands inetPton { ipsa with tables := memory.tables } ideal commands <;>
      rw [here, there] at after <;>
    cases after
  case none.none => exact .none
  case some.some alike => exact .some (alike.forward numbering)

end

def relayIpsa : Ipsa :=
  (allocateProcessors relayProgram relayDistribution relayMemory).get (by decide +kernel)

def relayValue : IpsaValue := (relayIpsa.document 0 []).get (by decide +kernel)

theorem runFiles_stagePipeline_relay : ∃ requests used ideal,
    DesignFile.extract (IpsaOutput.emit 0 relayValue) = some requests ∧
      Pipeline.fresh.configure requests = some used ∧
      stagePipeline relayProgram relayDistribution relayMemory [] = some ideal ∧ ∀ commands,
        Option.Rel (fun used ideal => ∀ scratch ifMacs fuel frame ifIndex,
          forward used scratch ifMacs fuel frame ifIndex = forward ideal scratch ifMacs fuel frame ifIndex)
          (runFiles (fun _ _ => none) relayIpsa used commands)
          (runCommands (fun _ _ => none) { relayIpsa with tables := relayMemory.tables } ideal commands) := by
  have allocated : allocateProcessors relayProgram relayDistribution relayMemory = some relayIpsa :=
    (Option.some_get _).symm
  have written : relayIpsa.document 0 [] = some relayValue := (Option.some_get _).symm
  have fits : relayValue.Fits := by decide +kernel
  have ints : IntMembers relayIpsa := ⟨by decide +kernel, by decide +kernel⟩
  obtain ⟨docs, isDocs, read⟩ :=
    Controller.DesignFile.extract_emit (length_allocateProcessors allocated) written fits
  have same : docs = relayDocs := by
    have emitted : (allocateProcessors relayProgram relayDistribution relayMemory).bind
        Ipsa.toIpsaValue = some relayDocs :=
      (Option.some_get _).symm
    rw [allocated, Option.bind_some, isDocs] at emitted
    exact Option.some.inj emitted
  have sent : DesignFile.extract (IpsaOutput.emit 0 relayValue) = some relayRequests := by
    rw [read, same]
    exact (Option.some_get _).symm
  obtain ⟨used, configured⟩ := Option.isSome_iff_exists.mp
    (show (Pipeline.fresh.configure relayRequests).isSome = true by decide)
  obtain ⟨ideal, isIdeal, alike⟩ :=
    @runFiles_stagePipeline (fun _ _ => none) relayIpsa relayHeaders (fun _ => none)
    (fun _ items => items) [] relayAst relayProgram relayDistribution relayMemory relayDocs [] 0
      relayValue relayRequests used
    ⟨(Option.some_get _).symm, (Option.some_get _).symm,
      (Option.some_get _).symm, by decide, (Option.some_get _).symm⟩
    allocated written fits ints relay_small relay_own rfl sent configured
  exact ⟨relayRequests, used, ideal, sent, configured, isIdeal, alike⟩

end Ipbm.System
