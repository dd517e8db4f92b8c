import Ipbm.Compiler.References
import Ipbm.Controller.RelocatedPush
import Ipbm.Dataplane.RelocatedRuns

/-! The pipeline a program means before its stages are placed: stage `i` is processor `i`, and every
reference is as the stages have it. The switch forwards frames as this pipeline does. -/

set_option autoImplicit false

namespace Ipbm.System
open Lib Dataplane Compiler Controller IpsaConfiguration ProcessorManager Builder
open Compiler.Distribution (liveStages)

section

variable (program : Program) (distribution : DistributionResult) (memory : MemoryResult)

/-- The document of a stage with the references that `allocateProcessors` replaces. -/
def stageDocument (stage : Stage) : Option ProcessorDoc := do
  let levels ← stageLevels program distribution.distributedLevels stage.stageId
  let gateway ← program.gateways[stage.gatewayId]?
  let gateway ← gateway.toIpsaValue
  let matcher ← stage.tableId.mapM memory.tables.lookupId
  let executor ← (stage.actionProc.map Prod.fst).mapM program.actions.lookupId
  return { id := stage.stageId, levels, gateway, matcher, executor }

/-- The tables of a stage are where the stage is placed. -/
def placedStage (stage : Stage) : Option Dataplane.Processor := do
  let doc ← stageDocument program distribution memory stage
  let calls ← processorCalls doc
  calls.push (.fresh (memory.physicalProcId.idxOf stage.stageId))

def stagePipeline (metadata : List MetadataEntry) : Option Pipeline := do
  let procs ← (liveStages program.stages.logicalStages).mapM (placedStage program distribution memory)
  return { procs, metaInfos := sentMetaInfos metadata }

end

/-! ### Levels -/

private theorem chunks_small {levels : List Level} (small : levels.length ≤ maxLevel) :
    (chunks levels).length ≤ 1 ∧ (chunks levels).flatten = levels := by
  cases levels with
  | nil => exact ⟨by decide, by decide⟩
  | cons first rest =>
      have one : ((first :: rest).length + (maxLevel - 1)) / maxLevel = 1 := by
        simp only [maxLevel, List.length_cons] at small ⊢
        omega
      rw [chunks, one]
      exact ⟨le_rfl, by simp [List.take_of_length_le small]⟩

section

variable {program : Program} {distribution : DistributionResult} {memory : MemoryResult}
  {docs : List (Option ProcessorDoc)}

private theorem taken_small {physicalProcId : List Int} {index : Nat} {stageId : Int} {levels : List Level}
    (at_ : physicalProcId[index]? = some stageId) (nonneg : 0 ≤ stageId)
    (known : stageLevels program distribution.distributedLevels stageId = some levels)
    (small : levels.length ≤ maxLevel) :
    taken program distribution physicalProcId (index + 1) =
      taken program distribution physicalProcId index := by
  have runs : (runsAt program distribution.distributedLevels physicalProcId index).length ≤ 1 := by
    rw [runsAt, at_]
    simp only [if_pos nonneg, known, Option.getD_some]
    exact (chunks_small small).1
  rw [taken, taken, runsBefore_succ, Nat.sub_eq_zero_of_le runs, Nat.add_zero]

theorem numbering_renamed (placed : Placed program memory.physicalProcId)
    (first : memory.physicalProcId[0]? = some 0) :
    Numbering (Renamed memory.physicalProcId) where
  ending := .inl ⟨rfl, rfl⟩
  ends := by
    rintro own other (⟨rfl, rfl⟩ | ⟨low, low', _⟩)
    · exact Iff.rfl
    · omega
  start := .inr ⟨le_rfl, le_rfl, first⟩
  unique := by
    rintro own other own' other' (⟨rfl, rfl⟩ | ⟨low, low', at_⟩) (⟨rfl, rfl⟩ | ⟨next, next', there⟩)
    · exact ⟨fun _ => rfl, fun _ => rfl⟩
    · omega
    · omega
    · constructor
      · rintro rfl
        have same := placed.once _ _ own at_ there low
        omega
      · rintro rfl
        exact Option.some.inj (at_.symm.trans there)

/-! ### Documents -/

private theorem entry_alike {procProc : Int → Option Int} {physicalProcId : List Int} {entry : GatewayEntry}
    (valid : ∀ reference, entry = .stage reference → ∃ number, procProc reference = some number ∧
      Renamed physicalProcId reference number) :
    GateEntry.Alike (Renamed physicalProcId) (entry.setNextId procProc).toGateEntry entry.toGateEntry := by
  cases entry with
  | table tableId matcherId => exact .table matcherId
  | stage reference =>
      obtain ⟨number, found, renamed⟩ := valid reference rfl
      rw [GatewayEntry.setNextId, found]
      exact .stage renamed

private theorem entries_alike {procProc : Int → Option Int} {physicalProcId : List Int} {table : NextTable}
    (valid : ∀ reference ∈ table.stageRefs, ∃ number, procProc reference = some number ∧
      Renamed physicalProcId reference number)
    (kept : ∀ key target, (key, GatewayEntry.stage target) ∈ table.keptEntries →
      Renamed physicalProcId target target) :
    List.Forall₂ (fun pair pair' : Int × GateEntry => pair.1 = pair'.1 ∧
      pair.2.Alike (Renamed physicalProcId) pair'.2)
      ((table.setDefaultNextId procProc).entries.map fun entry => (entry.1, entry.2.toGateEntry))
      (table.entries.map fun entry => (entry.1, entry.2.toGateEntry)) := by
  rw [List.forall₂_map_left_iff, List.forall₂_map_right_iff]
  have own : ∀ row ∈ table.keptEntries, row.1 = row.1 ∧
      GateEntry.Alike (Renamed physicalProcId) row.2.toGateEntry row.2.toGateEntry := by
    rintro ⟨key, entry⟩ member
    cases entry with
    | table tableId matcherId => exact ⟨rfl, .table matcherId⟩
    | stage target => exact ⟨rfl, .stage (kept key target member)⟩
  obtain ⟨default, entries⟩ := table
  cases default with
  | some default => exact List.forall₂_same.mpr own
  | none =>
      cases entries with
      | nil => exact .nil
      | cons first rest =>
          refine .cons ⟨rfl, entry_alike fun reference same => valid reference (mem_stageRefs_default ?_)⟩
            (List.forall₂_same.mpr own)
          exact congrArg some same

private theorem table_alike (emission : Emission program distribution memory docs)
    {processors : Processors} {extraId : Int}
    (built : Built program distribution memory.physicalProcId procCount (processors, extraId))
    (some_live : 0 < (liveStages program.stages.logicalStages).length) (tableId : Int) :
    Option.Rel (TableAlike (Renamed memory.physicalProcId))
      ((memory.tables.reorderStages (procProc processors)).lookupId tableId)
        (memory.tables.lookupId tableId) := by
  rw [lookupId_reorder]
  cases found : memory.tables.lookupId tableId with
  | none => exact .none
  | some table =>
      refine .some ⟨rfl, ?_⟩
      rw [List.forall₂_map_left_iff]
      refine List.forall₂_same.mpr fun pair member => ⟨rfl, ?_⟩
      obtain ⟨entry, inside, same⟩ := tableTargets_mem emission found
      obtain ⟨number, mapped, renamed⟩ :=
        renamed_procProc emission built (emission.loaded.tableRefs some_live entry inside pair
          (same ▸ member))
      rw [mapped]
      exact renamed

private theorem stage_parts (emission : Emission program distribution memory docs)
    {processors : Processors} {extraId : Int}
    (built : Built program distribution memory.physicalProcId procCount (processors, extraId))
    (written : ∀ (index : Nat) (processor : Option Compiler.Processor), processors[index]? = some processor →
      match processor with
      | none => docs[index]? = some none
      | some processor => ∃ doc, docs[index]? = some (some doc) ∧
          (finalIpsa program memory processors).processorDoc
            (renameOwn (procProc processors) processor) = some doc)
    {index : Nat} {stage : Stage} {gateway : Compiler.Gateway} {doc : ProcessorDoc}
    (emits : Emits program memory docs index stage gateway doc)
    (fits : ∀ levels, stageLevels program distribution.distributedLevels stage.stageId =
      some levels → levels.length ≤ maxLevel) :
    stageLevels program distribution.distributedLevels stage.stageId = some doc.levels ∧
      (stage.actionProc.map Prod.fst).mapM program.actions.lookupId = some doc.executor := by
  obtain ⟨isLive, _⟩ := lookupId_live emits.live
  obtain ⟨nonneg, _⟩ := stageId_placed emission (List.mem_map_of_mem isLive)
  have inside : index < procCount := emission.placed.length ▸ (List.getElem?_eq_some_iff.mp emits.at_).1
  obtain ⟨found, levels, looked, known, here⟩ := built.stages index inside stage.stageId emits.at_ nonneg
  rw [emits.live] at looked
  cases looked
  obtain ⟨document, at_, made⟩ := written index _ here
  rw [emits.doc] at at_
  cases at_
  obtain ⟨_, _, made⟩ := Option.bind_eq_some_iff.mp made
  obtain ⟨_, _, made⟩ := Option.bind_eq_some_iff.mp made
  obtain ⟨executor, actions, made⟩ := Option.bind_eq_some_iff.mp made
  cases made
  refine ⟨?_, actions⟩
  have small := fits levels known
  change _ = some ((chunks levels).drop _).flatten
  rw [taken_small emits.at_ nonneg known small, Nat.sub_self, List.drop_zero, (chunks_small small).2]
  exact known

private theorem document_alike (emission : Emission program distribution memory docs) {index : Nat}
    {stage : Stage} {gateway : Compiler.Gateway} {doc : ProcessorDoc}
    (emits : Emits program memory docs index stage gateway doc)
    (fits : ∀ levels, stageLevels program distribution.distributedLevels stage.stageId =
      some levels → levels.length ≤ maxLevel)
    (own : ∀ key target, (key, GatewayEntry.stage target) ∈ gateway.nextTable.keptEntries →
      target = -1 ∨ memory.physicalProcId[target.toNat]? = some target) :
    ∃ ideal, stageDocument program distribution memory stage = some ideal ∧
      DocumentAlike (Renamed memory.physicalProcId) doc ideal := by
  obtain ⟨processors, extraId, built, written⟩ := emission.processors
  obtain ⟨gatewayWritten, matcher, _⟩ := emission.stage_doc built written emits
  obtain ⟨levels, executor⟩ := stage_parts emission built written emits fits
  have refs := emission.loaded.gatewayRefs (live_positive emits) gateway (List.mem_of_getElem? emits.gateway)
  have valid : ∀ reference ∈ gateway.nextTable.stageRefs, ∃ number, procProc processors reference =
    some number ∧
      Renamed memory.physicalProcId reference number :=
    fun reference member => renamed_procProc emission built (refs reference member)
  have kept : ∀ key target, (key, GatewayEntry.stage target) ∈ gateway.nextTable.keptEntries →
      Renamed memory.physicalProcId target target := by
    intro key target member
    obtain ⟨position, listed, _⟩ := keptEntries_kept (procProc processors) member
    obtain ending | ⟨low, _⟩ := refs target (mem_stageRefs_entry (List.mem_of_getElem? listed))
    · exact .inl ⟨ending, ending⟩
    · obtain ending | same := own key target member
      · exact .inl ⟨ending, ending⟩
      · exact .inr ⟨low, low, same⟩
  obtain ⟨default, isDefault⟩ := Option.isSome_iff_exists.mp
    (emission.loaded.defaults gateway (List.mem_of_getElem? emits.gateway))
  have tables : Option.Rel (List.Forall₂ (TableAlike (Renamed memory.physicalProcId)))
      (stage.tableId.mapM (memory.tables.reorderStages (procProc processors)).lookupId)
      (stage.tableId.mapM memory.tables.lookupId) :=
    rel_mapM (List.forall₂_same.mpr fun _ _ => rfl) fun tableId other (same : tableId = other) =>
      same ▸ table_alike emission built (live_positive emits) tableId
  rw [matcher] at tables
  cases ideals : stage.tableId.mapM memory.tables.lookupId <;> rw [ideals] at tables <;> cases tables
  case some.some ideal alike =>
    have expressions : doc.gateway.expressions =
        gateway.expressions.map fun exp => (exp.op, operandDoc exp.left, operandDoc exp.right) := by
      obtain ⟨_, _, same⟩ := Option.bind_eq_some_iff.mp gatewayWritten
      rw [← Option.some.inj same]
      rfl
    obtain ⟨defaultWritten, entriesWritten⟩ := toIpsaValue_fields gatewayWritten
    rw [renameGateway, setDefaultNextId_default, isDefault, Option.map_some, Option.map_some,
      Option.some.injEq] at defaultWritten
    refine ⟨{ id := stage.stageId, levels := doc.levels, matcher := ideal, executor := doc.executor
              gateway := {
                expressions := doc.gateway.expressions
                default := default.toGateEntry
                entries := gateway.nextTable.entries.map fun entry =>
                  (entry.1, entry.2.toGateEntry) } }, ?_, ?_⟩
    · have gatewayDoc : gateway.toIpsaValue = some {
          expressions := doc.gateway.expressions
          default := default.toGateEntry
          entries := gateway.nextTable.entries.map fun entry => (entry.1, entry.2.toGateEntry) } := by
        rw [Compiler.Gateway.toIpsaValue, isDefault, expressions]
        rfl
      rw [stageDocument, levels, emits.gateway, ideals, executor]
      simp only [Option.bind_eq_bind, Option.bind_some, gatewayDoc]
      rfl
    · refine ⟨rfl, rfl, ?_, ?_, alike, rfl⟩
      · rw [← defaultWritten]
        exact entry_alike fun reference same => valid reference (mem_stageRefs_default (same ▸ isDefault))
      · rw [entriesWritten]
        exact entries_alike valid kept

/-! ### Processors -/

private theorem processor_alike (emission : Emission program distribution memory docs)
    {metadata : List MetadataEntry} {used : Pipeline}
    (pushes : Pushes docs metadata Pipeline.fresh used) {index : Nat} {stage : Stage}
    {gateway : Compiler.Gateway} {doc : ProcessorDoc}
    (emits : Emits program memory docs index stage gateway doc)
    (fits : ∀ levels, stageLevels program distribution.distributedLevels stage.stageId =
      some levels → levels.length ≤ maxLevel)
    (own : ∀ key target, (key, GatewayEntry.stage target) ∈ gateway.nextTable.keptEntries →
      target = -1 ∨ memory.physicalProcId[target.toNat]? = some target) :
    ∃ processor ideal, used.procs[index]? = some processor ∧
      placedStage program distribution memory stage = some ideal ∧
      processor.Alike (Renamed memory.physicalProcId) ideal := by
  obtain ⟨document, written, documents⟩ := document_alike emission emits fits own
  obtain ⟨calls, start, next, asked, found, pushed, isNext⟩ := pushes.pushed index doc emits.doc
  have started : start = .fresh index := by
    rw [Pipeline.fresh, List.getElem?_map] at found
    obtain ⟨position, at_, rfl⟩ := Option.map_eq_some_iff.mp found
    obtain ⟨_, same⟩ := List.getElem?_eq_some_iff.mp at_
    rw [← same, List.getElem_range]
  have place : memory.physicalProcId.idxOf stage.stageId = index := by
    obtain ⟨nonneg, _⟩ := stageId_placed emission (List.mem_map_of_mem (lookupId_live emits.live).1)
    exact emission.placed.once _ index stage.stageId
      (List.getElem?_idxOf (List.mem_of_getElem? emits.at_)) emits.at_ nonneg
  have requests := processorCalls_alike documents
  rw [asked] at requests
  cases ideals : processorCalls document <;> rw [ideals] at requests <;> cases requests
  case some.some idealCalls alike =>
    have processors := alike.push (@Dataplane.Processor.Alike.fresh (Renamed memory.physicalProcId) index)
    rw [← started, pushed] at processors
    cases result : idealCalls.push start <;> rw [result] at processors <;> cases processors
    case some.some ideal alike =>
      refine ⟨next, ideal, isNext, ?_, alike⟩
      rw [placedStage, written, Option.bind_eq_bind, Option.bind_some, ideals, Option.bind_eq_bind,
        Option.bind_some, place, ← started]
      exact result

/-- What a pushed configuration leaves, next to the pipeline of the stages. -/
theorem stagePipeline_alike (emission : Emission program distribution memory docs)
    {metadata : List MetadataEntry} {used : Pipeline} (pushes : Pushes docs metadata Pipeline.fresh used)
    (fits : ∀ stage ∈ liveStages program.stages.logicalStages, ∀ levels,
      stageLevels program distribution.distributedLevels stage.stageId = some levels →
        levels.length ≤ maxLevel)
    (own : ∀ stage ∈ liveStages program.stages.logicalStages, ∀ gateway,
      program.gateways[stage.gatewayId]? = some gateway →
      ∀ key target, (key, GatewayEntry.stage target) ∈ gateway.nextTable.keptEntries →
        target = -1 ∨ memory.physicalProcId[target.toNat]? = some target)
    (first : memory.physicalProcId[0]? = some 0) :
    ∃ ideal, stagePipeline program distribution memory metadata = some ideal ∧
      used.Alike (Renamed memory.physicalProcId) ideal := by
  have emits : ∀ stage ∈ liveStages program.stages.logicalStages, ∃ index gateway doc,
      Emits program memory docs index stage gateway doc := by
    intro stage live
    have member := List.mem_map_of_mem (f := Stage.gatewayId) (List.mem_filter.mp live).1
    rw [emission.loaded.gatewayIds, List.mem_range] at member
    obtain ⟨index, doc, emits⟩ := emission.emits live (List.getElem?_eq_getElem member)
    exact ⟨index, _, doc, emits⟩
  have staged : ∀ (number : Nat) (stageId : Int), memory.physicalProcId[number]? = some stageId →
    0 ≤ stageId →
      ∃ stage, (liveStages program.stages.logicalStages)[stageId.toNat]? = some stage ∧
          stage.stageId = stageId := by
    intro number stageId at_ low
    obtain ending | live := emission.placed.entries stageId (List.mem_of_getElem? at_)
    · omega
    · obtain ⟨stage, member, rfl⟩ := List.mem_map.mp live
      obtain ⟨position, here⟩ := List.mem_iff_getElem?.mp member
      have inside := (List.getElem?_eq_some_iff.mp here).1
      have same := congrArg (·[position]?) emission.loaded.numbered.live
      simp only [List.getElem?_map, here, Option.map_some, List.getElem?_range inside,
        Option.some.injEq] at same
      refine ⟨stage, ?_, rfl⟩
      rw [same, Int.toNat_natCast, here]
  obtain ⟨procs, built, alike⟩ : ∃ procs,
      (liveStages program.stages.logicalStages).mapM (placedStage program distribution memory) = some procs ∧
        List.Forall₂ (fun stage ideal => ∃ (index : Nat) (processor : Dataplane.Processor),
          memory.physicalProcId[index]? = some stage.stageId ∧ used.procs[index]? = some processor ∧
            processor.Alike (Renamed memory.physicalProcId) ideal) (liveStages
              program.stages.logicalStages) procs := by
    refine mapM_forall₂ fun stage live => ?_
    obtain ⟨index, gateway, doc, emits⟩ := emits stage live
    obtain ⟨processor, ideal, here, placed, processors⟩ :=
      processor_alike emission pushes emits (fits stage live) (own stage live gateway emits.gateway)
    exact ⟨ideal, placed, index, processor, emits.at_, here, processors⟩
  refine ⟨{ procs, metaInfos := sentMetaInfos metadata }, ?_, pushes.memory, ?_, ?_⟩
  · rw [stagePipeline, built]
    rfl
  · obtain ⟨stage, here, _⟩ := staged 0 0 first le_rfl
    obtain ⟨index, _, doc, emits⟩ := emits stage (List.mem_of_getElem? here)
    rw [pushes.metaInfos, if_pos (List.any_eq_true.mpr ⟨_, List.mem_of_getElem? emits.doc, rfl⟩)]
  · rintro own other (⟨rfl, rfl⟩ | ⟨low, low', at_⟩)
    · exact .none
    · obtain ⟨stage, here, same⟩ := staged other.toNat own at_ low
      obtain ⟨ideal, isIdeal, index, processor, placed, isUsed, processors⟩ := forall₂_right alike here
      have number : index = other.toNat := emission.placed.once _ _ own (same ▸ placed) at_ low
      rw [number] at isUsed
      rw [Pipeline.proc, Pipeline.proc, if_neg (by omega), if_neg (by omega), isUsed, isIdeal]
      exact .some processors

end

/-- The switch forwards every frame as the pipeline of the stages does, with whatever requests both have
taken since: no reference of a stage is lost or led astray by its placement. -/
theorem forward_stagePipeline (headers : HeaderLookup) (getHeader : String → Option Int)
    (sort : (Int → Int → Bool) → List Int → List Int) (levels : List Level) (ast : Ast) (program : Program)
    (distribution : DistributionResult) (memory : MemoryResult) (docs : List (Option ProcessorDoc))
    (metadata : List MetadataEntry) (requests : List Request) (used : Pipeline)
    (done : load headers levels ast = some program)
    (distributed : distributeParsers sort getHeader levels program.stages.logicalStages = some distribution)
    (placed : Placed program memory.physicalProcId)
    (tables : memory.tables.map tableTargets = program.tables.map tableTargets)
    (emitted : (allocateProcessors program distribution memory).bind Ipsa.toIpsaValue = some docs)
    (fits : ∀ stage ∈ liveStages program.stages.logicalStages, ∀ levels,
      stageLevels program distribution.distributedLevels stage.stageId = some levels →
        levels.length ≤ maxLevel)
    (own : ∀ stage ∈ liveStages program.stages.logicalStages, ∀ gateway,
      program.gateways[stage.gatewayId]? = some gateway →
      ∀ key target, (key, GatewayEntry.stage target) ∈ gateway.nextTable.keptEntries →
        target = -1 ∨ memory.physicalProcId[target.toNat]? = some target)
    (first : memory.physicalProcId[0]? = some 0)
    (sent : InitDataplane.extract docs metadata = some requests)
    (configured : Pipeline.fresh.configure requests = some used) :
    ∃ ideal, stagePipeline program distribution memory metadata = some ideal ∧
      ∀ later later', List.Forall₂ (Request.Alike (Renamed memory.physicalProcId)) later later' →
        Option.Rel (fun used ideal => ∀ scratch ifMacs fuel frame ifIndex,
          forward used scratch ifMacs fuel frame ifIndex = forward ideal scratch ifMacs fuel frame ifIndex)
          (used.configure later) (ideal.configure later') := by
  have emission := emission_of_passes done distributed placed tables emitted
  have pushes := configure_pushes sent rfl configured
  have numbering := numbering_renamed placed first
  obtain ⟨ideal, isIdeal, alike⟩ := stagePipeline_alike emission pushes fits own first
  refine ⟨ideal, isIdeal, fun later later' same => ?_⟩
  have after := alike.configure numbering same
  cases here : used.configure later <;> cases there : ideal.configure later' <;> rw [here,
    there] at after <;> cases after
  case none.none => exact .none
  case some.some alike => exact .some (alike.forward numbering)

/-- Stage `a` leads on to stage `c`, and `c` to stage `b`, which comes last on the processors. -/
def relayAst : Ast where
  actions := [⟨"go", [], []⟩, ⟨"stop", [], []⟩]
  tables := ["t", "u"].map fun name =>
    { name, keys := [(.field "hdr" "h" "f", .exact)], optionalStmts := [.size 1024, .valueWidth 16] }
  ingress := [
    { name := "a", parser := [], executor := [⟨"go", "c"⟩, ⟨"stop", "none"⟩],
      matcher := ⟨[], [⟨.default, .table "t"⟩]⟩ },
    { name := "b", parser := [], executor := [], matcher := ⟨[], [⟨.default, .none⟩]⟩ },
    { name := "c", parser := [], executor := [⟨"go", "b"⟩, ⟨"stop", "none"⟩],
      matcher := ⟨[], [⟨.default, .table "u"⟩]⟩ }]
  egress := []

def relayHeaders : HeaderLookup := fun _ => some { fieldLength := 8 }

def relayProgram : Program := (load relayHeaders [] relayAst).get (by decide)

def relayDistribution : DistributionResult :=
  (distributeParsers (fun _ items => items) (fun _ => none) [] relayProgram.stages.logicalStages).get
    (by decide)

def relayMemory : MemoryResult :=
  (allocateMemory relayProgram.tables relayProgram.stages.logicalStages
    relayDistribution.topoSequence).get (by decide)

def relayDocs : List (Option ProcessorDoc) :=
  ((allocateProcessors relayProgram relayDistribution relayMemory).bind Ipsa.toIpsaValue).get (by decide)

def relayRequests : List Request := (InitDataplane.extract relayDocs []).get (by decide)

theorem relay_own : ∀ stage ∈ liveStages relayProgram.stages.logicalStages, ∀ gateway,
    relayProgram.gateways[stage.gatewayId]? = some gateway →
      ∀ key target, (key, GatewayEntry.stage target) ∈ gateway.nextTable.keptEntries →
        target = -1 ∨ relayMemory.physicalProcId[target.toNat]? = some target := by
  have kept : ∀ stage ∈ liveStages relayProgram.stages.logicalStages,
      ∀ gateway ∈ relayProgram.gateways[stage.gatewayId]?, gateway.nextTable.keptEntries = [] := by decide
  intro stage live gateway hasGateway key target member
  rw [kept stage live gateway hasGateway] at member
  cases member

theorem relay_small : ∀ stage ∈ liveStages relayProgram.stages.logicalStages, ∀ levels,
    stageLevels relayProgram relayDistribution.distributedLevels stage.stageId = some levels →
      levels.length ≤ maxLevel := by
  have fits : ∀ stage ∈ liveStages relayProgram.stages.logicalStages,
      ∀ levels ∈ stageLevels relayProgram relayDistribution.distributedLevels stage.stageId,
          levels.length ≤ maxLevel := by
    decide
  exact fits

theorem forward_stagePipeline_relay : relayMemory.physicalProcId.take 3 = [0, 2, 1] ∧
    ∃ used ideal, Pipeline.fresh.configure relayRequests = some used ∧
      stagePipeline relayProgram relayDistribution relayMemory [] = some ideal ∧
      ∀ later later', List.Forall₂ (Request.Alike (Renamed relayMemory.physicalProcId)) later later' →
        Option.Rel (fun used ideal => ∀ scratch ifMacs fuel frame ifIndex,
          forward used scratch ifMacs fuel frame ifIndex = forward ideal scratch ifMacs fuel frame ifIndex)
          (used.configure later) (ideal.configure later') := by
  have placed : Placed relayProgram relayMemory.physicalProcId :=
    placed_of_cells rfl (by decide) (by decide) (by decide)
  obtain ⟨used, configured⟩ := Option.isSome_iff_exists.mp
    (show (Pipeline.fresh.configure relayRequests).isSome = true by decide)
  obtain ⟨ideal, isIdeal, same⟩ :=
    forward_stagePipeline relayHeaders (fun _ => none) (fun _ items => items) [] relayAst
    relayProgram relayDistribution relayMemory relayDocs [] relayRequests used
      (Option.some_get _).symm (Option.some_get _).symm
    placed (by decide) (Option.some_get _).symm relay_small relay_own rfl (Option.some_get _).symm configured
  exact ⟨by decide, used, ideal, configured, isIdeal, same⟩

end Ipbm.System
