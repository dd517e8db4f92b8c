import Ipbm.Compiler.AllocationProperties

/-! References between the stages of an emitted configuration, and the numbers
they have before and after the stages are given physical processors. -/

set_option autoImplicit false

namespace Ipbm.Compiler
open Lib Dataplane IpsaConfiguration ProcessorManager Builder
open Distribution (liveStages)

/-- A reference to a stage: the number before `allocateProcessors`, and the one that is emitted
in its place. -/
inductive Reference (program : Program) (memory : MemoryResult) (docs : List (Option ProcessorDoc)) :
    Int → Int → Prop
  | default {index : Nat} {stage : Stage} {gateway : Gateway} {doc : ProcessorDoc} {before after : Int}
      (emits : Emits program memory docs index stage gateway doc)
      (old : gateway.nextTable.default = some (.stage before)) (new : doc.gateway.default = ⟨.stage, after⟩) :
      Reference program memory docs before after
  | entry {index : Nat} {stage : Stage} {gateway : Gateway} {doc : ProcessorDoc} {before after : Int}
      {position : Nat} {key emittedKey : Int} (emits : Emits program memory docs index stage gateway doc)
      (old : gateway.nextTable.entries[position]? = some (key, .stage before))
      (new : doc.gateway.entries[position]? = some (emittedKey, ⟨.stage, after⟩)) :
      Reference program memory docs before after
  | action {index : Nat} {stage : Stage} {gateway : Gateway} {doc : ProcessorDoc} {before after : Int}
      {position pair : Nat} {tableId actionId emittedActionId : Int} {table emitted : Table}
      (emits : Emits program memory docs index stage gateway doc)
        (listed : stage.tableId[position]? = some tableId)
      (found : memory.tables.lookupId tableId = some table) (written : doc.matcher[position]? = some emitted)
      (old : table.actionToProc[pair]? = some (actionId, before))
      (new : emitted.actionToProc[pair]? = some (emittedActionId, after)) :
      Reference program memory docs before after

/-- The new number is the processor that holds the stage of the old one, or both are -1. -/
def Renamed (physicalProcId : List Int) (before after : Int) : Prop :=
  before = -1 ∧ after = -1 ∨ 0 ≤ before ∧ 0 ≤ after ∧ physicalProcId[after.toNat]? = some before

/-- The entries behind no default pointer. -/
def NextTable.keptEntries (table : NextTable) : List (Int × GatewayEntry) :=
  match table.defaultEntry with
  | some _ => table.entries
  | none => table.entries.tail

@[simp] theorem setDefaultNextId_default (procProc : Int → Option Int) (table : NextTable) :
    (table.setDefaultNextId procProc).default = table.default.map (GatewayEntry.setNextId procProc) := by
  obtain ⟨default, entries⟩ := table
  cases default with
  | some entry => rfl
  | none => cases entries <;> rfl

theorem setDefaultNextId_entries (procProc : Int → Option Int) {table : NextTable} {position : Nat}
    {key : Int} {entry : GatewayEntry} (here : table.entries[position]? = some (key, entry)) :
    (table.defaultEntry = none ∧ table.default = some entry ∧
        (table.setDefaultNextId procProc).entries[position]? = some (key, entry.setNextId procProc)) ∨
      (key, entry) ∈ table.keptEntries ∧
        (table.setDefaultNextId procProc).entries[position]? = some (key, entry) := by
  obtain ⟨default, entries⟩ := table
  cases default with
  | some default => exact .inr ⟨List.mem_of_getElem? here, here⟩
  | none =>
      cases entries with
      | nil => cases here
      | cons first rest =>
          cases position with
          | zero =>
              cases here
              exact .inl ⟨rfl, rfl, rfl⟩
          | succ position => exact .inr ⟨List.mem_of_getElem? here, here⟩

theorem keptEntries_kept (procProc : Int → Option Int) {table : NextTable} {row : Int × GatewayEntry}
    (kept : row ∈ table.keptEntries) :
    ∃ position : Nat, table.entries[position]? = some row ∧
      (table.setDefaultNextId procProc).entries[position]? = some row := by
  obtain ⟨default, entries⟩ := table
  cases default with
  | some default =>
      obtain ⟨position, here⟩ := List.mem_iff_getElem?.mp kept
      exact ⟨position, here, here⟩
  | none =>
      cases entries with
      | nil => cases kept
      | cons first rest =>
          obtain ⟨position, here⟩ := List.mem_iff_getElem?.mp kept
          exact ⟨position + 1, here, here⟩

theorem mem_stageRefs_default {table : NextTable} {reference : Int}
    (default : table.default = some (.stage reference)) :
    reference ∈ table.stageRefs := by
  obtain ⟨entry, entries⟩ := table
  refine List.mem_filterMap.mpr ⟨.stage reference, ?_, rfl⟩
  cases entry with
  | some entry =>
      cases default
      simp
  | none =>
      cases entries with
      | nil => cases default
      | cons first rest =>
          have same : first.2 = .stage reference := Option.some.inj default
          exact List.mem_append_right _ (same ▸ List.mem_cons_self)

theorem mem_stageRefs_entry {table : NextTable} {key reference : Int}
    (listed : (key, GatewayEntry.stage reference) ∈ table.entries) : reference ∈ table.stageRefs :=
  List.mem_filterMap.mpr ⟨.stage reference,
    List.mem_append_right _ (List.mem_map_of_mem (f := Prod.snd) listed), rfl⟩

section

variable {program : Program} {distribution : DistributionResult} {memory : MemoryResult}
  {docs : List (Option ProcessorDoc)}

theorem live_positive {index : Nat} {stage : Stage} {gateway : Gateway} {doc : ProcessorDoc}
    (emits : Emits program memory docs index stage gateway doc) :
    0 < (liveStages program.stages.logicalStages).length :=
  List.length_pos_of_mem (lookupId_live emits.live).1

/-- A valid reference, looked up in the map of processor numbers, is renamed. -/
theorem renamed_procProc (emission : Emission program distribution memory docs) {processors : Processors}
    {extraId : Int} (built : Built program distribution memory.physicalProcId procCount (processors, extraId))
    {reference : Int} (valid : ValidRef (liveStages program.stages.logicalStages).length reference) :
    ∃ number, procProc processors reference = some number ∧
      Renamed memory.physicalProcId reference number := by
  obtain rfl | ⟨low, high⟩ := valid
  · exact ⟨-1, procProc_ending processors, .inl ⟨rfl, rfl⟩⟩
  · have live : reference ∈ (liveStages program.stages.logicalStages).map Stage.stageId := by
      rw [emission.loaded.numbered.live]
      exact List.mem_map.mpr ⟨reference.toNat, List.mem_range.mpr (by omega), by omega⟩
    obtain ⟨index, at_⟩ := List.mem_iff_getElem?.mp (emission.placed.all reference live)
    exact ⟨index, procProc_stage emission.placed emission.ordered built at_ low,
      .inr ⟨low, Int.natCast_nonneg index, by simpa using at_⟩⟩

theorem toIpsaValue_fields {gateway : Gateway} {doc : GatewayDoc}
    (written : gateway.toIpsaValue = some doc) :
    gateway.nextTable.default.map GatewayEntry.toGateEntry = some doc.default ∧
      doc.entries = gateway.nextTable.entries.map fun entry => (entry.1, entry.2.toGateEntry) := by
  obtain ⟨default, found, written⟩ := Option.bind_eq_some_iff.mp written
  cases written
  exact ⟨by rw [found, Option.map_some], rfl⟩

theorem tableTargets_mem (emission : Emission program distribution memory docs) {tableId : Int}
    {table : Table} (found : memory.tables.lookupId tableId = some table) :
    ∃ entry ∈ program.tables, entry.2.actionToProc = table.actionToProc := by
  obtain ⟨entry, first, rfl⟩ := Option.map_eq_some_iff.mp found
  have member : tableTargets entry ∈ program.tables.map tableTargets := by
    rw [← emission.tables]
    exact List.mem_map_of_mem (List.mem_of_find?_eq_some first)
  obtain ⟨source, inside, same⟩ := List.mem_map.mp member
  exact ⟨source, inside, congrArg Prod.snd same⟩

/-- Every reference is renamed, or is an entry behind no default pointer and keeps its number. -/
theorem Emission.reference_cases (emission : Emission program distribution memory docs) {before after : Int}
    (reference : Reference program memory docs before after) :
    ValidRef (liveStages program.stages.logicalStages).length before ∧
      (Renamed memory.physicalProcId before after ∨
        after = before ∧ ∃ stage ∈ liveStages program.stages.logicalStages, ∃ gateway key,
          program.gateways[stage.gatewayId]? = some gateway ∧
            (key, GatewayEntry.stage before) ∈ gateway.nextTable.keptEntries) := by
  obtain ⟨processors, extraId, built, written⟩ := emission.processors
  cases reference with
  | @default index stage gateway doc before after emits old new =>
      have valid :=
        emission.loaded.gatewayRefs (live_positive emits) gateway (List.mem_of_getElem? emits.gateway)
        before (mem_stageRefs_default old)
      obtain ⟨number, found, renamed⟩ := renamed_procProc emission built valid
      obtain ⟨gatewayWritten, _⟩ := emission.stage_doc built written emits
      have default := (toIpsaValue_fields gatewayWritten).1
      rw [renameGateway, setDefaultNextId_default, old, new] at default
      simp only [Option.map_some, GatewayEntry.setNextId, found, Option.getD_some, GatewayEntry.toGateEntry,
        Option.some.injEq, GateEntry.mk.injEq, true_and] at default
      subst default
      exact ⟨valid, .inl renamed⟩
  | @entry index stage gateway doc before after position key emittedKey emits old new =>
      have valid :=
        emission.loaded.gatewayRefs (live_positive emits) gateway (List.mem_of_getElem? emits.gateway)
        before (mem_stageRefs_entry (List.mem_of_getElem? old))
      obtain ⟨number, found, renamed⟩ := renamed_procProc emission built valid
      obtain ⟨gatewayWritten, _⟩ := emission.stage_doc built written emits
      have entries := (toIpsaValue_fields gatewayWritten).2
      rw [entries, List.getElem?_map] at new
      obtain ⟨_, _, same⟩ | ⟨kept, same⟩ := setDefaultNextId_entries (procProc processors) old
      · rw [renameGateway, same] at new
        simp only [Option.map_some, GatewayEntry.setNextId, found, Option.getD_some, GatewayEntry.toGateEntry,
          Option.some.injEq, Prod.mk.injEq, GateEntry.mk.injEq, true_and] at new
        obtain ⟨_, rfl⟩ := new
        exact ⟨valid, .inl renamed⟩
      · rw [renameGateway, same] at new
        simp only [Option.map_some, GatewayEntry.toGateEntry, Option.some.injEq, Prod.mk.injEq,
          GateEntry.mk.injEq, true_and] at new
        exact ⟨valid, .inr ⟨new.2.symm, stage, (lookupId_live emits.live).1, gateway, key,
          emits.gateway, kept⟩⟩
  | @action index stage gateway doc before after position pair tableId actionId emittedId table
      emitted emits listed
      found made old new =>
      obtain ⟨entry, inside, same⟩ := tableTargets_mem emission found
      have valid := emission.loaded.tableRefs (live_positive emits) entry inside (actionId, before)
        (same ▸ List.mem_of_getElem? old)
      obtain ⟨number, mapped, renamed⟩ := renamed_procProc emission built valid
      obtain ⟨_, matcher, _⟩ := emission.stage_doc built written emits
      obtain ⟨bound, isTable⟩ := List.getElem?_eq_some_iff.mp listed
      have step := getElem_of_mapM_some matcher bound
      rw [isTable, lookupId_reorder, found, Option.map_some, made] at step
      cases step
      simp only [List.getElem?_map, old, Option.map_some, mapped, Option.getD_some, Option.some.injEq,
        Prod.mk.injEq] at new
      obtain ⟨_, rfl⟩ := new
      exact ⟨valid, .inl renamed⟩

/-- A kept entry is emitted with the number it has. -/
theorem Emission.kept_reference (emission : Emission program distribution memory docs) {stage : Stage}
    (live : stage ∈ liveStages program.stages.logicalStages) {gateway : Gateway}
    (hasGateway : program.gateways[stage.gatewayId]? = some gateway) {key reference : Int}
    (kept : (key, GatewayEntry.stage reference) ∈ gateway.nextTable.keptEntries) :
    Reference program memory docs reference reference := by
  obtain ⟨processors, extraId, built, written⟩ := emission.processors
  obtain ⟨index, doc, emits⟩ := emission.emits live hasGateway
  obtain ⟨gatewayWritten, _⟩ := emission.stage_doc built written emits
  obtain ⟨position, old, new⟩ := keptEntries_kept (procProc processors) kept
  have emitted : doc.gateway.entries[position]? = some (key, ⟨.stage, reference⟩) := by
    rw [(toIpsaValue_fields gatewayWritten).2, List.getElem?_map, renameGateway, new]
    rfl
  exact .entry emits old emitted

end

/-- The hypotheses of an emission, from the passes themselves. -/
theorem emission_of_passes {headers : HeaderLookup} {getHeader : String → Option Int}
    {sort : (Int → Int → Bool) → List Int → List Int} {levels : List Level} {ast : Ast} {program : Program}
    {distribution : DistributionResult} {memory : MemoryResult} {docs : List (Option ProcessorDoc)}
    (done : load headers levels ast = some program)
    (distributed : distributeParsers sort getHeader levels program.stages.logicalStages = some distribution)
    (placed : Placed program memory.physicalProcId)
    (tables : memory.tables.map tableTargets = program.tables.map tableTargets)
    (emitted : (allocateProcessors program distribution memory).bind Ipsa.toIpsaValue = some docs) :
    Emission program distribution memory docs := by
  have loaded := load_loaded done
  exact ⟨loaded, fun id => ((distributeParsers_order loaded distributed).2.2 id).mpr, placed, tables, emitted⟩

/-- After `allocateProcessors` every reference names the processor of its stage exactly when the
switch entries that no default points to name stages placed under their own number. -/
theorem references_renamed_iff (headers : HeaderLookup) (getHeader : String → Option Int)
    (sort : (Int → Int → Bool) → List Int → List Int) (levels : List Level) (ast : Ast) (program : Program)
    (distribution : DistributionResult) (memory : MemoryResult) (docs : List (Option ProcessorDoc))
    (done : load headers levels ast = some program)
    (distributed : distributeParsers sort getHeader levels program.stages.logicalStages = some distribution)
    (placed : Placed program memory.physicalProcId)
    (tables : memory.tables.map tableTargets = program.tables.map tableTargets)
    (emitted : (allocateProcessors program distribution memory).bind Ipsa.toIpsaValue = some docs) :
    (∀ before after, Reference program memory docs before after →
      Renamed memory.physicalProcId before after) ↔
      ∀ stage ∈ liveStages program.stages.logicalStages, ∀ gateway,
        program.gateways[stage.gatewayId]? = some gateway →
        ∀ key target, (key, GatewayEntry.stage target) ∈ gateway.nextTable.keptEntries →
          target = -1 ∨ memory.physicalProcId[target.toNat]? = some target := by
  have emission := emission_of_passes done distributed placed tables emitted
  constructor
  · intro renamed stage live gateway hasGateway key target kept
    obtain ⟨ending, _⟩ | ⟨_, _, same⟩ :=
      renamed target target (emission.kept_reference live hasGateway kept)
    · exact .inl ending
    · exact .inr same
  · intro own before after reference
    obtain ⟨valid, renamed | ⟨rfl, stage, live, gateway, key, hasGateway, kept⟩⟩ :=
      emission.reference_cases reference
    · exact renamed
    · obtain ending | same := own stage live gateway hasGateway key _ kept
      · exact .inl ⟨ending, ending⟩
      · obtain ending | ⟨low, _⟩ := valid
        · exact .inl ⟨ending, ending⟩
        · exact .inr ⟨low, low, same⟩

/-- Stage `a` goes on to stage `b` when its condition holds. -/
def forkAst : Ast where
  actions := []
  tables := []
  ingress := [
    { name := "a", parser := [], executor := []
      matcher := ⟨[.literal 1], [⟨.exact 1, .stage "b"⟩, ⟨.default, .none⟩]⟩ },
    { name := "b", parser := [], executor := [], matcher := ⟨[], [⟨.default, .none⟩]⟩ }]
  egress := []

def forkProgram : Program := (load (fun _ => none) [] forkAst).get (by decide)

def forkDistribution : DistributionResult :=
  (distributeParsers (fun _ items => items) (fun _ => none) [] forkProgram.stages.logicalStages).get
    (by decide)

/-- Stage `a` on processor 0 and stage `b` on processor `second`. -/
def forkMemory (second : Nat) : MemoryResult :=
  ⟨forkProgram.tables, ((List.replicate procCount (-1)).set 0 0).set second 1⟩

def forkDocs (second : Nat) : List (Option ProcessorDoc) :=
  ((allocateProcessors forkProgram forkDistribution (forkMemory second)).bind Ipsa.toIpsaValue).getD []

theorem references_renamed_fork :
    (allocateProcessors forkProgram forkDistribution (forkMemory 1)).bind Ipsa.toIpsaValue =
      some (forkDocs 1) ∧
      ∀ before after, Reference forkProgram (forkMemory 1) (forkDocs 1) before after →
        Renamed (forkMemory 1).physicalProcId before after := by
  have placed : Placed forkProgram (forkMemory 1).physicalProcId :=
    placed_of_cells rfl (by decide) (by decide) (by decide)
  refine ⟨rfl, (references_renamed_iff (fun _ => none) (fun _ => none)
    (fun _ items => items) [] forkAst forkProgram
    forkDistribution (forkMemory 1) (forkDocs 1) rfl rfl placed rfl rfl).mpr ?_⟩
  have kept : ∀ stage ∈ liveStages forkProgram.stages.logicalStages,
      ∀ gateway ∈ forkProgram.gateways[stage.gatewayId]?, ∀ row ∈ gateway.nextTable.keptEntries,
        row.2 = .stage 1 := by decide
  intro stage live gateway hasGateway key target member
  cases kept stage live gateway hasGateway _ member
  exact .inr rfl

/-- With stage `b` on processor 4 the switch entry of stage `a` still says 1, where nothing is. -/
theorem references_renamed_fork_lost :
    (allocateProcessors forkProgram forkDistribution (forkMemory 4)).bind Ipsa.toIpsaValue =
      some (forkDocs 4) ∧
      Placed forkProgram (forkMemory 4).physicalProcId ∧ (forkMemory 4).physicalProcId[4]? = some 1 ∧
      Reference forkProgram (forkMemory 4) (forkDocs 4) 1 1 ∧ (forkDocs 4)[1]? = some none ∧
      ¬ Renamed (forkMemory 4).physicalProcId 1 1 := by
  have placed : Placed forkProgram (forkMemory 4).physicalProcId :=
    placed_of_cells rfl (by decide) (by decide) (by decide)
  have emission : Emission forkProgram forkDistribution (forkMemory 4) (forkDocs 4) :=
    @emission_of_passes (fun _ => none) (fun _ => none)
      (fun _ items => items) [] forkAst _ _ _ _ rfl rfl placed rfl rfl
  obtain ⟨stage, live, gateway, hasGateway, kept⟩ :
      ∃ stage ∈ liveStages forkProgram.stages.logicalStages,
        ∃ gateway ∈ forkProgram.gateways[stage.gatewayId]?,
        (1, GatewayEntry.stage 1) ∈ gateway.nextTable.keptEntries := by decide
  exact ⟨rfl, placed, rfl, emission.kept_reference live hasGateway kept, rfl, by unfold Renamed; decide⟩
end Ipbm.Compiler
