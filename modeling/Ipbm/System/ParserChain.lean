import Ipbm.Lib.Paths
import Ipbm.Compiler.Compilation
import Ipbm.System.InServiceUpdate
import Mathlib.Data.List.Sort

/-! Stages with more levels than a processor holds. All runs of their levels but the
last are moved to parser-only processors, and a packet is offered them only if it
comes that way. -/

set_option autoImplicit false

namespace Ipbm.System
open Lib Dataplane Compiler IpsaConfiguration Builder
open Compiler.Distribution (liveStages)

/-! ### Runs of levels -/

private theorem flatten_chunks (levels : List Level) : (chunks levels).flatten = levels := by
  have general : ∀ count, ((List.range count).map fun index =>
      (levels.drop (index * maxLevel)).take maxLevel).flatten = levels.take (count * maxLevel) := by
    intro count
    induction count with
    | zero => simp
    | succ count ih =>
        rw [List.range_succ, List.map_append, List.flatten_append, ih, Nat.succ_mul, List.take_add]
        simp
  rw [chunks, general, List.take_of_length_le]
  simp only [maxLevel]
  omega

private theorem chunk_length {levels run : List Level} (member : run ∈ chunks levels) :
    run.length ≤ maxLevel := by
  obtain ⟨index, _, rfl⟩ := List.mem_map.mp member
  exact List.length_take_le _ _

private theorem chunks_length (levels : List Level) :
    (chunks levels).length ≤ 1 ↔ levels.length ≤ maxLevel := by
  simp only [chunks, List.length_map, List.length_range, maxLevel]
  omega

section

variable (program : Program) (distribution : DistributionResult) (physicalProcId : List Int)

/-- The processors with the levels of the stage on `index`, in the order of the levels: the free ones
its first runs take, and its own. -/
def parserChain (index : Nat) : List Int :=
  (((freeSlots physicalProcId).drop (taken program distribution physicalProcId index)).take
    ((runsAt program distribution.distributedLevels physicalProcId index).length - 1) ++ [index]).map
      fun (slot : Nat) => (slot : Int)

/-- There is a free processor for every run that is moved. -/
def EnoughSlots : Prop :=
  runsBefore program distribution.distributedLevels physicalProcId procCount ≤
    (freeSlots physicalProcId).length

instance : Decidable (EnoughSlots program distribution physicalProcId) := inferInstanceAs (Decidable (_ ≤ _))

end

/-- The levels a processor offers. -/
def levelsAt (docs : List (Option ProcessorDoc)) (procId : Int) : List Level :=
  match docs[procId.toNat]? with
  | some (some doc) => doc.levels
  | _ => []

/-- The processors of a chain hold the levels, in order and no more than a processor can, and every
path to the last of them, from the first processor or from any in front of the chain, has passed the chain. -/
structure Offered (docs : List (Option ProcessorDoc)) (chain : List Int) (levels : List Level) : Prop where
  held : chain.flatMap (levelsAt docs) = levels
  small : ∀ procId ∈ chain, (levelsAt docs procId).length ≤ maxLevel
  passed : ∀ path : List Int, path.IsChain (HasTarget docs) →
    (path.head? = some 0 ∨ ∀ first ∈ path.head?, first ∉ chain.tail) →
      path.getLast? = chain.getLast? → chain <:+ path

section

variable {program : Program} {distribution : DistributionResult} {physicalProcId : List Int}

private theorem taken_eq (enough : EnoughSlots program distribution physicalProcId) {index : Nat}
    (inside : index ≤ procCount) : taken program distribution physicalProcId index =
      runsBefore program distribution.distributedLevels physicalProcId index :=
  min_eq_left (le_trans (runsBefore_mono inside) enough)

private theorem slot_bound (enough : EnoughSlots program distribution physicalProcId) {index : Nat}
    (inside : index < procCount) : taken program distribution physicalProcId index +
      ((runsAt program distribution.distributedLevels physicalProcId index).length - 1) ≤
        (freeSlots physicalProcId).length := by
  rw [taken_eq enough inside.le, ← runsBefore_succ]
  exact le_trans (runsBefore_mono inside) enough

private theorem parserChain_length (enough : EnoughSlots program distribution physicalProcId) {index : Nat}
    (inside : index < procCount) : (parserChain program distribution physicalProcId index).length =
      (runsAt program distribution.distributedLevels physicalProcId index).length - 1 + 1 := by
  have bound := slot_bound enough inside
  simp only [parserChain, List.length_map, List.length_append, List.length_take, List.length_drop,
    List.length_singleton]
  omega

private theorem parserChain_extra (enough : EnoughSlots program distribution physicalProcId) {index : Nat}
    (inside : index < procCount) (position : Nat)
    (early : position < (runsAt program distribution.distributedLevels physicalProcId index).length - 1) :
    ∃ slot, (freeSlots physicalProcId)[taken program distribution physicalProcId index +
      position]? = some slot ∧
      (parserChain program distribution physicalProcId index)[position]? = some (slot : Int) := by
  have bound := slot_bound enough inside
  have small : taken program distribution physicalProcId index + position <
    (freeSlots physicalProcId).length := by omega
  refine ⟨(freeSlots physicalProcId)[taken program distribution physicalProcId index + position],
    List.getElem?_eq_getElem small, ?_⟩
  rw [parserChain, List.getElem?_map, List.getElem?_append_left (by simp; omega),
    List.getElem?_take_of_lt early, List.getElem?_drop, List.getElem?_eq_getElem small, Option.map_some]

private theorem parserChain_own (enough : EnoughSlots program distribution physicalProcId) {index : Nat}
    (inside : index < procCount) : (parserChain program distribution physicalProcId index)[
      (runsAt program distribution.distributedLevels physicalProcId index).length - 1]? =
        some (index : Int) := by
  have bound := slot_bound enough inside
  have length : (((freeSlots physicalProcId).drop (taken program distribution physicalProcId index)).take
      ((runsAt program distribution.distributedLevels physicalProcId index).length - 1)).length =
        (runsAt program distribution.distributedLevels physicalProcId index).length - 1 := by
    simp only [List.length_take, List.length_drop]
    omega
  rw [parserChain, List.getElem?_map, List.getElem?_append_right (by omega), length, Nat.sub_self]
  rfl

end

/-! ### The documents of a chain -/

section

variable {program : Program} {distribution : DistributionResult} {memory : MemoryResult}
  {docs : List (Option ProcessorDoc)}

private theorem extra_doc {processors : Processors} {stageId extraId : Int} {run : List Level} {last : Bool}
    {doc : ProcessorDoc} (made : (finalIpsa program memory processors).processorDoc
      (renameOwn (procProc processors) (extraProcessor stageId extraId run last)) = some doc) :
    doc.levels = run ∧ docTargets doc = [(procProc processors (if last then stageId else extraId + 1)).getD
      (if last then stageId else extraId + 1)] := by
  cases made
  exact ⟨rfl, rfl⟩

private theorem extra_next (emission : Emission program distribution memory docs)
    (enough : EnoughSlots program distribution memory.physicalProcId) {index : Nat} {stageId : Int}
    (at_ : memory.physicalProcId[index]? = some stageId) (nonneg : 0 ≤ stageId) {position slot : Nat}
    (early : position <
      (runsAt program distribution.distributedLevels memory.physicalProcId index).length - 1)
    (slotAt : (freeSlots memory.physicalProcId)[taken program distribution memory.physicalProcId
      index + position]? = some slot) :
    ∃ doc next, docs[slot]? = some (some doc) ∧
      (runsAt program distribution.distributedLevels memory.physicalProcId index)[position]? =
        some doc.levels ∧
      (parserChain program distribution memory.physicalProcId index)[position + 1]? = some next ∧
      docTargets doc = [next] := by
  obtain ⟨processors, extraId, built, written⟩ := emission.processors
  have inside : index < procCount := emission.placed.length ▸ (List.getElem?_eq_some_iff.mp at_).1
  obtain ⟨run, runAt⟩ : ∃ run, (runsAt program distribution.distributedLevels memory.physicalProcId
    index)[position]? =
      some run := ⟨_, List.getElem?_eq_getElem (by omega)⟩
  have here := built.extras index inside stageId at_ nonneg position run slot runAt (by omega) slotAt
  obtain ⟨doc, isDoc, made⟩ := written slot _ here
  obtain ⟨sameLevels, targets⟩ := extra_doc made
  refine ⟨doc, _, isDoc, sameLevels ▸ runAt, ?_, targets⟩
  by_cases last : position + 2 =
    (runsAt program distribution.distributedLevels memory.physicalProcId index).length
  · have isLast : (position + 2 ==
        (runsAt program distribution.distributedLevels memory.physicalProcId
          index).length) = true := by simpa using last
    rw [isLast, if_pos rfl, procProc_stage emission.placed emission.ordered built at_ nonneg,
      Option.getD_some]
    have own := parserChain_own enough inside
    rwa [← last] at own
  · have notLast : (position + 2 ==
        (runsAt program distribution.distributedLevels memory.physicalProcId
          index).length) = false := by simpa using last
    obtain ⟨next, nextAt, inChain⟩ := parserChain_extra enough inside (position + 1) (by omega)
    obtain ⟨nextRun, nextRunAt⟩ : ∃ run,
        (runsAt program distribution.distributedLevels memory.physicalProcId index)[position + 1]? =
            some run :=
      ⟨_, List.getElem?_eq_getElem (by omega)⟩
    have there :=
      built.extras index inside stageId at_ nonneg (position + 1) nextRun next nextRunAt (by omega) nextAt
    obtain ⟨ordinary, unique⟩ := processor_ids emission.placed emission.ordered built there
    have found : procProc processors (extraProcessorId distribution.topoSequence +
        ((taken program distribution memory.physicalProcId index + (position + 1) : Nat) :
          Int)) = some (next : Int) :=
      procProc_found ordinary unique there
    have number : extraProcessorId distribution.topoSequence +
        ((taken program distribution memory.physicalProcId index + position : Nat) : Int) + 1 =
          extraProcessorId distribution.topoSequence +
            ((taken program distribution memory.physicalProcId index + (position + 1) : Nat) : Int) := by
      push_cast
      ring
    rw [notLast, if_neg (by simp), number, found, Option.getD_some]
    exact inChain

/-- The targets a stage has before the stages are renamed: those that are renamed, and those that are not. -/
inductive Names (memory : MemoryResult) (stage : Stage) (gateway : Compiler.Gateway) (target : Int) : Prop
  | default (entry : gateway.nextTable.default = some (.stage target))
  | action {tableId : Int} {table : Table} {pair : Int × Int} (listed : tableId ∈ stage.tableId)
      (found : memory.tables.lookupId tableId = some table) (member : pair ∈ table.actionToProc)
      (same : pair.2 = target)

private theorem mem_docTargets {doc : ProcessorDoc} {target : Int} : target ∈ docTargets doc ↔
    doc.gateway.default = ⟨.stage, target⟩ ∨ (∃ key, (key, ⟨.stage, target⟩) ∈ doc.gateway.entries) ∨
      ∃ table ∈ doc.matcher, ∃ pair ∈ table.actionToProc, pair.2 = target := by
  have entry : ∀ entry : GateEntry, (entry.type = .stage ∧ entry.val = target) ↔
      entry = ⟨.stage, target⟩ := by
    rintro ⟨type, value⟩
    simp
  simp only [docTargets, List.mem_append, List.mem_map, List.mem_filter, List.mem_cons, decide_eq_true_eq,
    List.mem_flatMap]
  constructor
  · rintro (⟨found, ⟨first | ⟨row, member, rfl⟩, isStage⟩, value⟩ | action)
    · exact .inl (first ▸ (entry found).mp ⟨isStage, value⟩)
    · exact .inr (.inl ⟨row.1, by rwa [← (entry row.2).mp ⟨isStage, value⟩]⟩)
    · exact .inr (.inr action)
  · rintro (default | ⟨key, member⟩ | action)
    · exact .inl ⟨_, ⟨.inl default.symm, rfl⟩, rfl⟩
    · exact .inl ⟨_, ⟨.inr ⟨_, member, rfl⟩, rfl⟩, rfl⟩
    · exact .inr action

private theorem mem_setDefaultNextId (procProc : Int → Option Int) (table : NextTable)
    (row : Int × GatewayEntry) :
    row ∈ (table.setDefaultNextId procProc).entries →
      row ∈ table.keptEntries ∨ ∃ entry, table.default = some entry ∧ row.2 = entry.setNextId procProc := by
  intro member
  obtain ⟨default, entries⟩ := table
  cases default with
  | some default => exact .inl member
  | none =>
      cases entries with
      | nil => cases member
      | cons first rest =>
          rcases List.mem_cons.mp member with rfl | later
          · exact .inr ⟨first.2, rfl, rfl⟩
          · exact .inl later

private theorem Names.renamed (emission : Emission program distribution memory docs) {processors : Processors}
    {extraId : Int} (built : Built program distribution memory.physicalProcId procCount (processors, extraId))
    {index : Nat} {stage : Stage} {gateway : Compiler.Gateway} {doc : ProcessorDoc}
    (emits : Emits program memory docs index stage gateway doc) {before : Int}
    (names : Names memory stage gateway before) :
    ∃ number, procProc processors before = some number ∧ Renamed memory.physicalProcId before number := by
  refine renamed_procProc emission built ?_
  cases names with
  | default isDefault =>
      exact emission.loaded.gatewayRefs (live_positive emits) gateway
        (List.mem_of_getElem? emits.gateway) before
        (mem_stageRefs_default isDefault)
  | action listed found member same =>
      obtain ⟨entry, inside, targets⟩ := tableTargets_mem emission found
      exact same ▸ emission.loaded.tableRefs (live_positive emits) entry inside _ (targets ▸ member)

private theorem default_renamed (emission : Emission program distribution memory docs)
    {processors : Processors} {extraId : Int}
    (built : Built program distribution memory.physicalProcId procCount (processors, extraId))
    {index : Nat} {stage : Stage} {gateway : Compiler.Gateway} {doc : ProcessorDoc}
    (emits : Emits program memory docs index stage gateway doc) {entry : GatewayEntry} {target : Int}
    (isDefault : gateway.nextTable.default = some entry)
    (same : (entry.setNextId (procProc processors)).toGateEntry = ⟨.stage, target⟩) :
    ∃ before, Names memory stage gateway before ∧ procProc processors before = some target := by
  cases entry with
  | table tableId matcherId => cases same
  | stage before =>
      obtain ⟨number, found, _⟩ := Names.renamed emission built emits (.default isDefault)
      simp only [GatewayEntry.setNextId, found, Option.getD_some, GatewayEntry.toGateEntry,
        GateEntry.mk.injEq, true_and] at same
      exact ⟨before, .default isDefault, same ▸ found⟩

private theorem stage_targets (emission : Emission program distribution memory docs) {processors : Processors}
    {extraId : Int} (built : Built program distribution memory.physicalProcId procCount (processors, extraId))
    (written : ∀ (index : Nat) (processor : Option Compiler.Processor), processors[index]? = some processor →
      match processor with
      | none => docs[index]? = some none
      | some processor => ∃ doc, docs[index]? = some (some doc) ∧
          (finalIpsa program memory processors).processorDoc
            (renameOwn (procProc processors) processor) = some doc)
    {index : Nat} {stage : Stage} {gateway : Compiler.Gateway} {doc : ProcessorDoc}
    (emits : Emits program memory docs index stage gateway doc) (target : Int) :
    target ∈ docTargets doc ↔
      (∃ before, Names memory stage gateway before ∧ procProc processors before = some target) ∨
      ∃ key, (key, GatewayEntry.stage target) ∈ gateway.nextTable.keptEntries := by
  obtain ⟨gatewayWritten, matcher, _⟩ := emission.stage_doc built written emits
  obtain ⟨default, entries⟩ := toIpsaValue_fields gatewayWritten
  rw [renameGateway, setDefaultNextId_default] at default
  rw [mem_docTargets]
  constructor
  · rintro (isDefault | ⟨key, member⟩ | ⟨table, isTable, pair, isPair, rfl⟩)
    · obtain ⟨renamedEntry, isRenamed, same⟩ := Option.map_eq_some_iff.mp default
      obtain ⟨entry, isEntry, rfl⟩ := Option.map_eq_some_iff.mp isRenamed
      exact .inl (default_renamed emission built emits isEntry (same.trans isDefault))
    · rw [entries] at member
      obtain ⟨row, isRow, same⟩ := List.mem_map.mp member
      obtain ⟨rfl, value⟩ := Prod.mk.inj same
      rcases mem_setDefaultNextId _ _ row isRow with kept | ⟨entry, isEntry, rename⟩
      · obtain ⟨key, entry⟩ := row
        cases entry with
        | table tableId matcherId => cases value
        | stage before =>
            cases value
            exact .inr ⟨key, kept⟩
      · exact .inl (default_renamed emission built emits isEntry (rename ▸ value))
    · obtain ⟨tableId, listed, found⟩ := mem_of_mapM_some matcher isTable
      rw [lookupId_reorder] at found
      obtain ⟨source, isSource, rfl⟩ := Option.map_eq_some_iff.mp found
      obtain ⟨old, isOld, rfl⟩ := List.mem_map.mp isPair
      have names : Names memory stage gateway old.2 := .action listed isSource isOld rfl
      obtain ⟨number, mapped, _⟩ := names.renamed emission built emits
      exact .inl ⟨old.2, names, by rw [mapped, Option.getD_some]⟩
  · rintro (⟨before, names, mapped⟩ | ⟨key, kept⟩)
    · cases names with
      | default isDefault =>
          rw [isDefault] at default
          simp only [Option.map_some, GatewayEntry.setNextId, mapped, Option.getD_some,
            GatewayEntry.toGateEntry, Option.some.injEq] at default
          exact .inl default.symm
      | @action tableId table pair listed found member same =>
          obtain ⟨position, bound, rfl⟩ := List.mem_iff_getElem.mp listed
          have step := getElem_of_mapM_some matcher bound
          rw [lookupId_reorder, found, Option.map_some] at step
          refine .inr (.inr ⟨_, List.mem_of_getElem? step.symm, _, List.mem_map_of_mem member, ?_⟩)
          rw [same, mapped, Option.getD_some]
    · obtain ⟨position, _, here⟩ := keptEntries_kept (procProc processors) kept
      refine .inr (.inl ⟨key, ?_⟩)
      rw [entries]
      exact List.mem_map.mpr ⟨_, List.mem_of_getElem? here, rfl⟩

private theorem exists_step {count : Nat → Nat} {position : Nat} (low : count 0 ≤ position) :
    ∀ bound, position < count bound → ∃ index < bound, count index ≤ position ∧
      position < count (index + 1) := by
  intro bound
  induction bound with
  | zero =>
      intro high
      omega
  | succ bound ih =>
      intro high
      by_cases earlier : position < count bound
      · obtain ⟨index, inside, here⟩ := ih earlier
        exact ⟨index, by omega, here⟩
      · exact ⟨bound, by omega, by omega, high⟩

private theorem slot_owner {physicalProcId : List Int}
    (enough : EnoughSlots program distribution physicalProcId)
    {number : Nat} (used : number < taken program distribution physicalProcId procCount) :
    ∃ index stageId position, physicalProcId[index]? = some stageId ∧ 0 ≤ stageId ∧ index < procCount ∧
      position < (runsAt program distribution.distributedLevels physicalProcId index).length - 1 ∧
      number = taken program distribution physicalProcId index + position := by
  rw [taken_eq enough le_rfl] at used
  have zero : runsBefore program distribution.distributedLevels physicalProcId 0 ≤ number := by
    simp [runsBefore]
  obtain ⟨index, inside, low, high⟩ := exists_step zero procCount used
  rw [runsBefore_succ] at high
  have some_run : 0 < (runsAt program distribution.distributedLevels physicalProcId index).length := by omega
  unfold runsAt at some_run
  split at some_run
  · next stageId at_ =>
      split at some_run
      · next nonneg =>
          refine ⟨index, stageId,
            number - runsBefore program distribution.distributedLevels physicalProcId index, at_,
            nonneg, inside, by omega, ?_⟩
          rw [taken_eq enough inside.le]
          omega
      · simp at some_run
  · simp at some_run

private theorem gateway_of_live (loaded : Loaded program) {stage : Stage}
    (live : stage ∈ liveStages program.stages.logicalStages) :
    ∃ gateway, program.gateways[stage.gatewayId]? = some gateway := by
  have member : stage.gatewayId ∈ program.stages.logicalStages.map Stage.gatewayId :=
    List.mem_map_of_mem (List.mem_filter.mp live).1
  rw [loaded.gatewayIds, List.mem_range] at member
  exact ⟨_, List.getElem?_eq_getElem member⟩

private theorem doc_kinds (emission : Emission program distribution memory docs)
    (enough : EnoughSlots program distribution memory.physicalProcId) {slot : Nat} {doc : ProcessorDoc}
    (here : docs[slot]? = some (some doc)) :
    (∃ stage gateway, Emits program memory docs slot stage gateway doc) ∨
      ∃ index stageId position, memory.physicalProcId[index]? = some stageId ∧ 0 ≤ stageId ∧
        index < procCount ∧
        position < (runsAt program distribution.distributedLevels memory.physicalProcId index).length - 1 ∧
        (freeSlots memory.physicalProcId)[taken program distribution memory.physicalProcId index +
          position]? = some slot := by
  obtain ⟨processors, extraId, built, written⟩ := emission.processors
  have inside : slot < processors.length := by
    rw [built.length, ← emission.docs_length]
    exact (List.getElem?_eq_some_iff.mp here).1
  cases source : processors[slot] with
  | none =>
      have absent := written slot none (by rw [List.getElem?_eq_getElem inside, source])
      cases here.symm.trans absent
  | some processor =>
      have at_ : processors[slot]? = some (some processor) := by rw [List.getElem?_eq_getElem inside, source]
      obtain ⟨stageId, placedAt, nonneg, _, stage, levels, found, _, rfl⟩ | ⟨number, slotAt, _⟩ :=
        processor_cases emission.placed built at_
      · obtain ⟨live, rfl⟩ := lookupId_live found
        obtain ⟨gateway, isGateway⟩ := gateway_of_live emission.loaded live
        exact .inl ⟨stage, gateway, placedAt, found, isGateway, here⟩
      · have used : number < taken program distribution memory.physicalProcId procCount := by
          by_contra notUsed
          cases at_.symm.trans (built.empty number slot slotAt (Nat.le_of_not_lt notUsed))
        obtain ⟨index, stageId, position, placedAt, nonneg, inside, early, rfl⟩ := slot_owner enough used
        exact .inr ⟨index, stageId, position, placedAt, nonneg, inside, early, slotAt⟩

/-! ### Ways into a chain -/

private theorem parserChain_nodup {physicalProcId : List Int} {index : Nat} {stageId : Int}
    (at_ : physicalProcId[index]? = some stageId) (nonneg : 0 ≤ stageId) :
    (parserChain program distribution physicalProcId index).Nodup := by
  refine List.Nodup.map (fun first second same => Int.ofNat.inj same) ?_
  refine List.nodup_append.mpr ⟨?_, List.nodup_singleton index, ?_⟩
  · exact (nodup_freeSlots physicalProcId).sublist ((List.take_sublist _ _).trans (List.drop_sublist _ _))
  · intro slot member own isOwn same
    rw [List.mem_singleton] at isOwn
    subst same isOwn
    have below := (mem_freeSlots (List.mem_of_mem_drop (List.mem_of_mem_take member))).2
    rw [List.getD_eq_getElem?_getD, at_, Option.getD_some] at below
    omega

private theorem parserChain_next {physicalProcId : List Int}
    (enough : EnoughSlots program distribution physicalProcId)
    {index : Nat} (inside : index < procCount) {position : Nat} {next : Int}
    (early : position < (runsAt program distribution.distributedLevels physicalProcId index).length - 1)
    (nextAt : (parserChain program distribution physicalProcId index)[position + 1]? = some next) :
    (∃ slot : Nat, next = slot ∧
        (freeSlots physicalProcId)[taken program distribution physicalProcId index + position +
          1]? = some slot) ∨
      next = index ∧ position + 1 =
        (runsAt program distribution.distributedLevels physicalProcId index).length - 1 := by
  by_cases last : position + 1 = (runsAt program distribution.distributedLevels physicalProcId
    index).length - 1
  · rw [last, parserChain_own enough inside] at nextAt
    exact .inr ⟨(Option.some.inj nextAt).symm, last⟩
  · obtain ⟨slot, slotAt, inChain⟩ := parserChain_extra enough inside (position + 1) (by omega)
    rw [inChain] at nextAt
    exact .inl ⟨slot, (Option.some.inj nextAt).symm, slotAt⟩

private theorem next_unique {physicalProcId : List Int}
    (enough : EnoughSlots program distribution physicalProcId)
    {first second : Nat} {firstId secondId : Int} (firstAt : physicalProcId[first]? = some firstId)
    (secondAt : physicalProcId[second]? = some secondId) (firstNonneg : 0 ≤ firstId)
    (secondNonneg : 0 ≤ secondId) (firstInside : first < procCount)
    (secondInside : second < procCount) {position other : Nat} {next : Int}
    (early : position < (runsAt program distribution.distributedLevels physicalProcId first).length - 1)
    (otherEarly : other < (runsAt program distribution.distributedLevels physicalProcId second).length - 1)
    (nextAt : (parserChain program distribution physicalProcId first)[position + 1]? = some next)
    (otherAt : (parserChain program distribution physicalProcId second)[other + 1]? = some next) :
    taken program distribution physicalProcId first + position =
      taken program distribution physicalProcId second + other := by
  have notFree : ∀ (index : Nat) (stageId : Int) (position slot : Nat), physicalProcId[index]? =
    some stageId →
      0 ≤ stageId → (freeSlots physicalProcId)[position]? = some slot → (slot : Int) ≠ index := by
    intro index stageId position slot at_ nonneg slotAt same
    have below := (mem_freeSlots (List.mem_of_getElem? slotAt)).2
    rw [Int.ofNat.inj same, List.getD_eq_getElem?_getD, at_, Option.getD_some] at below
    omega
  rcases parserChain_next enough firstInside early nextAt with ⟨slot, rfl, slotAt⟩ | ⟨rfl, last⟩
  · rcases parserChain_next enough secondInside otherEarly otherAt with ⟨otherSlot, same,
      otherSlotAt⟩ | ⟨same, _⟩
    · obtain rfl := Int.ofNat.inj same
      obtain ⟨bound, here⟩ := List.getElem?_eq_some_iff.mp slotAt
      obtain ⟨otherBound, there⟩ := List.getElem?_eq_some_iff.mp otherSlotAt
      have positions := ((nodup_freeSlots physicalProcId).getElem_inj_iff).mp (here.trans there.symm)
      omega
    · exact absurd same (notFree second secondId _ slot secondAt secondNonneg slotAt)
  · rcases parserChain_next enough secondInside otherEarly otherAt with ⟨otherSlot, same,
      otherSlotAt⟩ | ⟨same, otherLast⟩
    · exact absurd same.symm (notFree first firstId _ otherSlot firstAt firstNonneg otherSlotAt)
    · obtain rfl := Int.ofNat.inj same
      omega

/-- No stage leads to the stage `stageId`, and no switch entry that keeps its number has the number of one
of the processors of `tail`. -/
structure Unnamed (program : Program) (memory : MemoryResult) (stageId : Int) (tail : List Int) : Prop where
  names : ∀ stage ∈ liveStages program.stages.logicalStages, ∀ gateway,
    program.gateways[stage.gatewayId]? = some gateway → ¬ Names memory stage gateway stageId
  kept : ∀ stage ∈ liveStages program.stages.logicalStages, ∀ gateway,
    program.gateways[stage.gatewayId]? = some gateway →
      ∀ key target, (key, GatewayEntry.stage target) ∈ gateway.nextTable.keptEntries → target ∉ tail

section

variable (emission : Emission program distribution memory docs)
  (enough : EnoughSlots program distribution memory.physicalProcId) {index : Nat} {stageId : Int}
  (at_ : memory.physicalProcId[index]? = some stageId) (nonneg : 0 ≤ stageId)
include emission enough at_

private theorem stage_enters {slot : Nat} {stage : Stage} {gateway : Compiler.Gateway} {doc : ProcessorDoc}
    (emits : Emits program memory docs slot stage gateway doc) {target : Int}
    (leads : target ∈ docTargets doc)
    (inTail : target ∈ (parserChain program distribution memory.physicalProcId index).tail) :
    Names memory stage gateway stageId ∨
      ∃ key, (key, GatewayEntry.stage target) ∈ gateway.nextTable.keptEntries := by
  have inside : index < procCount := emission.placed.length ▸ (List.getElem?_eq_some_iff.mp at_).1
  obtain ⟨processors, extraId, built, written⟩ := emission.processors
  rcases (stage_targets emission built written emits target).mp leads with ⟨before, names, mapped⟩ | kept
  · left
    obtain ⟨position, bound, here⟩ := List.mem_iff_getElem.mp inTail
    have nextAt : (parserChain program distribution memory.physicalProcId index)[position + 1]? =
        some target := by
      rw [← List.getElem?_tail, List.getElem?_eq_getElem bound, here]
    have early : position < (runsAt program distribution.distributedLevels memory.physicalProcId
        index).length - 1 := by
      rw [List.length_tail, parserChain_length enough inside] at bound
      omega
    -- a renamed target is the place of its stage, and so not a free processor
    obtain ⟨number, isNumber, renamed⟩ := names.renamed emission built emits
    cases mapped.symm.trans isNumber
    rcases parserChain_next enough inside early nextAt with ⟨slot, rfl, slotAt⟩ | ⟨rfl, _⟩
    · have below := (mem_freeSlots (List.mem_of_getElem? slotAt)).2
      rcases renamed with ⟨_, negative⟩ | ⟨low, _, placedAt⟩
      · omega
      · rw [Int.toNat_natCast] at placedAt
        rw [List.getD_eq_getElem?_getD, placedAt, Option.getD_some] at below
        omega
    · rcases renamed with ⟨_, negative⟩ | ⟨_, _, placedAt⟩
      · omega
      · rw [Int.toNat_natCast, at_] at placedAt
        cases placedAt
        exact names
  · exact .inr kept

include nonneg

private theorem parserChain_steps :
    (parserChain program distribution memory.physicalProcId index).IsChain (HasTarget docs) := by
  have inside : index < procCount := emission.placed.length ▸ (List.getElem?_eq_some_iff.mp at_).1
  refine List.isChain_iff_getElem.mpr fun position bound => ?_
  rw [parserChain_length enough inside] at bound
  obtain ⟨slot, slotAt, inChain⟩ := parserChain_extra enough inside position (by omega)
  obtain ⟨doc, next, isDoc, _, nextAt, targets⟩ := extra_next emission enough at_ nonneg (by omega) slotAt
  refine ⟨slot, doc, (List.getElem?_eq_some_iff.mp inChain).2, isDoc, ?_⟩
  rw [targets, (List.getElem?_eq_some_iff.mp nextAt).2]
  exact List.mem_singleton_self next

private theorem entered_iff
    (long : 1 < (runsAt program distribution.distributedLevels memory.physicalProcId index).length) :
    EnteredInOrder (HasTarget docs) (parserChain program distribution memory.physicalProcId index) ↔
      Unnamed program memory stageId (parserChain program distribution memory.physicalProcId index).tail := by
  have inside : index < procCount := emission.placed.length ▸ (List.getElem?_eq_some_iff.mp at_).1
  obtain ⟨processors, extraId, built, written⟩ := emission.processors
  constructor
  · intro entered
    have closed : ∀ slot stage gateway doc, Emits program memory docs slot stage gateway doc →
        ∀ target ∈ docTargets doc, target ∉
            (parserChain program distribution memory.physicalProcId index).tail := by
      intro slot stage gateway doc emits target leads inTail
      obtain ⟨position, bound, here⟩ := List.mem_iff_getElem.mp inTail
      rw [List.getElem_tail] at here
      rw [List.length_tail, parserChain_length enough inside] at bound
      have only :=
        List.isChain_iff_getElem.mp entered position (by rw [parserChain_length enough inside]; omega)
      have same := only slot ⟨slot, doc, rfl, emits.doc, here ▸ leads⟩
      obtain ⟨free, freeAt, inChain⟩ := parserChain_extra enough inside position (by omega)
      rw [(List.getElem?_eq_some_iff.mp inChain).2] at same
      obtain rfl := Int.ofNat.inj same
      have below := (mem_freeSlots (List.mem_of_getElem? freeAt)).2
      rw [List.getD_eq_getElem?_getD, emits.at_, Option.getD_some] at below
      have live := (stageId_placed emission (List.mem_map_of_mem (lookupId_live emits.live).1)).1
      omega
    refine ⟨?_, ?_⟩
    · intro stage live gateway isGateway names
      obtain ⟨slot, doc, emits⟩ := emission.emits live isGateway
      have leads : (index : Int) ∈ docTargets doc := (stage_targets emission built written emits index).mpr
        (.inl ⟨stageId, names, procProc_stage emission.placed emission.ordered built at_ nonneg⟩)
      refine closed slot stage gateway doc emits index leads ?_
      have own := parserChain_own enough inside
      rw [← Nat.sub_add_cancel (show 1 ≤ (runsAt program distribution.distributedLevels memory.physicalProcId
        index).length - 1 by omega), ← List.getElem?_tail] at own
      exact List.mem_of_getElem? own
    · intro stage live gateway isGateway key target kept
      obtain ⟨slot, doc, emits⟩ := emission.emits live isGateway
      exact closed slot stage gateway doc emits target
        ((stage_targets emission built written emits target).mpr (.inr ⟨key, kept⟩))
  · intro unnamed
    refine List.isChain_iff_getElem.mpr fun position bound => ?_
    have nextAt := List.getElem?_eq_getElem bound
    have inTail := List.mem_of_getElem? ((List.getElem?_tail (i := position)).trans nextAt)
    rw [parserChain_length enough inside] at bound
    rintro other ⟨slot, doc, rfl, isDoc, leads⟩
    rcases doc_kinds emission enough isDoc with ⟨stage, gateway, emits⟩ | ⟨otherIndex, otherId,
      otherPosition, otherAt, otherNonneg, otherInside, otherEarly, slotAt⟩
    · have live := (lookupId_live emits.live).1
      rcases stage_enters emission enough at_ emits leads inTail with names | ⟨key, kept⟩
      · exact absurd names (unnamed.names stage live gateway emits.gateway)
      · exact absurd inTail (unnamed.kept stage live gateway emits.gateway key _ kept)
    · obtain ⟨otherDoc, next, isOther, _, otherNext, targets⟩ :=
        extra_next emission enough otherAt otherNonneg otherEarly
        slotAt
      cases isDoc.symm.trans isOther
      rw [targets, List.mem_singleton] at leads
      rw [leads] at nextAt
      obtain ⟨free, freeAt, inChain⟩ := parserChain_extra enough inside position (by omega)
      have numbers :=
        next_unique enough at_ otherAt nonneg otherNonneg inside otherInside (by omega) otherEarly nextAt
        otherNext
      rw [numbers, slotAt] at freeAt
      cases freeAt
      exact (List.getElem?_eq_some_iff.mp inChain).2.symm

private theorem map_levelsAt :
    (parserChain program distribution memory.physicalProcId index).map (levelsAt docs) =
    (runsAt program distribution.distributedLevels memory.physicalProcId index).take
        ((runsAt program distribution.distributedLevels memory.physicalProcId index).length - 1) ++
      [((runsAt program distribution.distributedLevels memory.physicalProcId index).drop
        ((runsAt program distribution.distributedLevels memory.physicalProcId index).length -
          1)).flatten] := by
  have inside : index < procCount := emission.placed.length ▸ (List.getElem?_eq_some_iff.mp at_).1
  obtain ⟨processors, extraId, built, written⟩ := emission.processors
  obtain ⟨stage, levels, found, known, _⟩ := built.stages index inside stageId at_ nonneg
  obtain ⟨live, rfl⟩ := lookupId_live found
  obtain ⟨gateway, isGateway⟩ := gateway_of_live emission.loaded live
  obtain ⟨doc, _, isDoc, _⟩ := emission.doc_at live at_
  obtain ⟨_, _, _, same, held⟩ := emission.stage_doc built written ⟨at_, found, isGateway, isDoc⟩
  cases known.symm.trans same
  have runs : runsAt program distribution.distributedLevels memory.physicalProcId index = chunks levels := by
    simp only [runsAt, at_, known, Option.getD_some]
    rw [if_pos nonneg]
  rw [taken_eq enough inside, taken_eq enough inside.le, runsBefore_succ, Nat.add_sub_cancel_left,
    ← runs] at held
  refine List.ext_getElem? fun position => ?_
  rw [List.getElem?_map]
  have length : ((runsAt program distribution.distributedLevels memory.physicalProcId index).take
      ((runsAt program distribution.distributedLevels memory.physicalProcId index).length - 1)).length =
        (runsAt program distribution.distributedLevels memory.physicalProcId index).length - 1 := by
    rw [List.length_take]
    omega
  rcases Nat.lt_trichotomy position
    ((runsAt program distribution.distributedLevels memory.physicalProcId index).length -
      1) with early | rfl | late
  · obtain ⟨slot, slotAt, inChain⟩ := parserChain_extra enough inside position early
    obtain ⟨extra, _, isExtra, isRun, _⟩ := extra_next emission enough at_ nonneg early slotAt
    rw [inChain, List.getElem?_append_left (by omega), List.getElem?_take_of_lt early, isRun,
      Option.map_some, levelsAt, Int.toNat_natCast, isExtra]
  · rw [parserChain_own enough inside, List.getElem?_append_right (by omega), length, Nat.sub_self,
      Option.map_some, levelsAt, Int.toNat_natCast, isDoc, List.getElem?_cons_zero]
    exact congrArg some held
  · rw [List.getElem?_eq_none (by rw [parserChain_length enough inside]; omega),
      List.getElem?_eq_none (by rw [List.length_append, length, List.length_singleton]; omega),
      Option.map_none]

private theorem levels_held {levels : List Level}
    (known : stageLevels program distribution.distributedLevels stageId = some levels) :
    (parserChain program distribution memory.physicalProcId index).flatMap (levelsAt docs) = levels ∧
      ∀ procId ∈ parserChain program distribution memory.physicalProcId index,
        (levelsAt docs procId).length ≤ maxLevel := by
  have held := map_levelsAt emission enough at_ nonneg
  have runs : runsAt program distribution.distributedLevels memory.physicalProcId index = chunks levels := by
    simp only [runsAt, at_, known, Option.getD_some]
    rw [if_pos nonneg]
  rw [runs] at held
  constructor
  · rw [List.flatMap_def, held, List.flatten_append, List.flatten_singleton, ← List.flatten_append,
      List.take_append_drop, flatten_chunks]
  · intro procId member
    have inRuns := held ▸ List.mem_map_of_mem (f := levelsAt docs) member
    rcases List.mem_append.mp inRuns with front | own
    · exact chunk_length (List.mem_of_mem_take front)
    · rw [List.mem_singleton] at own
      rw [own]
      cases last : (chunks levels).drop ((chunks levels).length - 1) with
      | nil => simp
      | cons run rest =>
          have single : rest = [] := by
            have length := congrArg List.length last
            rw [List.length_drop, List.length_cons] at length
            exact List.length_eq_zero_iff.mp (by omega)
          rw [single, List.flatten_singleton]
          exact chunk_length (List.mem_of_mem_drop (last ▸ List.mem_cons_self))

end

end

/-- A packet at a stage has been offered all of its levels exactly when a processor holds them all,
or no packet is sent to the stage but from in front of its parser-only processors. -/
theorem levels_offered_iff (headers : HeaderLookup) (getHeader : String → Option Int)
    (sort : (Int → Int → Bool) → List Int → List Int) (levels stageLevels : List Level) (ast : Ast)
    (program : Program) (distribution : DistributionResult) (memory : MemoryResult)
    (docs : List (Option ProcessorDoc)) (done : load headers levels ast = some program)
    (distributed : distributeParsers sort getHeader levels program.stages.logicalStages = some distribution)
    (placed : Placed program memory.physicalProcId)
    (tables : memory.tables.map tableTargets = program.tables.map tableTargets)
    (emitted : (allocateProcessors program distribution memory).bind Ipsa.toIpsaValue = some docs)
    (enough : EnoughSlots program distribution memory.physicalProcId) (index : Nat) (stageId : Int)
    (at_ : memory.physicalProcId[index]? = some stageId) (nonneg : 0 ≤ stageId)
    (known : Builder.stageLevels program distribution.distributedLevels stageId = some stageLevels) :
    Offered docs (parserChain program distribution memory.physicalProcId index) stageLevels ↔
      stageLevels.length ≤ maxLevel ∨
        (0 ∉ (parserChain program distribution memory.physicalProcId index).tail ∧
          Unnamed program memory stageId (parserChain program distribution memory.physicalProcId
            index).tail) := by
  have emission := emission_of_passes done distributed placed tables emitted
  have inside : index < procCount := placed.length ▸ (List.getElem?_eq_some_iff.mp at_).1
  have runs : runsAt program distribution.distributedLevels memory.physicalProcId index =
      chunks stageLevels := by
    simp only [runsAt, at_, known, Option.getD_some]
    rw [if_pos nonneg]
  have length := parserChain_length enough inside
  have steps := parserChain_steps emission enough at_ nonneg
  have nodup := @parserChain_nodup program distribution _ _ _ at_ nonneg
  have nonempty : parserChain program distribution memory.physicalProcId index ≠ [] := by
    intro empty
    rw [empty] at length
    cases length
  obtain ⟨held, small⟩ := levels_held emission enough at_ nonneg known
  have offered : Offered docs (parserChain program distribution memory.physicalProcId index) stageLevels ↔
      0 ∉ (parserChain program distribution memory.physicalProcId index).tail ∧
        EnteredInOrder (HasTarget docs) (parserChain program distribution memory.physicalProcId index) := by
    rw [← passed_from_iff nonempty steps nodup]
    exact ⟨Offered.passed, fun passed => ⟨held, small, passed⟩⟩
  rw [offered, ← chunks_length, ← runs]
  by_cases long : 1 < (runsAt program distribution.distributedLevels memory.physicalProcId index).length
  · rw [entered_iff emission enough at_ nonneg long]
    exact ⟨.inr, fun either => either.resolve_left (by omega)⟩
  · obtain ⟨own, single⟩ : ∃ own, parserChain program distribution memory.physicalProcId index = [own] :=
      List.length_eq_one_iff.mp (by omega)
    rw [single]
    exact ⟨fun _ => .inl (by omega), fun _ => ⟨List.not_mem_nil, List.isChain_singleton own⟩⟩

/-- Six levels, each of the first five with one header. -/
def deepLevels : List Level :=
  (List.range 5).map (fun levelId => [⟨⟨levelId, 0, 0⟩, ⟨levelId, 8, levelId + 1, [], 2⟩⟩]) ++ [[]]

/-- Stage `a` goes on to stage `b`, which needs the header `h`. -/
def deepAst : Ast where
  actions := []
  tables := []
  ingress := [
    { name := "a", parser := [], executor := [], matcher := ⟨[], [⟨.default, .stage "b"⟩]⟩ },
    { name := "b", parser := ["h"], executor := [], matcher := ⟨[], [⟨.default, .none⟩]⟩ }]
  egress := []

def deepProgram : Program := (load (fun _ => none) deepLevels deepAst).get (by decide)

def insertSort (less : Int → Int → Bool) (items : List Int) : List Int :=
  items.insertionSort fun first second => less first second

/-- The header `h` has the number `header`, and so is on that level. -/
def deepDistribution (header : Nat) : DistributionResult :=
  (distributeParsers insertSort (fun _ => some header) deepLevels
    deepProgram.stages.logicalStages).getD ⟨[], []⟩

def deepMemory : MemoryResult := ⟨deepProgram.tables, ((List.replicate procCount (-1)).set 0 0).set 1 1⟩

def deepDocs (header : Nat) : List (Option ProcessorDoc) :=
  ((allocateProcessors deepProgram (deepDistribution header) deepMemory).bind Ipsa.toIpsaValue).getD []

private theorem deep_placed : Placed deepProgram deepMemory.physicalProcId :=
  placed_of_cells rfl (by decide) (by decide) (by decide)

/-- Stage `a` ends, so that no stage leads to stage `b`. -/
def asideAst : Ast :=
  { deepAst with ingress := [
      { name := "a", parser := [], executor := [], matcher := ⟨[], [⟨.default, .none⟩]⟩ },
      { name := "b", parser := ["h"], executor := [], matcher := ⟨[], [⟨.default, .none⟩]⟩ }] }

def asideProgram : Program := (load (fun _ => none) deepLevels asideAst).get (by decide)

def asideDistribution : DistributionResult :=
  (distributeParsers insertSort (fun _ => some 4) deepLevels asideProgram.stages.logicalStages).getD ⟨[], []⟩

def asideDocs : List (Option ProcessorDoc) :=
  ((allocateProcessors asideProgram asideDistribution deepMemory).bind Ipsa.toIpsaValue).getD []

/-- The five levels of stage `b` are split, and nothing leads behind the first four. -/
theorem levels_offered_five :
    Offered asideDocs (parserChain asideProgram asideDistribution deepMemory.physicalProcId 1)
      (deepLevels.take 5) := by
  have placed : Placed asideProgram deepMemory.physicalProcId :=
    placed_of_cells rfl (by decide) (by decide) (by decide)
  have noTables : ∀ stage ∈ liveStages asideProgram.stages.logicalStages, stage.tableId = [] := by decide
  have others : ∀ stage ∈ liveStages asideProgram.stages.logicalStages,
      ∀ gateway ∈ asideProgram.gateways[stage.gatewayId]?, gateway.nextTable.default ≠
        some (.stage 1) := by decide
  have kept : ∀ stage ∈ liveStages asideProgram.stages.logicalStages,
      ∀ gateway ∈ asideProgram.gateways[stage.gatewayId]?, gateway.nextTable.keptEntries = [] := by decide
  refine (levels_offered_iff (fun _ => none) (fun _ => some 4) insertSort deepLevels
    (deepLevels.take 5) asideAst
    asideProgram asideDistribution deepMemory asideDocs rfl rfl placed rfl rfl (by decide) 1 1 rfl
      (by decide) rfl).mpr (.inr ⟨by decide, ?_, ?_⟩)
  · rintro stage live gateway hasGateway (default | @⟨_, _, _, listed, _, _, _⟩)
    · exact others stage live gateway hasGateway default
    · rw [noTables stage live] at listed
      cases listed
  · intro stage live gateway hasGateway key target member
    rw [kept stage live gateway hasGateway] at member
    cases member

/-- The fifth level of stage `b` moves the first four to processor 2, and stage `a` still leads to
processor 1. -/
theorem levels_offered_five_lost :
    load (fun _ => none) deepLevels deepAst = some deepProgram ∧
      distributeParsers insertSort (fun _ => some 4) deepLevels deepProgram.stages.logicalStages =
        some (deepDistribution 4) ∧
      Placed deepProgram deepMemory.physicalProcId ∧
      (allocateProcessors deepProgram (deepDistribution 4) deepMemory).bind Ipsa.toIpsaValue =
        some (deepDocs 4) ∧
      EnoughSlots deepProgram (deepDistribution 4) deepMemory.physicalProcId ∧
      deepMemory.physicalProcId[1]? = some 1 ∧
      Builder.stageLevels deepProgram (deepDistribution 4).distributedLevels 1 = some (deepLevels.take 5) ∧
      parserChain deepProgram (deepDistribution 4) deepMemory.physicalProcId 1 = [2, 1] ∧
      levelsAt (deepDocs 4) 2 = deepLevels.take 4 ∧ HasTarget (deepDocs 4) 0 1 ∧
      ¬ Offered (deepDocs 4) (parserChain deepProgram
        (deepDistribution 4) deepMemory.physicalProcId 1) (deepLevels.take 5) := by
  have chain : parserChain deepProgram (deepDistribution 4) deepMemory.physicalProcId 1 = [2, 1] := by decide
  have leads : HasTarget (deepDocs 4) 0 1 := by
    obtain ⟨doc, isDoc, inside⟩ : ∃ doc ∈ (deepDocs 4)[0]?.join, 1 ∈ docTargets doc := by decide
    exact ⟨0, doc, rfl, Option.join_eq_some_iff.mp isDoc, inside⟩
  refine ⟨rfl, rfl, deep_placed, rfl, by decide, rfl, rfl, chain, by decide, leads, ?_⟩
  intro offered
  have suffix := offered.passed [0, 1] (List.isChain_pair.mpr leads) (.inl rfl) (by rw [chain]; rfl)
  rw [chain] at suffix
  exact absurd suffix (by decide)

end Ipbm.System
