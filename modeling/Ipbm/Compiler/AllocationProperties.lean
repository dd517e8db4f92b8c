import Ipbm.Compiler.BuilderProperties
import Ipbm.Compiler.ProcessorsProperties

/-! The emitted configuration of a loaded program whose stages are placed: the
numbers of the processors, and what becomes of every gateway and table. -/

set_option autoImplicit false

namespace Ipbm.Compiler
open Lib Dataplane IpsaConfiguration ProcessorManager
open Distribution (liveStages)

/-- A placement: every stage that stays is on one processor, and nothing else is on any. -/
structure Placed (program : Program) (physicalProcId : List Int) : Prop where
  length : physicalProcId.length = procCount
  entries : ∀ id ∈ physicalProcId, id = -1 ∨ id ∈ (liveStages program.stages.logicalStages).map Stage.stageId
  once : ∀ (first second : Nat) (id : Int), physicalProcId[first]? = some id →
    physicalProcId[second]? = some id → 0 ≤ id →
    first = second
  all : ∀ id ∈ (liveStages program.stages.logicalStages).map Stage.stageId, id ∈ physicalProcId

/-- A placement can be checked processor by processor. -/
theorem placed_of_cells {program : Program} {physicalProcId : List Int}
    (length : physicalProcId.length = procCount)
    (entries : ∀ id ∈ physicalProcId, id = -1 ∨
      id ∈ (liveStages program.stages.logicalStages).map Stage.stageId)
    (once : ∀ first < procCount, ∀ second < procCount, physicalProcId[first]? = physicalProcId[second]? →
      0 ≤ physicalProcId.getD first 0 → first = second)
    (all : ∀ id ∈ (liveStages program.stages.logicalStages).map Stage.stageId, id ∈ physicalProcId) :
    Placed program physicalProcId := by
  refine ⟨length, entries, ?_, all⟩
  intro first second id firstAt secondAt nonneg
  refine once first (length ▸ (List.getElem?_eq_some_iff.mp firstAt).1) second
    (length ▸ (List.getElem?_eq_some_iff.mp secondAt).1) (firstAt.trans secondAt.symm) ?_
  rwa [List.getD_eq_getElem?_getD, firstAt]

namespace Builder

/-! ### The map of processor numbers -/

private theorem procProc_concat (processors : Processors) (processor : Option Processor) :
    procProc (processors ++ [processor]) =
      match processor with
      | some processor => insertNew (procProc processors) processor.id processors.length
      | none => procProc processors := by
  simp only [procProc, List.zipIdx_append, List.foldl_append, List.zipIdx_cons, List.zipIdx_nil,
    List.foldl_cons, List.foldl_nil]
  cases processor <;> simp

theorem procProc_ending (processors : Processors) : procProc processors (-1) = some (-1) := by
  induction processors using List.reverseRecOn with
  | nil => rfl
  | append_singleton processors processor ih =>
      rw [procProc_concat]
      cases processor with
      | none => exact ih
      | some processor => exact insertNew_of_some ih _ _

theorem procProc_cases {processors : Processors} {key value : Int}
    (found : procProc processors key = some value) :
    key = -1 ∧ value = -1 ∨ ∃ (index : Nat) (processor : Processor),
      processors[index]? = some (some processor) ∧ processor.id = key ∧ value = index := by
  induction processors using List.reverseRecOn with
  | nil =>
      obtain missing | ⟨same, _, number⟩ :=
        insertNew_cases (show insertNew (fun _ => none) (-1) (-1) key = some value from found)
      · cases missing
      · exact .inl ⟨same, number⟩
  | append_singleton processors last ih =>
      have extend : ∀ (index : Nat) (processor : Processor), processors[index]? = some (some processor) →
          (processors ++ [last])[index]? = some (some processor) := by
        intro index processor here
        rw [List.getElem?_append_left (List.getElem?_eq_some_iff.mp here).1]
        exact here
      rw [procProc_concat] at found
      cases last with
      | none =>
          obtain ending | ⟨index, processor, here, same⟩ := ih found
          · exact .inl ending
          · exact .inr ⟨index, processor, extend index processor here, same⟩
      | some last =>
          obtain old | ⟨rfl, _, rfl⟩ := insertNew_cases found
          · obtain ending | ⟨index, processor, here, same⟩ := ih old
            · exact .inl ending
            · exact .inr ⟨index, processor, extend index processor here, same⟩
          · exact .inr ⟨processors.length, last, by simp, rfl, rfl⟩

private theorem procProc_isSome {processors : Processors} {index : Nat} {processor : Processor}
    (here : processors[index]? = some (some processor)) : (procProc processors processor.id).isSome := by
  induction processors using List.reverseRecOn with
  | nil => cases here
  | append_singleton processors last ih =>
      rw [procProc_concat]
      by_cases inside : index < processors.length
      · rw [List.getElem?_append_left inside] at here
        obtain ⟨value, found⟩ := Option.isSome_iff_exists.mp (ih here)
        cases last with
        | none => exact ih here
        | some last => exact Option.isSome_of_eq_some (insertNew_of_some found _ _)
      · have atEnd : index = processors.length := by
          have bound := (List.getElem?_eq_some_iff.mp here).1
          rw [List.length_append, List.length_singleton] at bound
          omega
        subst atEnd
        have same : last = some processor := by simpa using here
        subst same
        cases found : procProc processors processor.id with
        | none => exact Option.isSome_of_eq_some (insertNew_self found _)
        | some value => exact Option.isSome_of_eq_some (insertNew_of_some found _ _)

/-- With distinct ids every processor is found under its own. -/
theorem procProc_found {processors : Processors} {index : Nat} {processor : Processor}
    (ordinary : 0 ≤ processor.id)
    (unique : ∀ other found, processors[other]? = some (some found) → found.id = processor.id → other = index)
    (here : processors[index]? = some (some processor)) :
    procProc processors processor.id = some (index : Int) := by
  obtain ⟨value, found⟩ := Option.isSome_iff_exists.mp (procProc_isSome here)
  obtain ⟨ending, _⟩ | ⟨other, candidate, there, same, rfl⟩ := procProc_cases found
  · omega
  · rw [found, unique other candidate there same]

/-! ### Renaming -/

/-- The gateway of a parser-only processor is its own; any other is shared with the stage. -/
def renameOwn (procProc : Int → Option Int) (processor : Processor) : Processor :=
  match processor.gateway with
  | some (.own entry) => { processor with gateway := some (.own (entry.setNextId procProc)) }
  | _ => processor

def renameGateway (procProc : Int → Option Int) (gateway : Gateway) : Gateway :=
  { gateway with nextTable := gateway.nextTable.setDefaultNextId procProc }

theorem renameDefaults_processors (procProc : Int → Option Int) (processors : Processors)
    (gateways : List Gateway) :
    (renameDefaults procProc processors gateways).1 = processors.map (Option.map (renameOwn procProc)) := by
  induction processors generalizing gateways with
  | nil => rfl
  | cons processor rest ih =>
      cases processor with
      | none =>
          rw [renameDefaults, List.map_cons, ← ih gateways]
          rfl
      | some processor =>
          have first : (renameDefault procProc gateways processor).1 = renameOwn procProc processor := by
            unfold renameDefault renameOwn
            cases gateway : processor.gateway with
            | none => rfl
            | some ref => cases ref <;> rfl
          rw [renameDefaults, List.map_cons, ← ih (renameDefault procProc gateways processor).2,
            Option.map_some, ← first]

private theorem renameDefault_other (procProc : Int → Option Int) {gateways : List Gateway}
    {processor : Processor} {gatewayId : Nat} (other : processor.gateway ≠ some (.stage gatewayId)) :
    (renameDefault procProc gateways processor).2[gatewayId]? = gateways[gatewayId]? := by
  unfold renameDefault
  split
  · next shared used =>
      have different : shared ≠ gatewayId := by
        rintro rfl
        exact other used
      rw [List.getElem?_modify]
      simp [different]
  · rfl
  · rfl

private theorem renameDefaults_unused (procProc : Int → Option Int) {processors : Processors}
    {gateways : List Gateway} {gatewayId : Nat}
    (unused : ∀ processor, some processor ∈ processors → processor.gateway ≠ some (.stage gatewayId)) :
    (renameDefaults procProc processors gateways).2[gatewayId]? = gateways[gatewayId]? := by
  induction processors generalizing gateways with
  | nil => rfl
  | cons processor rest ih =>
      have later : ∀ processor, some processor ∈ rest → processor.gateway ≠ some (.stage gatewayId) :=
        fun processor member => unused processor (List.mem_cons_of_mem _ member)
      cases processor with
      | none => exact ih later
      | some processor =>
          exact (ih later).trans (renameDefault_other procProc (unused processor List.mem_cons_self))

/-- A gateway that one processor uses is renamed once. -/
theorem renameDefaults_used (procProc : Int → Option Int) {processors : Processors} {gateways : List Gateway}
    {gatewayId index : Nat} {processor : Processor} (here : processors[index]? = some (some processor))
    (used : processor.gateway = some (.stage gatewayId))
    (unique : ∀ other found, processors[other]? = some (some found) →
      found.gateway = some (.stage gatewayId) → other = index) :
    (renameDefaults procProc processors gateways).2[gatewayId]? =
      (gateways[gatewayId]?).map (renameGateway procProc) := by
  induction processors generalizing gateways index with
  | nil => cases here
  | cons first rest ih =>
      cases index with
      | zero =>
          cases here
          have unused : ∀ found, some found ∈ rest → found.gateway ≠ some (.stage gatewayId) := by
            intro found member shares
            obtain ⟨position, at_⟩ := List.mem_iff_getElem?.mp member
            exact absurd (unique (position + 1) found at_ shares) (by omega)
          refine (renameDefaults_unused procProc unused).trans ?_
          simp only [used]
          rw [List.getElem?_modify]
          simp only [if_true]
          rfl
      | succ index =>
          have later := fun gateways => @ih gateways index here fun other found at_ shares =>
            Nat.succ_injective (unique (other + 1) found at_ shares)
          cases first with
          | none => exact later gateways
          | some first =>
              have different : first.gateway ≠ some (.stage gatewayId) := fun shares =>
                absurd (unique 0 first rfl shares) (by omega)
              exact (later _).trans (congrArg _ (renameDefault_other procProc different))

end Builder

open Builder

/-! ### The numbers of a placed program -/

section

variable {program : Program} {distribution : DistributionResult} {physicalProcId : List Int}
  {processors : Processors} {extraId : Int}

private theorem extraProcessorId_above {sequence : List Int} {id : Int} (member : id ∈ sequence) :
    id < extraProcessorId sequence := by
  have bound : ∀ (items : List Int) (start : Int), start ≤ items.foldl max start ∧
      ∀ item ∈ items, item ≤ items.foldl max start := by
    intro items
    induction items with
    | nil => exact fun start => ⟨le_rfl, by simp⟩
    | cons item rest ih =>
        intro start
        obtain ⟨first, others⟩ := ih (max start item)
        refine ⟨(le_max_left _ _).trans first, ?_⟩
        intro other inside
        rcases List.mem_cons.mp inside with rfl | later
        · exact (le_max_right _ _).trans first
        · exact others other later
  have below := (bound sequence 0).2 id member
  unfold extraProcessorId
  omega

theorem extraProcessorId_pos (sequence : List Int) : 0 < extraProcessorId sequence := by
  have bound : ∀ (items : List Int) (start : Int), start ≤ items.foldl max start := by
    intro items
    induction items with
    | nil => exact fun start => le_rfl
    | cons item rest ih => exact fun start => (le_max_left _ _).trans (ih (max start item))
  have nonneg := bound sequence 0
  unfold extraProcessorId
  omega

/-- What is on a processor: a stage, under its own number, or a parser-only run under a number no
stage has. -/
theorem processor_cases (placed : Placed program physicalProcId)
    (built : Built program distribution physicalProcId procCount (processors, extraId)) {index : Nat}
    {processor : Processor} (here : processors[index]? = some (some processor)) :
    (∃ stageId, physicalProcId[index]? = some stageId ∧ 0 ≤ stageId ∧ processor.id = stageId ∧
      ∃ stage levels, program.stages.lookupId stageId = some stage ∧
        stageLevels program distribution.distributedLevels stageId = some levels ∧
        processor = stageProcessor stage stageId ((chunks levels).drop
          (taken program distribution physicalProcId (index + 1) -
            taken program distribution physicalProcId index)).flatten) ∨
    ∃ position : Nat, (freeSlots physicalProcId)[position]? = some index ∧
      processor.id = extraProcessorId distribution.topoSequence + position ∧
      ∃ entry, processor.gateway = some (.own entry) ∧ processor.matcher = [] ∧ processor.executor = [] := by
  have inside : index < procCount := built.length ▸ (List.getElem?_eq_some_iff.mp here).1
  obtain ⟨stageId, at_⟩ : ∃ stageId, physicalProcId[index]? = some stageId :=
    ⟨_, List.getElem?_eq_getElem (placed.length ▸ inside)⟩
  by_cases nonneg : 0 ≤ stageId
  · obtain ⟨stage, levels, found, known, same⟩ := built.stages index inside stageId at_ nonneg
    have equal := Option.some.inj (Option.some.inj (here.symm.trans same))
    exact .inl ⟨stageId, at_, nonneg, by rw [equal]; rfl, stage, levels, found, known, equal⟩
  · have free : index ∈ freeSlots physicalProcId := by
      refine List.mem_filter.mpr ⟨List.mem_range.mpr inside, ?_⟩
      rw [List.getD_eq_getElem?_getD, at_]
      simpa using nonneg
    obtain ⟨position, slot⟩ := List.mem_iff_getElem?.mp free
    by_cases used : position < taken program distribution physicalProcId procCount
    · obtain ⟨owner, run, last, same⟩ := built.filled position index slot used
      have equal := Option.some.inj (Option.some.inj (here.symm.trans same))
      subst equal
      exact .inr ⟨position, slot, rfl, _, rfl, rfl, rfl⟩
    · have vacant := built.empty position index slot (Nat.le_of_not_lt used)
      cases Option.some.inj (here.symm.trans vacant)

/-- Processor numbers are distinct and not negative. -/
theorem processor_ids (placed : Placed program physicalProcId)
    (ordered : ∀ id ∈ (liveStages program.stages.logicalStages).map Stage.stageId,
      id ∈ distribution.topoSequence)
    (built : Built program distribution physicalProcId procCount (processors, extraId)) {index : Nat}
    {processor : Processor} (here : processors[index]? = some (some processor)) :
    0 ≤ processor.id ∧ ∀ other found, processors[other]? = some (some found) → found.id = processor.id →
      other = index := by
  have positive := extraProcessorId_pos distribution.topoSequence
  have small : ∀ (position : Nat) (stageId : Int), physicalProcId[position]? = some stageId → 0 ≤ stageId →
      stageId < extraProcessorId distribution.topoSequence := by
    intro position stageId at_ nonneg
    obtain ending | live := placed.entries stageId (List.mem_of_getElem? at_)
    · omega
    · exact extraProcessorId_above (ordered stageId live)
  obtain ⟨stageId, at_, nonneg, same, _⟩ | ⟨position, slot, same, _⟩ := processor_cases placed built here
  · refine ⟨same ▸ nonneg, fun other found there equal => ?_⟩
    obtain ⟨otherId, otherAt, otherNonneg, otherSame, _⟩ | ⟨otherPosition, _, otherSame, _⟩ :=
      processor_cases placed built there
    · have ids : otherId = stageId := otherSame.symm.trans (equal.trans same)
      exact placed.once other index stageId (ids ▸ otherAt) at_ nonneg
    · have below := small index stageId at_ nonneg
      omega
  · refine ⟨by omega, fun other found there equal => ?_⟩
    obtain ⟨otherId, otherAt, otherNonneg, otherSame, _⟩ | ⟨otherPosition, otherSlot, otherSame, _⟩ :=
      processor_cases placed built there
    · have below := small other otherId otherAt otherNonneg
      omega
    · have positions : otherPosition = position := by omega
      rw [positions, slot] at otherSlot
      exact (Option.some.inj otherSlot).symm

/-- A stage is found on the processor it is placed on. -/
theorem procProc_stage (placed : Placed program physicalProcId)
    (ordered : ∀ id ∈ (liveStages program.stages.logicalStages).map Stage.stageId,
      id ∈ distribution.topoSequence)
    (built : Built program distribution physicalProcId procCount (processors, extraId)) {index : Nat}
    {stageId : Int} (at_ : physicalProcId[index]? = some stageId) (nonneg : 0 ≤ stageId) :
    procProc processors stageId = some (index : Int) := by
  have inside : index < procCount := placed.length ▸ (List.getElem?_eq_some_iff.mp at_).1
  obtain ⟨stage, levels, _, _, here⟩ := built.stages index inside stageId at_ nonneg
  obtain ⟨_, unique⟩ := processor_ids placed ordered built here
  exact procProc_found nonneg unique here

end

/-! ### The emitted documents -/

/-- What a table refers to. -/
def tableTargets (entry : String × Table) : Int × List (Int × Int) := (entry.2.tableId, entry.2.actionToProc)

/-- A loaded program with a placement, and the configuration emitted for them. The blocks of the
tables play no part. -/
structure Emission (program : Program) (distribution : DistributionResult) (memory : MemoryResult)
    (docs : List (Option ProcessorDoc)) : Prop where
  loaded : Loaded program
  ordered : ∀ id ∈ (liveStages program.stages.logicalStages).map Stage.stageId, id ∈ distribution.topoSequence
  placed : Placed program memory.physicalProcId
  tables : memory.tables.map tableTargets = program.tables.map tableTargets
  emitted : (allocateProcessors program distribution memory).bind Ipsa.toIpsaValue = some docs

theorem lookupId_live {stages : StageManager} {stageId : Int} {stage : Stage}
    (found : stages.lookupId stageId = some stage) :
    stage ∈ liveStages stages.logicalStages ∧ stage.stageId = stageId := by
  have holds := List.find?_some found
  rw [Bool.and_eq_true, Bool.not_eq_true'] at holds
  exact ⟨List.mem_filter.mpr ⟨List.mem_of_find?_eq_some found, by simp [holds.1]⟩, by simpa using holds.2⟩

theorem lookupId_reorder (tables : TableManager) (procProc : Int → Option Int) (tableId : Int) :
    (tables.reorderStages procProc).lookupId tableId = (tables.lookupId tableId).map fun table =>
      { table with
        procId := (procProc table.procId).getD 0
        actionToProc := table.actionToProc.map fun pair => (pair.1, (procProc pair.2).getD 0) } := by
  unfold TableManager.lookupId TableManager.reorderStages
  rw [List.find?_map, Option.map_map, Option.map_map]
  rfl

section

variable {program : Program} {distribution : DistributionResult} {memory : MemoryResult}
  {docs : List (Option ProcessorDoc)}

/-- The builder when the documents are written. -/
def finalIpsa (program : Program) (memory : MemoryResult) (processors : Processors) : Ipsa where
  processors := (renameDefaults (procProc processors) processors program.gateways).1
  actions := program.actions
  tables := memory.tables.reorderStages (procProc processors)
  stages := reorderStages program.stages.logicalStages (procProc processors)
  gateways := (renameDefaults (procProc processors) processors program.gateways).2

theorem Emission.processors (emission : Emission program distribution memory docs) :
    ∃ processors extraId, Built program distribution memory.physicalProcId procCount (processors, extraId) ∧
      ∀ (index : Nat) (processor : Option Processor), processors[index]? = some processor →
        match processor with
        | none => docs[index]? = some none
        | some processor => ∃ doc, docs[index]? = some (some doc) ∧
            (finalIpsa program memory processors).processorDoc (renameOwn (procProc processors) processor) =
              some doc := by
  obtain ⟨ipsa, allocated, written⟩ := Option.bind_eq_some_iff.mp emission.emitted
  obtain ⟨processors, built, allocated⟩ := Option.bind_eq_some_iff.mp allocated
  obtain ⟨extraId, built⟩ := buildProcessors_built emission.placed.length built
  refine ⟨processors, extraId, built, fun index processor here => ?_⟩
  have shape : finalIpsa program memory processors = ipsa := Option.some.inj allocated
  subst shape
  have item : (finalIpsa program memory processors).processors[index]? =
      some (processor.map (renameOwn (procProc processors))) := by
    rw [finalIpsa, renameDefaults_processors, List.getElem?_map, here, Option.map_some]
  obtain ⟨bound, value⟩ := List.getElem?_eq_some_iff.mp item
  have step := getElem_of_mapM_some written bound
  rw [value] at step
  cases processor with
  | none => exact step.symm
  | some processor =>
      have bound' : index < docs.length := length_of_mapM_some written ▸ bound
      rw [List.getElem?_eq_getElem bound'] at step
      obtain ⟨doc, made, same⟩ := Option.map_eq_some_iff.mp step
      exact ⟨doc, by rw [List.getElem?_eq_getElem bound', same], made⟩

/-- A stage, its gateway and the document of its processor. -/
structure Emits (program : Program) (memory : MemoryResult) (docs : List (Option ProcessorDoc)) (index : Nat)
    (stage : Stage) (gateway : Gateway) (doc : ProcessorDoc) : Prop where
  at_ : memory.physicalProcId[index]? = some stage.stageId
  live : program.stages.lookupId stage.stageId = some stage
  gateway : program.gateways[stage.gatewayId]? = some gateway
  doc : docs[index]? = some (some doc)

theorem stageId_placed (emission : Emission program distribution memory docs) {stageId : Int}
    (live : stageId ∈ (liveStages program.stages.logicalStages).map Stage.stageId) :
    0 ≤ stageId ∧ ∃ index : Nat, memory.physicalProcId[index]? = some stageId := by
  refine ⟨?_, List.mem_iff_getElem?.mp (emission.placed.all stageId live)⟩
  rw [emission.loaded.numbered.live] at live
  obtain ⟨position, _, rfl⟩ := List.mem_map.mp live
  exact Int.natCast_nonneg position

private theorem gatewayId_unique (loaded : Loaded program) {first second : Stage}
    (firstLive : first ∈ liveStages program.stages.logicalStages)
    (secondLive : second ∈ liveStages program.stages.logicalStages)
    (same : first.gatewayId = second.gatewayId) :
    first = second := by
  have nodup : (program.stages.logicalStages.map Stage.gatewayId).Nodup := by
    rw [loaded.gatewayIds]
    exact List.nodup_range
  exact List.inj_on_of_nodup_map nodup (List.mem_filter.mp firstLive).1 (List.mem_filter.mp secondLive).1 same

/-- The document of a stage's processor. -/
theorem Emission.stage_doc (emission : Emission program distribution memory docs) {processors : Processors}
    {extraId : Int} (built : Built program distribution memory.physicalProcId procCount (processors, extraId))
    (written : ∀ (index : Nat) (processor : Option Processor), processors[index]? = some processor →
      match processor with
      | none => docs[index]? = some none
      | some processor => ∃ doc, docs[index]? = some (some doc) ∧
          (finalIpsa program memory processors).processorDoc
            (renameOwn (procProc processors) processor) = some doc)
    {index : Nat} {stage : Stage} {gateway : Gateway} {doc : ProcessorDoc}
    (emits : Emits program memory docs index stage gateway doc) :
    (renameGateway (procProc processors) gateway).toIpsaValue = some doc.gateway ∧
      stage.tableId.mapM (memory.tables.reorderStages (procProc processors)).lookupId = some doc.matcher ∧
      ∃ levels, stageLevels program distribution.distributedLevels stage.stageId = some levels ∧
        doc.levels = ((chunks levels).drop (taken program distribution memory.physicalProcId (index + 1) -
          taken program distribution memory.physicalProcId index)).flatten := by
  obtain ⟨isLive, _⟩ := lookupId_live emits.live
  obtain ⟨nonneg, _⟩ := stageId_placed emission (List.mem_map_of_mem isLive)
  have inside : index < procCount := emission.placed.length ▸ (List.getElem?_eq_some_iff.mp emits.at_).1
  obtain ⟨found, levels, looked, known, here⟩ := built.stages index inside stage.stageId emits.at_ nonneg
  rw [emits.live] at looked
  cases looked
  -- no other processor shares the gateway of the stage
  have unique : ∀ other processor, processors[other]? = some (some processor) →
      processor.gateway = some (.stage stage.gatewayId) → other = index := by
    intro other processor there shares
    obtain ⟨otherId, otherAt, _, _, otherStage, _, otherFound, _, rfl⟩ | ⟨_, _, _, entry, own, _⟩ :=
      processor_cases emission.placed built there
    · obtain ⟨otherLive, otherSame⟩ := lookupId_live otherFound
      have gateways : otherStage.gatewayId = stage.gatewayId := by simpa [stageProcessor] using shares
      have stages := gatewayId_unique emission.loaded otherLive isLive gateways
      rw [← otherSame, stages] at otherAt
      exact emission.placed.once other index stage.stageId otherAt emits.at_ nonneg
    · rw [own] at shares
      cases shares
  obtain ⟨document, at_, made⟩ := written index _ here
  rw [emits.doc] at at_
  cases at_
  obtain ⟨gatewayDocument, gatewayMade, made⟩ := Option.bind_eq_some_iff.mp made
  obtain ⟨matcher, matcherMade, made⟩ := Option.bind_eq_some_iff.mp made
  obtain ⟨executor, _, made⟩ := Option.bind_eq_some_iff.mp made
  cases made
  refine ⟨?_, matcherMade, levels, known, rfl⟩
  obtain ⟨renamed, renamedAt, gatewayMade⟩ := Option.bind_eq_some_iff.mp gatewayMade
  have used :=
    @renameDefaults_used (procProc processors) processors program.gateways stage.gatewayId index _ here
    rfl unique
  rw [emits.gateway, Option.map_some] at used
  have same := Option.some.inj (used.symm.trans renamedAt)
  rw [same]
  exact gatewayMade

/-- A stage is the one found under its number. -/
theorem lookupId_of_live (loaded : Loaded program) {stage : Stage}
    (live : stage ∈ liveStages program.stages.logicalStages) :
    program.stages.lookupId stage.stageId = some stage := by
  cases found : program.stages.lookupId stage.stageId with
  | none =>
      obtain ⟨member, stays⟩ := List.mem_filter.mp live
      have missing := List.find?_eq_none.mp found stage member
      simp only [Bool.not_eq_true', Bool.not_eq_true] at stays missing
      simp [stays] at missing
  | some other =>
      obtain ⟨otherLive, same⟩ := lookupId_live found
      rw [List.inj_on_of_nodup_map loaded.unique otherLive live same]

/-- Every stage that stays has a document. -/
theorem Emission.emits (emission : Emission program distribution memory docs) {stage : Stage}
    (live : stage ∈ liveStages program.stages.logicalStages) {gateway : Gateway}
    (hasGateway : program.gateways[stage.gatewayId]? = some gateway) :
    ∃ index doc, Emits program memory docs index stage gateway doc := by
  obtain ⟨processors, extraId, built, written⟩ := emission.processors
  obtain ⟨nonneg, index, at_⟩ := stageId_placed emission (List.mem_map_of_mem live)
  have inside : index < procCount := emission.placed.length ▸ (List.getElem?_eq_some_iff.mp at_).1
  obtain ⟨found, levels, looked, known, here⟩ := built.stages index inside stage.stageId at_ nonneg
  obtain ⟨doc, isDoc, _⟩ := written index _ here
  exact ⟨index, doc, at_, lookupId_of_live emission.loaded live, hasGateway, isDoc⟩

end

end Ipbm.Compiler
