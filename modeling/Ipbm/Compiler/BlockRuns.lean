import Ipbm.Compiler.Compilation
import Ipbm.Lib.FirstFit

/-! Where stages and blocks lie. Stages are packed into clusters by first fit.
Every time a table is listed it is given a run of blocks behind those of the
tables listed before it in its cluster. -/

set_option autoImplicit false

namespace Ipbm.Compiler
open Lib Dataplane IpsaConfiguration
open Distribution (liveStages)

namespace Memory

/-- `block` is one of `count` blocks from `start` on. -/
def InRun (start count : Nat) (block : Int) : Prop := start ≤ block ∧ block < start + count

private theorem mem_nextBlocks {start count : Nat} {block : Int} :
    block ∈ nextBlocks start count ↔ InRun start count block := by
  simp only [nextBlocks, List.mem_map, List.mem_range'_1, InRun, Int.ofNat_eq_natCast]
  constructor
  · rintro ⟨number, ⟨low, high⟩, rfl⟩
    omega
  · rintro ⟨low, high⟩
    exact ⟨block.toNat, by omega, by omega⟩

private theorem inRun_add {start first second : Nat} {block : Int} :
    InRun start (first + second) block ↔ InRun start first block ∨ InRun (start + first) second block := by
  unfold InRun
  omega

/-- What the references of a cluster before a position are given. -/
def startOf (given : Int → Nat) (refs : List (Nat × Int)) (position cluster : Nat) : Nat :=
  ((clusterRefs (refs.take position) cluster).map given).sum

/-- The runs of a table: one for each of its references. -/
def InRunOf (given : Int → Nat) (refs : List (Nat × Int)) (tableId block : Int) : Prop :=
  ∃ position cluster, refs[position]? = some (cluster, tableId) ∧
    InRun (startOf given refs position cluster) (given tableId) block

private theorem inRunOf_concat {given : Int → Nat} {refs : List (Nat × Int)} {ref : Nat × Int}
    {tableId block : Int} :
    InRunOf given (refs ++ [ref]) tableId block ↔ InRunOf given refs tableId block ∨
      ref.2 = tableId ∧ InRun ((clusterRefs refs ref.1).map given).sum (given tableId) block := by
  have before : ∀ {position}, position ≤ refs.length → ∀ cluster,
      startOf given (refs ++ [ref]) position cluster = startOf given refs position cluster := by
    intro position low cluster
    rw [startOf, startOf, List.take_append_of_le_length low]
  have whole : ∀ cluster, startOf given refs refs.length cluster =
      ((clusterRefs refs cluster).map given).sum := by
    intro cluster
    rw [startOf, List.take_length]
  constructor
  · rintro ⟨position, cluster, here, inRun⟩
    rcases Nat.lt_or_ge position refs.length with low | high
    · rw [List.getElem?_append_left low] at here
      rw [before low.le] at inRun
      exact .inl ⟨position, cluster, here, inRun⟩
    · rw [List.getElem?_append_right high, List.getElem?_singleton] at here
      split at here
      · next zero =>
          cases here
          have same : position = refs.length := by omega
          rw [before same.le, same, whole] at inRun
          exact .inr ⟨rfl, inRun⟩
      · cases here
  · rintro (⟨position, cluster, here, inRun⟩ | ⟨rfl, inRun⟩)
    · have low := (List.getElem?_eq_some_iff.mp here).1
      refine ⟨position, cluster, (List.getElem?_append_left low).trans here, ?_⟩
      rw [before low.le]
      exact inRun
    · refine ⟨refs.length, ref.1, List.getElem?_concat_length, ?_⟩
      rw [before le_rfl, whole]
      exact inRun

/-- All blocks of all runs are below a bound when the tables of every cluster need no more in all. -/
theorem inRunOf_below_iff {given : Int → Nat} {refs : List (Nat × Int)} {bound : Nat} :
    (∀ tableId block, InRunOf given refs tableId block → block < bound) ↔
      ∀ cluster, ((clusterRefs refs cluster).map given).sum ≤ bound := by
  induction refs using List.reverseRecOn with
  | nil => simp [InRunOf, clusterRefs]
  | append_singleton refs ref ih =>
      have sums : ∀ cluster, ((clusterRefs (refs ++ [ref]) cluster).map given).sum =
          ((clusterRefs refs cluster).map given).sum + if ref.1 = cluster then given ref.2 else 0 := by
        intro cluster
        by_cases here : ref.1 = cluster <;> simp [clusterRefs, here]
      have last : (∀ block, InRun ((clusterRefs refs ref.1).map given).sum (given ref.2) block →
        block < bound) ↔
          given ref.2 = 0 ∨ ((clusterRefs refs ref.1).map given).sum + given ref.2 ≤ bound := by
        unfold InRun
        constructor
        · intro below
          have here := below (((clusterRefs refs ref.1).map given).sum + given ref.2 - 1)
          omega
        · rintro small block ⟨low, high⟩
          omega
      have split : (∀ tableId block, InRunOf given (refs ++ [ref]) tableId block → block < bound) ↔
          (∀ tableId block, InRunOf given refs tableId block → block < bound) ∧
            ∀ block, InRun ((clusterRefs refs ref.1).map given).sum (given ref.2) block → block < bound := by
        constructor
        · intro below
          exact ⟨fun tableId block inRun => below tableId block (inRunOf_concat.mpr (.inl inRun)),
            fun block inRun => below ref.2 block (inRunOf_concat.mpr (.inr ⟨rfl, inRun⟩))⟩
        · rintro ⟨old, new⟩ tableId block inRun
          rcases inRunOf_concat.mp inRun with before | ⟨rfl, here⟩
          · exact old tableId block before
          · exact new block here
      rw [split, ih, last]
      simp only [sums]
      constructor
      · rintro ⟨old, new⟩ cluster
        have before := old cluster
        split_ifs with here
        · subst here
          omega
        · omega
      · intro small
        refine ⟨fun cluster => (Nat.le_add_right ..).trans (small cluster), ?_⟩
        have here := small ref.1
        rw [if_pos rfl] at here
        exact .inr here

private theorem mem_blocks_configureTable {used after : Counters} {table configured : Table}
    (done : configureTable used table = some (configured, after)) (block : Int) :
    (block ∈ configured.sramBlocks ↔ block ∈ table.sramBlocks ∨ InRun used.sram table.given.sram block) ∧
      (block ∈ configured.tcamBlocks ↔ block ∈ table.tcamBlocks ∨
        InRun used.tcam table.given.tcam block) := by
  obtain ⟨-, keyBlocks, valueBlocks, rfl, blocks⟩ := configureTable_eq done
  obtain ⟨type, rfl, rfl⟩ | ⟨type, rfl, rfl⟩ := blocks
  · simp [Table.sramBlocks, Table.tcamBlocks, Table.given_tcam type, type, mem_nextBlocks]
  · constructor
    · simp only [Table.sramBlocks, Table.given_sram type, type, if_pos, List.mem_append,
        mem_nextBlocks, inRun_add]
      tauto
    · simp [Table.tcamBlocks, Table.given_sram type, type, InRun]

/-- Tables and counters after some references, with the blocks of every table. -/
private structure GivenBlocks (initial : TableManager) (done : List (Nat × Int))
    (state : TableManager × List Counters) :
    Prop where
  configured : Configured initial done state
  blocks : ∀ tableId table, state.1.lookupId tableId = some table →
    ∃ old, initial.lookupId tableId = some old ∧ old.blank = table.blank ∧ ∀ block,
      (block ∈ table.sramBlocks ↔ block ∈ old.sramBlocks ∨
        InRunOf (fun tableId => (initial.given tableId).sram) done tableId block) ∧
      (block ∈ table.tcamBlocks ↔ block ∈ old.tcamBlocks ∨
        InRunOf (fun tableId => (initial.given tableId).tcam) done tableId block)

private theorem configureRef_given {initial : TableManager} {done : List (Nat × Int)}
    {state : TableManager × List Counters} {ref : Nat × Int} (inside : ref.1 < clusterCount)
    (nodup : (initial.map fun entry => entry.2.tableId).Nodup)
    (known : ∀ entry ∈ initial, entry.2.space.isSome)
    (listed : ref.2 ∈ initial.map fun entry => entry.2.tableId) (old : GivenBlocks initial done state) :
    ∃ after, configureRef state ref = some after ∧ GivenBlocks initial (done ++ [ref]) after := by
  obtain ⟨after, step, configured⟩ := configureRef_configured nodup known listed old.configured
  refine ⟨after, step, configured, fun tableId table found => ?_⟩
  obtain ⟨first, isFirst, step⟩ := Option.bind_eq_some_iff.mp step
  obtain ⟨⟨second, used⟩, changed, step⟩ := Option.bind_eq_some_iff.mp step
  cases step
  have blank := (configureTable_configures changed).blank
  rw [lookupId_update isFirst ((blank_congr blank).1.trans (lookupId_entry isFirst).1)] at found
  split at found
  · next here =>
      subst here
      cases found
      obtain ⟨source, isSource, sourceBlank, blocks⟩ := old.blocks _ first isFirst
      have given : initial.given ref.2 = first.given := by
        rw [TableManager.given, isSource, Option.map_some, Option.getD_some, (given_of_blank sourceBlank).1]
      refine ⟨source, isSource, sourceBlank.trans blank.symm, fun block => ?_⟩
      obtain ⟨sram, tcam⟩ := mem_blocks_configureTable changed block
      rw [← given, old.configured.counters _ sram_measure _ inside] at sram
      rw [← given, old.configured.counters _ tcam_measure _ inside] at tcam
      rw [sram, tcam, (blocks block).1, (blocks block).2, inRunOf_concat, inRunOf_concat]
      simp only [true_and, or_assoc, and_self]
  · next different =>
      obtain ⟨source, isSource, sourceBlank, blocks⟩ := old.blocks tableId table found
      refine ⟨source, isSource, sourceBlank, fun block => ?_⟩
      rw [(blocks block).1, (blocks block).2, inRunOf_concat, inRunOf_concat]
      simp only [Ne.symm different, false_and, or_false, and_self]

/-! ### Clusters -/

/-- A cluster has a processor left for a stage, and enough blocks. -/
def Room (need : Int → Space) (there : List Int) (stageId : Int) : Prop :=
  there.length < clusterProcCount ∧
    (need stageId).sram ≤ wrapInt (clusterSramCount - (there.map fun id => (need id).sram).sum) ∧
    (need stageId).tcam ≤ wrapInt (clusterTcamCount - (there.map fun id => (need id).tcam).sum)

instance (need : Int → Space) : DecidableRel (Room need) :=
  fun _ _ => inferInstanceAs (Decidable (_ ∧ _ ∧ _))

/-- A placement holds the stages as first fit packs them. -/
private structure Packs (need : Int → Space) (done : List Int) (placement : Placement) : Prop where
  spaces : placement.clusterSpace.length = clusterCount
  procs : placement.clusterProc.length = clusterCount
  content : ∀ cluster < clusterCount,
    placement.clusterProc.getD cluster [] = pack clusterCount (Room need) done cluster
  space : ∀ cluster < clusterCount, placement.clusterSpace.getD cluster .zero =
    ⟨wrapInt (clusterSramCount - ((placement.clusterProc.getD cluster []).map fun id => (need id).sram).sum),
      wrapInt (clusterTcamCount - ((placement.clusterProc.getD cluster []).map fun id => (need id).tcam).sum)⟩

private theorem placeStage_packs {need : Int → Space} {done : List Int} {placement : Placement}
    (stageId : Int) (old : Packs need done placement) :
    Packs need (done ++ [stageId]) (placeStage need placement stageId) := by
  have rooms : ∀ cluster < clusterCount, fits placement (need stageId) cluster =
      decide (Room need (pack clusterCount (Room need) done cluster) stageId) := by
    intro cluster inside
    rw [fits, old.space cluster inside, old.content cluster inside, Bool.eq_iff_iff]
    refine Iff.trans ?_ decide_eq_true_iff.symm
    simp only [Bool.and_eq_true, decide_eq_true_eq, and_assoc]
    rfl
  have found : (List.range clusterCount).find? (fits placement (need stageId)) =
      (List.range clusterCount).find? fun cluster =>
        decide (Room need (pack clusterCount (Room need) done cluster) stageId) := by
    rw [← List.head?_filter, ← List.head?_filter]
    exact congrArg List.head? (List.filter_congr fun cluster member =>
      rooms cluster (List.mem_range.mp member))
  have packed : pack clusterCount (Room need) (done ++ [stageId]) =
      packItem clusterCount (Room need) (pack clusterCount (Room need) done) stageId := by
    rw [pack, List.foldl_append]
    rfl
  cases target : (List.range clusterCount).find? (fits placement (need stageId)) with
  | none =>
      rw [placeStage, target]
      refine ⟨old.spaces, old.procs, fun cluster inside => ?_, old.space⟩
      rw [packed, packItem_of_none (found ▸ target)]
      exact old.content cluster inside
  | some target' =>
      have low := List.mem_range.mp (List.mem_of_find?_eq_some target)
      rw [placeStage, target]
      refine ⟨by simpa using old.spaces, by simpa using old.procs, fun cluster inside => ?_,
        fun cluster inside => ?_⟩
      · rw [packed, packItem_of_some (found ▸ target), getD_modify _ _ _ _ _ (old.procs ▸ low)]
        by_cases here : cluster = target'
        · rw [if_pos here, here, Function.update_self, old.content target' low]
        · rw [if_neg here, Function.update_of_ne here, old.content cluster inside]
      · rw [getD_modify _ _ _ _ _ (old.spaces ▸ low), getD_modify _ _ _ _ _ (old.procs ▸ low),
          old.space cluster inside, old.space target' low]
        split
        · next here =>
            subst here
            simp only [Space.sub, List.map_append, List.sum_append, List.map_cons,
              List.map_nil, List.sum_cons, List.sum_nil, Int.add_zero, Int.sub_eq_add_neg,
              wrapInt_add, Int.neg_add, Int.add_assoc]
        · rfl

private theorem placeStages_packs (need : Int → Space) (sequence : List Int) :
    Packs need sequence (placeStages need sequence) := by
  induction sequence using List.reverseRecOn with
  | nil =>
      have content : ∀ cluster < clusterCount, emptyPlacement.clusterProc.getD cluster [] = [] := by decide
      refine ⟨rfl, rfl, content, fun cluster inside => ?_⟩
      change emptyPlacement.clusterSpace.getD cluster .zero = ⟨wrapInt (clusterSramCount -
        ((emptyPlacement.clusterProc.getD cluster []).map fun id =>
          (need id).sram).sum), wrapInt (clusterTcamCount -
        ((emptyPlacement.clusterProc.getD cluster []).map fun id => (need id).tcam).sum)⟩
      rw [content cluster inside, List.map_nil, List.map_nil, List.sum_nil]
      revert cluster
      decide
  | append_singleton sequence stageId ih =>
      rw [placeStages, List.foldl_append]
      exact placeStage_packs stageId ih

/-- The processor of a stage: the clusters have four each, and a stage is behind those that come
before it in its cluster. -/
def procOf (place : Int → Nat) (sequence : List Int) (stageId : Int) : Nat :=
  place stageId * clusterProcCount + (sequence.filter fun id => place id = place stageId).idxOf stageId

theorem placeStages_plan {need : Int → Space} {sequence : List Int} {place : Int → Nat}
    (nodup : sequence.Nodup) (fit : FirstFit clusterCount (Room need) sequence place)
    {stageId : Int} (member : stageId ∈ sequence) :
    (placeStages need sequence).physicalProcId[procOf place sequence stageId]? = some stageId ∧
      procOf place sequence stageId / clusterProcCount = place stageId := by
  have packs := placeStages_packs need sequence
  have placed := placeStages_of need nodup
  obtain ⟨position, inside, rfl⟩ := List.mem_iff_getElem.mp member
  have low := (fit position inside).1
  have content := packs.content _ low
  rw [fit.pack_eq] at content
  -- the stages before it in its cluster are the ones that were there when it came
  have offset : (sequence.filter fun id => place id = place sequence[position]).idxOf sequence[position] =
      ((sequence.take position).filter fun id => place id = place sequence[position]).length := by
    have split : sequence = sequence.take position ++ sequence[position] :: sequence.drop (position + 1) := by
      rw [← List.drop_eq_getElem_cons inside, List.take_append_drop]
    have fresh : sequence[position] ∉ sequence.take position := by
      rw [split] at nodup
      exact fun before => (List.nodup_append.mp nodup).2.2 _ before _ List.mem_cons_self rfl
    generalize sequence[position] = stageId at split fresh
    conv_lhs => rw [split]
    rw [List.filter_append, List.idxOf_append_of_notMem fun before => fresh (List.mem_filter.mp before).1,
      List.filter_cons_of_pos (by simp), List.idxOf_cons_self, Nat.add_zero]
  have small : ((sequence.take position).filter fun id => place id = place sequence[position]).length <
      clusterProcCount := (fit position inside).2.1.1
  rw [procOf, offset]
  constructor
  · rw [placed.cells _ low _ small, content, ← offset, List.getElem?_idxOf, Option.getD_some]
    exact List.mem_filter.mpr ⟨member, decide_eq_true rfl⟩
  · simp only [clusterProcCount] at small ⊢
    omega

/-- When all stages are placed there is a plan. -/
theorem placeStages_exists {need : Int → Space} {sequence : List Int} (nodup : sequence.Nodup)
    (ordinary : ∀ id ∈ sequence, 0 ≤ id)
    (all : ∀ id ∈ sequence, id ∈ (placeStages need sequence).physicalProcId) :
    ∃ place, FirstFit clusterCount (Room need) sequence place := by
  have packs := placeStages_packs need sequence
  have placed := placeStages_of need nodup
  refine exists_firstFit nodup fun id member => ?_
  obtain ⟨index, here⟩ := List.mem_iff_getElem?.mp (all id member)
  obtain ⟨inside, cell⟩ := placed.cluster (ordinary id member) here
  exact ⟨_, packs.content _ inside ▸ List.mem_of_getElem? cell⟩

end Memory

section

open Memory

variable {headers : HeaderLookup} {getHeader : String → Option Int}
  {sort : (Int → Int → Bool) → List Int → List Int} {levels : List Level} {ast : Ast} {program : Program}
  {distribution : DistributionResult} {memory : MemoryResult} {docs : List (Option ProcessorDoc)}

theorem mem_tableRefs {stages : List Stage} {procs : List Int} {ref : Nat × Int}
    (member : ref ∈ tableRefs stages procs) :
    ∃ stage ∈ liveStages stages, ref.2 ∈ stage.tableId ∧ procCluster procs stage.stageId = ref.1 := by
  obtain ⟨stage, live, listed⟩ := List.mem_flatMap.mp member
  obtain ⟨tableId, isTable, rfl⟩ := List.mem_map.mp listed
  exact ⟨stage, live, isTable, rfl⟩

/-- The blocks of a table after the memory pass. -/
theorem Compiled.mem_blocks
    (compiled : Compiled headers getHeader sort levels ast program distribution memory docs)
    {tableId : Int} {table : Table} (found : memory.tables.lookupId tableId = some table) (block : Int) :
    (block ∈ table.sramBlocks ↔ InRunOf (fun tableId => (program.tables.given tableId).sram)
        (tableRefs program.stages.logicalStages memory.physicalProcId) tableId block) ∧
      (block ∈ table.tcamBlocks ↔ InRunOf (fun tableId => (program.tables.given tableId).tcam)
        (tableRefs program.stages.logicalStages memory.physicalProcId) tableId block) := by
  have loaded := load_loaded compiled.done
  obtain ⟨space, spaces, allocated⟩ := compiled.allocated
  obtain ⟨placement, placed, samePlaces, _⟩ := allocated.placed
  have start : GivenBlocks program.tables [] (program.tables, List.replicate clusterCount .zero) := by
    refine ⟨loaded.configured, fun tableId table found => ⟨table, found, rfl, fun block => ?_⟩⟩
    simp [InRunOf]
  have each : ∀ done ref state, ref ∈ tableRefs program.stages.logicalStages memory.physicalProcId →
      GivenBlocks program.tables done state →
      ∃ after, configureRef state ref = some after ∧ GivenBlocks program.tables (done ++ [ref]) after := by
    intro done ref state member old
    obtain ⟨stage, live, listed, isCluster⟩ := mem_tableRefs member
    obtain ⟨index, here, same⟩ := procCluster_index (loaded.ordinary stage live) (compiled.placed stage live)
    refine configureRef_given ?_ loaded.tableIds
      (fun entry member => Option.isSome_of_eq_some (allocated.known entry member))
      (loaded.tables stage (List.mem_filter.mp live).1 ref.2 listed) old
    rw [← isCluster, same]
    rw [← samePlaces] at here
    exact (placed.cluster (loaded.ordinary stage live) here).1
  obtain ⟨after, run, given⟩ := foldlM_runs (GivenBlocks program.tables) each start
  have allocation := compiled.allocation
  simp only [allocateMemory, spaces, Option.bind_eq_bind, Option.bind_some] at allocation
  obtain ⟨other, sameRun, same⟩ := Option.bind_eq_some_iff.mp allocation
  cases same
  cases sameRun.symm.trans run
  obtain ⟨old, isOld, -, blocks⟩ := given.blocks tableId table found
  obtain ⟨_, name, member⟩ := lookupId_entry isOld
  have key : old.keyMemory.config = [] := (loaded.memories (name, old) member).key
  have value : old.valueMemory.config = [] := (loaded.memories (name, old) member).value
  rw [(blocks block).1, (blocks block).2]
  simp [Table.sramBlocks, Table.tcamBlocks, key, value]

/-- The tables the stages list, each with the cluster of its stage, in the order of declaration. -/
def placedRefs (place : Int → Nat) (stages : List Stage) : List (Nat × Int) :=
  (liveStages stages).flatMap fun stage => stage.tableId.map fun tableId => (place stage.stageId, tableId)

/-- A plan puts every stage into the first cluster with room for what its tables need. -/
def StagePlan (program : Program) (sequence : List Int) (place : Int → Nat) : Prop :=
  FirstFit clusterCount (Room (procSpace program.tables.space program.stages.logicalStages)) sequence place

instance (program : Program) (sequence : List Int) (place : Int → Nat) :
    Decidable (StagePlan program sequence place) :=
  inferInstanceAs (Decidable (FirstFit ..))

theorem Compiled.physicalProcId_eq
    (compiled : Compiled headers getHeader sort levels ast program distribution memory docs) :
    memory.physicalProcId = (placeStages (procSpace program.tables.space program.stages.logicalStages)
      distribution.topoSequence).physicalProcId := by
  have allocation := compiled.allocation
  obtain ⟨space, spaces, allocation⟩ := Option.bind_eq_some_iff.mp allocation
  obtain ⟨_, _, same⟩ := Option.bind_eq_some_iff.mp allocation
  cases same
  rw [tableSpace_eq spaces]

theorem Compiled.exists_plan
    (compiled : Compiled headers getHeader sort levels ast program distribution memory docs) :
    ∃ place, StagePlan program distribution.topoSequence place := by
  have loaded := load_loaded compiled.done
  obtain ⟨_, nodup, order⟩ := distributeParsers_order loaded compiled.distributed
  have stageOf : ∀ id ∈ distribution.topoSequence,
      ∃ stage ∈ liveStages program.stages.logicalStages, stage.stageId = id := fun id member =>
    List.mem_map.mp ((order id).mp member)
  refine placeStages_exists nodup ?_ ?_
  · intro id member
    obtain ⟨stage, live, rfl⟩ := stageOf id member
    exact loaded.ordinary stage live
  · intro id member
    obtain ⟨stage, live, rfl⟩ := stageOf id member
    exact compiled.physicalProcId_eq ▸ compiled.placed stage live

/-- The processor of a stage is in the cluster of the plan. -/
theorem Compiled.plan_cluster
    (compiled : Compiled headers getHeader sort levels ast program distribution memory docs)
    {place : Int → Nat} (plan : StagePlan program distribution.topoSequence place) {stage : Stage}
    (live : stage ∈ liveStages program.stages.logicalStages) :
    procOf place distribution.topoSequence stage.stageId / clusterProcCount = place stage.stageId := by
  obtain ⟨_, nodup, order⟩ := distributeParsers_order (load_loaded compiled.done) compiled.distributed
  exact (placeStages_plan nodup plan ((order stage.stageId).mpr (List.mem_map_of_mem live))).2

/-- The processors of the stages, and with them the clusters their tables get blocks in. -/
theorem Compiled.plan (compiled : Compiled headers getHeader sort levels ast program distribution memory docs)
    {place : Int → Nat} (plan : StagePlan program distribution.topoSequence place) :
    (∀ stage ∈ liveStages program.stages.logicalStages, ∀ index : Nat, memory.physicalProcId[index]? =
        some stage.stageId ↔ index = procOf place distribution.topoSequence stage.stageId) ∧
      tableRefs program.stages.logicalStages memory.physicalProcId =
        placedRefs place program.stages.logicalStages := by
  have loaded := load_loaded compiled.done
  obtain ⟨_, nodup, order⟩ := distributeParsers_order loaded compiled.distributed
  have placed := placeStages_of (procSpace program.tables.space program.stages.logicalStages) nodup
  have planned := fun (stage : Stage) live => placeStages_plan nodup plan
    ((order stage.stageId).mpr (List.mem_map_of_mem live))
  rw [← compiled.physicalProcId_eq] at planned
  have once : ∀ stage ∈ liveStages program.stages.logicalStages, ∀ {index : Nat},
      memory.physicalProcId[index]? = some stage.stageId →
        index = procOf place distribution.topoSequence stage.stageId := by
    intro stage live index here
    rw [compiled.physicalProcId_eq] at here
    exact placed.once (loaded.ordinary stage live) here (compiled.physicalProcId_eq ▸ (planned stage live).1)
  constructor
  · intro stage live index
    refine ⟨once stage live, ?_⟩
    rintro rfl
    exact (planned stage live).1
  · refine List.flatMap_congr fun stage live => List.map_congr_left fun tableId _ => ?_
    obtain ⟨index, here, same⟩ := procCluster_index (loaded.ordinary stage live) (compiled.placed stage live)
    rw [same, once stage live here, (planned stage live).2]

end

end Ipbm.Compiler
