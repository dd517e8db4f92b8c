import Ipbm.Compiler.BlockRuns
import Ipbm.Compiler.Numbering

/-! Numbers of a configuration and the fixed arrays of the data plane they index.
The compiler is built for 16 processors with hundreds of blocks in a cluster, the
data plane for 12 processors with 20 and 16, and neither checks. -/

set_option autoImplicit false

namespace Ipbm.System
open Lib Dataplane Compiler Compiler.Memory Compiler.Builder
open Compiler.IpsaConfiguration (procCount clusterCount clusterProcCount maxLevel)
open Compiler.Distribution (liveStages)

/-- Headers a packet has room for. -/
def headerNum : Nat := 32

/-- The array for the blocks of a table's keys. -/
def keyConfigSize (type : MemoryType) : Nat :=
  match type with
  | .sram => sramNumPerCluster
  | .tcam => tcamNumPerCluster

def EveryTable (docs : List (Option ProcessorDoc)) (property : Table → Prop) : Prop :=
  ∀ (index : Nat) doc, docs[index]? = some (some doc) → ∀ table ∈ doc.matcher, property table

/-- Every index of a configuration is within its array. -/
structure FitsDataplane (manager : HeaderManager) (docs : List (Option ProcessorDoc)) : Prop where
  processors : ∀ (index : Nat) doc, docs[index]? = some (some doc) → index < procNum
  sram : EveryTable docs fun table => ∀ block ∈ table.sramBlocks, block < sramNumPerCluster
  tcam : EveryTable docs fun table => ∀ block ∈ table.tcamBlocks, block < tcamNumPerCluster
  keyConfig : EveryTable docs fun table => table.keyMemory.config.length ≤ keyConfigSize table.keyMemory.type
  valueConfig : EveryTable docs fun table => table.valueMemory.config.length ≤ sramNumPerCluster
  matchers : EveryTable docs fun table => table.id < matcherThreadNum
  actions : ∀ (index : Nat) doc, docs[index]? = some (some doc) →
    ∀ action ∈ doc.executor, action.id < executorActionNum
  tableActions : EveryTable docs fun table =>
    table.missActionId < executorActionNum ∧ ∀ pair ∈ table.actionToProc, pair.1 < executorActionNum
  headers : ∀ entry ∈ manager.headers, entry.2.headerId < headerNum

/-- A property of the tables the stages of a loaded program list. -/
def EveryListed (program : Program) (property : Table → Prop) : Prop :=
  ∀ stage ∈ liveStages program.stages.logicalStages, ∀ tableId ∈ stage.tableId,
    ∀ table ∈ program.tables.lookupId tableId, property table

/-- How often the stages list a table; it is given its blocks every time. -/
def listings (program : Program) (tableId : Int) : Nat :=
  ((liveStages program.stages.logicalStages).flatMap Stage.tableId).count tableId

/-- Processors that a stage takes besides its own, for its levels but the last few. -/
def extraRuns (program : Program) (distribution : DistributionResult) (stageId : Int) : Nat :=
  (((stageLevels program distribution.distributedLevels stageId).getD []).length + (maxLevel - 1)) /
    maxLevel - 1

/-- The tables of the stages of a cluster, once for each time one of them lists it. -/
def placedTables (program : Program) (place : Int → Nat) (cluster : Nat) : List Int :=
  ((liveStages program.stages.logicalStages).filter fun stage =>
    place stage.stageId = cluster).flatMap Stage.tableId

/-- A stage that lists the table behind `bound` others is followed by one that lists it again. -/
def ListedEarly (bound : Nat) (tableId : Int) : List Stage → Prop
  | [] => True
  | stage :: rest =>
      (tableId ∈ stage.tableId.drop bound → ∃ later ∈ rest, tableId ∈ later.tableId) ∧
        ListedEarly bound tableId rest

instance (bound : Nat) (tableId : Int) (stages : List Stage) :
    Decidable (ListedEarly bound tableId stages) := by
  induction stages with
  | nil => exact inferInstanceAs (Decidable True)
  | cons stage rest ih => exact inferInstanceAs (Decidable (_ ∧ _))

/-- The program is small enough for the data plane: no stage needs the fourth cluster, and there are
processors for all stages and levels; the tables of a cluster need 20 and 16 blocks at most; no
table's list of blocks, no list of tables and no list of actions or headers is too long. -/
structure SmallProgram (manager : HeaderManager) (program : Program) (distribution : DistributionResult)
    (place : Int → Nat) : Prop where
  clusters : ∀ stage ∈ liveStages program.stages.logicalStages, place stage.stageId < procNum /
    clusterProcCount
  processors : (liveStages program.stages.logicalStages).length +
    ((liveStages program.stages.logicalStages).map fun stage =>
      extraRuns program distribution stage.stageId).sum ≤
      procNum
  sram : ∀ cluster < clusterCount,
    ((placedTables program place cluster).map fun id => (program.tables.given id).sram).sum ≤
      sramNumPerCluster
  tcam : ∀ cluster < clusterCount,
    ((placedTables program place cluster).map fun id => (program.tables.given id).tcam).sum ≤
      tcamNumPerCluster
  keyConfig : EveryListed program fun table =>
    listings program table.tableId * table.keyMemory.given ≤ keyConfigSize table.keyMemory.type
  valueConfig : EveryListed program fun table =>
    listings program table.tableId * table.valueMemory.given ≤ sramNumPerCluster
  matchers : ∀ stage ∈ liveStages program.stages.logicalStages, ∀ tableId ∈ stage.tableId,
    ListedEarly matcherThreadNum tableId program.stages.logicalStages
  actions : ∀ stage ∈ liveStages program.stages.logicalStages, ∀ pair ∈ stage.actionProc, pair.1 <
    executorActionNum
  tableActions : EveryListed program fun table =>
    table.missActionId < executorActionNum ∧ ∀ pair ∈ table.actionToProc, pair.1 < executorActionNum
  headers : manager.counted.length ≤ headerNum

section

variable {headers : HeaderLookup} {getHeader : String → Option Int}
  {sort : (Int → Int → Bool) → List Int → List Int} {levels : List Level} {ast : Ast} {program : Program}
  {distribution : DistributionResult} {memory : MemoryResult} {docs : List (Option ProcessorDoc)}
  {need : Int → Space}

/-! ### From documents to the loaded program -/

private theorem everyTable_iff
    (compiled : Compiled headers getHeader sort levels ast program distribution memory docs)
    (property : Table → Prop) (emitted : ∀ source table, EmittedAs source table →
      (property table ↔ property source))
    (blank : ∀ table : Table, property table ↔ property table.blank) :
    EveryTable docs property ↔ EveryListed program property := by
  refine (compiled.emission.forall_tables_iff emitted).trans ?_
  have same := compiled.lookupId_memory
  constructor
  · intro all stage live tableId listed table found
    have equal := same tableId
    rw [found, Option.map_some] at equal
    obtain ⟨source, isSource, sameBlank⟩ := Option.map_eq_some_iff.mp equal
    rw [blank, ← sameBlank, ← blank]
    exact all stage live tableId listed source isSource
  · intro all stage live tableId listed source found
    have equal := same tableId
    rw [found, Option.map_some] at equal
    obtain ⟨table, isTable, sameBlank⟩ := Option.map_eq_some_iff.mp equal.symm
    rw [blank, ← sameBlank, ← blank]
    exact all stage live tableId listed table isTable

/-- Stages and the runs of levels that take free processors, the first ones first, are on processors
below 12. -/
private structure FewProcessors (program : Program) (distribution : DistributionResult)
    (procs : List Int) : Prop where
  stages : ∀ index < procCount, 0 ≤ procs.getD index (-1) → index < procNum
  parsers :
    ∀ slot ∈ (freeSlots procs).take (runsBefore program distribution.distributedLevels procs procCount),
    slot < procNum

private theorem fewProcessors_iff_docs
    (compiled : Compiled headers getHeader sort levels ast program distribution memory docs) :
    (∀ (index : Nat) doc, docs[index]? = some (some doc) → index < procNum) ↔
      FewProcessors program distribution memory.physicalProcId := by
  constructor
  · intro low
    constructor
    · intro index inside placed
      have bound : index < memory.physicalProcId.length := compiled.emission.placed.length ▸ inside
      rw [List.getD_eq_getElem?_getD, List.getElem?_eq_getElem bound, Option.getD_some] at placed
      obtain ⟨doc, here⟩ :=
        compiled.emission.emitted_iff.mpr (.inl ⟨_, List.getElem?_eq_getElem bound, placed⟩)
      exact low index doc here
    · intro slot member
      obtain ⟨doc, here⟩ := compiled.emission.emitted_iff.mpr (.inr member)
      exact low slot doc here
  · intro few index doc here
    rcases compiled.emission.emitted_iff.mp ⟨doc, here⟩ with ⟨stageId, placed, nonneg⟩ | member
    · refine few.stages index (compiled.emission.placed.length ▸ (List.getElem?_eq_some_iff.mp placed).1) ?_
      rwa [List.getD_eq_getElem?_getD, placed]
    · exact few.parsers index member

private theorem range_procCount : List.range procCount = List.range procNum ++ [12, 13, 14, 15] := by decide

private theorem length_filter_front {procs : List Int}
    (free : ∀ index, procNum ≤ index → index < procCount → procs.getD index 0 < 0) :
    ((List.range procNum).filter fun index => decide (¬procs.getD index 0 < 0)).length =
      ((List.range procCount).filter fun index => decide (¬procs.getD index 0 < 0)).length := by
  have behind : [12, 13, 14, 15].filter (fun index => decide (¬procs.getD index 0 < 0)) = [] := by
    have inside : ∀ index ∈ [12, 13, 14, 15], procNum ≤ index ∧ index < procCount := by decide
    refine List.filter_eq_nil_iff.mpr fun index member taken => ?_
    exact of_decide_eq_true taken (free index (inside index member).1 (inside index member).2)
  rw [range_procCount, List.filter_append, behind, List.append_nil]

private theorem take_freeSlots_iff {procs : List Int} {count : Nat}
    (free : ∀ index, procNum ≤ index → index < procCount → procs.getD index 0 < 0) :
    (∀ slot ∈ (freeSlots procs).take count, slot < procNum) ↔
      count ≤ ((List.range procNum).filter fun index => decide (procs.getD index 0 < 0)).length := by
  have behind : [12, 13, 14, 15].filter (fun index => decide (procs.getD index 0 < 0)) =
      [12, 13, 14, 15] := by
    have inside : ∀ index ∈ [12, 13, 14, 15], procNum ≤ index ∧ index < procCount := by decide
    exact List.filter_eq_self.mpr fun index member =>
      decide_eq_true (free index (inside index member).1 (inside index member).2)
  rw [freeSlots, range_procCount, List.filter_append, behind]
  generalize front : (List.range procNum).filter (fun index => decide (procs.getD index 0 < 0)) = slots
  have low : ∀ slot ∈ slots, slot < procNum := by
    intro slot member
    rw [← front] at member
    exact List.mem_range.mp (List.mem_filter.mp member).1
  constructor
  · intro below
    by_contra many
    have taken : 12 ∈ (slots ++ [12, 13, 14, 15]).take count := by
      rw [List.take_append]
      refine List.mem_append_right _ ?_
      obtain ⟨extra, isExtra⟩ : ∃ extra, count - slots.length = extra + 1 :=
        ⟨count - slots.length - 1, by omega⟩
      rw [isExtra]
      exact List.mem_cons_self
    exact absurd (below 12 taken) (by decide)
  · intro few slot member
    rw [List.take_append_of_le_length few] at member
    exact low slot (List.mem_of_mem_take member)

section

variable {place : Int → Nat}

private theorem stageSlots_perm
    (compiled : Compiled headers getHeader sort levels ast program distribution memory docs)
    (plan : StagePlan program distribution.topoSequence place) :
    ((List.range procCount).filter fun index => decide (¬memory.physicalProcId.getD index 0 < 0)).Perm
      ((liveStages program.stages.logicalStages).map fun stage => procOf place
        distribution.topoSequence stage.stageId) := by
  have loaded := load_loaded compiled.done
  have placed := compiled.emission.placed
  have at_ := (compiled.plan plan).1
  refine (List.perm_ext_iff_of_nodup (List.nodup_range.filter _) ?_).mpr fun index => ?_
  · have ids : ((liveStages program.stages.logicalStages).map Stage.stageId).Nodup := by
      rw [loaded.numbered.live]
      exact List.nodup_range.map Nat.cast_injective
    refine List.Nodup.map_on ?_ (List.Nodup.of_map _ ids)
    intro stage live other otherLive same
    have here := (at_ stage live _).mpr rfl
    rw [same] at here
    have equal : other.stageId = stage.stageId :=
      Option.some.inj (((at_ other otherLive _).mpr rfl).symm.trans here)
    exact (List.inj_on_of_nodup_map ids live otherLive equal.symm)
  · rw [List.mem_filter, List.mem_range, List.mem_map]
    constructor
    · rintro ⟨inside, nonneg⟩
      have bound : index < memory.physicalProcId.length := placed.length ▸ inside
      rw [List.getD_eq_getElem?_getD, List.getElem?_eq_getElem bound, Option.getD_some,
        decide_eq_true_eq] at nonneg
      rcases placed.entries _ (List.getElem_mem bound) with none | member
      · exact absurd (none ▸ (by decide : (-1 : Int) < 0)) nonneg
      · obtain ⟨stage, live, same⟩ := List.mem_map.mp member
        refine ⟨stage, live, ((at_ stage live index).mp ?_).symm⟩
        rw [List.getElem?_eq_getElem bound, same]
    · rintro ⟨stage, live, rfl⟩
      have here := (at_ stage live _).mpr rfl
      have nonneg := loaded.ordinary stage live
      refine ⟨placed.length ▸ (List.getElem?_eq_some_iff.mp here).1, ?_⟩
      rw [List.getD_eq_getElem?_getD, here, Option.getD_some]
      exact decide_eq_true (by omega)

private theorem sum_filter {items : List Nat} {keep : Nat → Bool} {value : Nat → Nat}
    (zero : ∀ item ∈ items, keep item = false → value item = 0) :
    ((items.filter keep).map value).sum = (items.map value).sum := by
  induction items with
  | nil => rfl
  | cons item rest ih =>
      have others := ih fun other member => zero other (List.mem_cons_of_mem _ member)
      cases kept : keep item with
      | true =>
          rw [List.filter_cons_of_pos kept, List.map_cons, List.map_cons, List.sum_cons,
            List.sum_cons, others]
      | false =>
          rw [List.filter_cons_of_neg (by simp [kept]), List.map_cons, List.sum_cons, others,
            zero item List.mem_cons_self kept, Nat.zero_add]

private theorem runsBefore_eq
    (compiled : Compiled headers getHeader sort levels ast program distribution memory docs)
    (plan : StagePlan program distribution.topoSequence place) :
    runsBefore program distribution.distributedLevels memory.physicalProcId procCount =
      ((liveStages program.stages.logicalStages).map fun stage => extraRuns program distribution
        stage.stageId).sum := by
  have loaded := load_loaded compiled.done
  have own : ∀ stage ∈ liveStages program.stages.logicalStages,
      (runsAt program distribution.distributedLevels memory.physicalProcId
        (procOf place distribution.topoSequence
          stage.stageId)).length - 1 = extraRuns program distribution stage.stageId := by
    intro stage live
    rw [runsAt, ((compiled.plan plan).1 stage live _).mpr rfl]
    simp only [if_pos (loaded.ordinary stage live), chunks, List.length_map, List.length_range, extraRuns]
  have other : ∀ index, memory.physicalProcId.getD index 0 < 0 →
      (runsAt program distribution.distributedLevels memory.physicalProcId index).length - 1 = 0 := by
    intro index free
    unfold runsAt
    cases here : memory.physicalProcId[index]? with
    | none => rfl
    | some stageId =>
        rw [List.getD_eq_getElem?_getD, here, Option.getD_some] at free
        simp only [if_neg (Int.not_le.mpr free), List.length_nil]
  have perm := (stageSlots_perm compiled plan).map fun index =>
    (runsAt program distribution.distributedLevels memory.physicalProcId index).length - 1
  rw [← List.map_congr_left own, runsBefore]
  refine Eq.trans (sum_filter fun index _ free => other index ?_).symm (perm.sum_eq.trans ?_)
  · simpa using free
  · rw [List.map_map]
    rfl

private theorem processors_iff
    (compiled : Compiled headers getHeader sort levels ast program distribution memory docs)
    (plan : StagePlan program distribution.topoSequence place) :
    (∀ (index : Nat) doc, docs[index]? = some (some doc) → index < procNum) ↔
      (∀ stage ∈ liveStages program.stages.logicalStages, place stage.stageId < procNum / clusterProcCount) ∧
        (liveStages program.stages.logicalStages).length +
          ((liveStages program.stages.logicalStages).map fun stage =>
          extraRuns program distribution stage.stageId).sum ≤ procNum := by
  have loaded := load_loaded compiled.done
  have at_ := (compiled.plan plan).1
  have slots := stageSlots_perm compiled plan
  have stages : (∀ index < procCount, 0 ≤ memory.physicalProcId.getD index (-1) → index < procNum) ↔
      ∀ stage ∈ liveStages program.stages.logicalStages, place stage.stageId < procNum /
          clusterProcCount := by
    constructor
    · intro low stage live
      have here := (at_ stage live _).mpr rfl
      have below := low _ (compiled.emission.placed.length ▸ (List.getElem?_eq_some_iff.mp here).1) (by
        rw [List.getD_eq_getElem?_getD, here, Option.getD_some]
        exact loaded.ordinary stage live)
      rw [← compiled.plan_cluster plan live]
      simp only [procNum, clusterProcCount] at below ⊢
      omega
    · intro low index inside placed
      have taken : index ∈ (List.range procCount).filter fun index =>
          decide (¬memory.physicalProcId.getD index 0 < 0) := by
        have bound : index < memory.physicalProcId.length := compiled.emission.placed.length ▸ inside
        rw [List.getD_eq_getElem?_getD, List.getElem?_eq_getElem bound, Option.getD_some] at placed
        refine List.mem_filter.mpr ⟨List.mem_range.mpr inside, decide_eq_true ?_⟩
        rw [List.getD_eq_getElem?_getD, List.getElem?_eq_getElem bound, Option.getD_some]
        omega
      obtain ⟨stage, live, rfl⟩ := List.mem_map.mp (slots.mem_iff.mp taken)
      have below := low stage live
      rw [← compiled.plan_cluster plan live] at below
      simp only [procNum, clusterProcCount] at below ⊢
      omega
  have count : (∀ stage ∈ liveStages program.stages.logicalStages, place stage.stageId < procNum /
    clusterProcCount) →
      ((∀ slot ∈ (freeSlots memory.physicalProcId).take
          (runsBefore program distribution.distributedLevels memory.physicalProcId procCount),
          slot < procNum) ↔
        (liveStages program.stages.logicalStages).length +
          ((liveStages program.stages.logicalStages).map fun stage =>
          extraRuns program distribution stage.stageId).sum ≤ procNum) := by
    intro low
    have free : ∀ index, procNum ≤ index → index < procCount → memory.physicalProcId.getD index 0 < 0 := by
      intro index high inside
      by_contra taken
      obtain ⟨stage, live, rfl⟩ := List.mem_map.mp
        (slots.mem_iff.mp (List.mem_filter.mpr ⟨List.mem_range.mpr inside, decide_eq_true taken⟩))
      have below := low stage live
      rw [← compiled.plan_cluster plan live] at below
      simp only [procNum, clusterProcCount] at below high
      omega
    have total := (List.range procNum).length_eq_countP_add_countP fun index =>
      decide (memory.physicalProcId.getD index 0 < 0)
    rw [List.length_range, List.countP_eq_length_filter, List.countP_eq_length_filter] at total
    have held := slots.length_eq
    rw [List.length_map, ← length_filter_front free] at held
    rw [take_freeSlots_iff free, runsBefore_eq compiled plan]
    simp only [Bool.not_eq_true, decide_eq_false_iff_not] at total held
    omega
  rw [fewProcessors_iff_docs compiled]
  constructor
  · intro few
    have low := stages.mp few.stages
    exact ⟨low, (count low).mp few.parsers⟩
  · rintro ⟨low, few⟩
    exact ⟨stages.mpr low, (count low).mpr few⟩

end

/-! ### Blocks -/

section

variable {place : Int → Nat}

private theorem clusterRefs_placedRefs (place : Int → Nat) (program : Program) (cluster : Nat) :
    clusterRefs (placedRefs place program.stages.logicalStages) cluster =
      placedTables program place cluster := by
  unfold clusterRefs placedRefs placedTables
  induction liveStages program.stages.logicalStages with
  | nil => rfl
  | cons stage rest ih =>
      rw [List.flatMap_cons, List.filter_append, List.map_append, ih, List.filter_map, List.map_map]
      by_cases here : place stage.stageId = cluster
      · rw [List.filter_cons_of_pos (by simpa using here), List.flatMap_cons]
        simp [here, Function.comp_def]
      · rw [List.filter_cons_of_neg (by simpa using here)]
        simp [here, Function.comp_def]

private theorem blocks_iff
    (compiled : Compiled headers getHeader sort levels ast program distribution memory docs)
    (plan : StagePlan program distribution.topoSequence place) (pick : Table → List Int)
    (given : Int → Nat) (bound : Nat)
    (emitted : ∀ source table, EmittedAs source table → pick table = pick source)
    (blocks : ∀ tableId source, memory.tables.lookupId tableId = some source → ∀ block, block ∈ pick source ↔
      InRunOf given (placedRefs place program.stages.logicalStages) tableId block) :
    (EveryTable docs fun table => ∀ block ∈ pick table, block < bound) ↔
      ∀ cluster < clusterCount, ((placedTables program place cluster).map given).sum ≤ bound := by
  have loaded := load_loaded compiled.done
  obtain ⟨_, _, order⟩ := distributeParsers_order loaded compiled.distributed
  have inside : ∀ stage ∈ liveStages program.stages.logicalStages, place stage.stageId < clusterCount := by
    intro stage live
    obtain ⟨position, low, same⟩ := List.mem_iff_getElem.mp
      ((order stage.stageId).mpr (List.mem_map_of_mem live))
    exact same ▸ (plan position low).1
  have empty : ∀ cluster, ¬cluster < clusterCount → placedTables program place cluster = [] := by
    intro cluster outside
    unfold placedTables
    rw [List.filter_eq_nil_iff.mpr fun stage live => ?_, List.flatMap_nil]
    have low := inside stage live
    simp only [decide_eq_true_eq]
    omega
  have runs : (∀ tableId block, InRunOf given (placedRefs place program.stages.logicalStages) tableId block →
      block < bound) ↔ ∀ cluster < clusterCount, ((placedTables program place cluster).map
        given).sum ≤ bound := by
    rw [inRunOf_below_iff]
    simp only [clusterRefs_placedRefs]
    constructor
    · intro small cluster _
      exact small cluster
    · intro small cluster
      by_cases low : cluster < clusterCount
      · exact small cluster low
      · rw [empty cluster low, List.map_nil, List.sum_nil]
        exact Nat.zero_le _
  rw [← runs]
  refine (compiled.emission.forall_tables_iff fun source table same => ?_).trans ?_
  · rw [emitted source table same]
  · constructor
    · rintro low tableId block ⟨position, cluster, here, inRun⟩
      obtain ⟨stage, live, listed⟩ := List.mem_flatMap.mp (List.mem_of_getElem? here)
      obtain ⟨other, isTable, same⟩ := List.mem_map.mp listed
      cases same
      obtain ⟨doc, procProc, _, stageDoc⟩ :=
        compiled.emission.doc_at live (((compiled.plan plan).1 stage live _).mpr rfl)
      obtain ⟨_, _, source, found, _⟩ := stageDoc.table_of_id isTable
      exact low stage live tableId isTable source found block
        ((blocks tableId source found block).mpr ⟨position, _, here, inRun⟩)
    · intro below stage live tableId listed source found block member
      exact below tableId block ((blocks tableId source found block).mp member)

end

private theorem config_iff
    (compiled : Compiled headers getHeader sort levels ast program distribution memory docs)
    (part : Table → TableMemory) (size : Table → Nat)
    (emitted : ∀ source table, EmittedAs source table → part table = part source ∧ size table = size source)
    (blank : ∀ table : Table, (part table.blank).given = (part table).given ∧ size table.blank = size table)
    (lengths : ∀ entry ∈ memory.tables,
      (part entry.2).config.length = listings program entry.2.tableId * (part entry.2).given) :
    (EveryTable docs fun table => (part table).config.length ≤ size table) ↔
      EveryListed program fun table => listings program table.tableId * (part table).given ≤ size table := by
  have sameId : ∀ source table, EmittedAs source table → table.tableId = source.tableId := by
    rintro source table ⟨_, _, rfl⟩
    rfl
  refine Iff.trans ?_ (everyTable_iff compiled _ (fun source table same => ?_) fun table => ?_)
  · refine (compiled.emission.forall_tables_iff fun source table same => ?_).trans
      (Iff.trans ?_ (compiled.emission.forall_tables_iff fun source table same => ?_).symm)
    · rw [(emitted source table same).1, (emitted source table same).2]
    · have each : ∀ {tableId source}, memory.tables.lookupId tableId = some source →
          (part source).config.length = listings program source.tableId * (part source).given := by
        intro tableId source found
        obtain ⟨_, name, inside⟩ := lookupId_entry found
        exact lengths (name, source) inside
      constructor
      · intro fits stage live tableId listed source found
        exact each found ▸ fits stage live tableId listed source found
      · intro fits stage live tableId listed source found
        rw [each found]
        exact fits stage live tableId listed source found
    · rw [(emitted source table same).1, (emitted source table same).2, sameId source table same]
  · rw [(emitted source table same).1, (emitted source table same).2, sameId source table same]
  · rw [(blank table).1, (blank table).2]
    rfl

/-! ### Numbers -/

private theorem lastPosition_cons (stage : Stage) (rest : List Stage) (tableId : Int) :
    lastPosition (stage :: rest) tableId = (lastPosition rest tableId).or (lastPosition [stage] tableId) := by
  unfold lastPosition
  rw [List.flatMap_cons, List.flatMap_cons, List.flatMap_nil, List.append_nil, List.filter_append,
    List.getLast?_append, Option.map_or]

private theorem lastPosition_none_iff {stages : List Stage} {tableId : Int} :
    lastPosition stages tableId = none ↔ ¬∃ stage ∈ stages, tableId ∈ stage.tableId := by
  constructor
  · rintro none ⟨stage, member, listed⟩
    obtain ⟨position, last⟩ := lastPosition_isSome member listed
    cases none.symm.trans last
  · intro unlisted
    unfold lastPosition
    rw [Option.map_eq_none_iff, List.getLast?_eq_none_iff, List.filter_eq_nil_iff]
    rintro ⟨other, position⟩ member same
    obtain ⟨stage, inside, listed⟩ := List.mem_flatMap.mp member
    obtain rfl : other = tableId := of_decide_eq_true same
    exact unlisted ⟨stage, inside, List.mem_of_getElem? (List.mk_mem_zipIdx_iff_getElem?.mp listed)⟩

private theorem lastPosition_single {stage : Stage} {tableId : Int} {bound : Nat} :
    (∀ position ∈ lastPosition [stage] tableId, position < bound) ↔ tableId ∉ stage.tableId.drop bound := by
  unfold lastPosition
  rw [List.flatMap_cons, List.flatMap_nil, List.append_nil]
  generalize stage.tableId = ids
  induction ids using List.reverseRecOn with
  | nil => simp
  | append_singleton ids last ih =>
      rw [List.zipIdx_append, List.filter_append, List.getLast?_append, List.drop_append,
        List.mem_append, not_or, List.zipIdx_singleton, Nat.zero_add]
      by_cases here : last = tableId
      · subst here
        have behind : (last ∉ [last].drop (bound - ids.length)) ↔ ids.length < bound := by
          rcases Nat.lt_or_ge ids.length bound with low | high
          · rw [List.drop_of_length_le (by simp only [List.length_singleton]; omega)]
            simpa using low
          · rw [Nat.sub_eq_zero_of_le high]
            simpa using high
        rw [behind, List.filter_cons_of_pos (by simp)]
        simp only [List.filter_nil, List.getLast?_singleton, Option.some_or, Option.map_some,
          Option.mem_some_iff, forall_eq']
        refine (and_iff_right_of_imp fun low member => ?_).symm
        rw [List.drop_of_length_le low.le] at member
        cases member
      · have absent : tableId ∉ [last].drop (bound - ids.length) := fun member =>
          here (List.mem_singleton.mp (List.mem_of_mem_drop member)).symm
        rw [List.filter_cons_of_neg (by simpa using here), List.filter_nil, List.getLast?_nil,
          Option.none_or, ih]
        exact (and_iff_left absent).symm

private theorem listedEarly_iff {bound : Nat} {tableId : Int} {stages : List Stage} :
    ListedEarly bound tableId stages ↔ ∀ position ∈ lastPosition stages tableId, position < bound := by
  induction stages with
  | nil => simp [ListedEarly, lastPosition]
  | cons stage rest ih =>
      rw [ListedEarly, ih, lastPosition_cons]
      cases later : lastPosition rest tableId with
      | none =>
          rw [Option.none_or, lastPosition_single]
          have unlisted := lastPosition_none_iff.mp later
          simp [unlisted]
      | some position =>
          have listed : ∃ stage ∈ rest, tableId ∈ stage.tableId := by
            by_contra unlisted
            cases (lastPosition_none_iff.mpr unlisted).symm.trans later
          rw [Option.some_or]
          exact and_iff_right fun _ => listed

private theorem matchers_iff
    (compiled : Compiled headers getHeader sort levels ast program distribution memory docs) :
    (EveryTable docs fun table => table.id < matcherThreadNum) ↔
      ∀ stage ∈ liveStages program.stages.logicalStages, ∀ tableId ∈ stage.tableId,
        ListedEarly matcherThreadNum tableId program.stages.logicalStages := by
  simp only [listedEarly_iff]
  refine (everyTable_iff compiled _ (fun source table ⟨_, _, same⟩ => by rw [same]) fun table =>
    Iff.rfl).trans ?_
  have number : ∀ entry ∈ program.tables, ∀ position,
      lastPosition program.stages.logicalStages entry.2.tableId = some position → entry.2.id = position := by
    obtain ⟨_, _, done⟩ := Option.bind_eq_some_iff.mp compiled.done
    obtain ⟨_, _, done⟩ := Option.bind_eq_some_iff.mp done
    obtain ⟨_, _, done⟩ := Option.bind_eq_some_iff.mp done
    obtain ⟨⟨stages, gateways⟩, _, done⟩ := Option.bind_eq_some_iff.mp done
    cases done
    intro entry member position last
    exact matcherId_setupStages _ _ member last
  have loaded := load_loaded compiled.done
  constructor
  · intro low stage live tableId listed position last
    obtain ⟨entry, member, rfl⟩ :=
      List.mem_map.mp (loaded.tables stage (List.mem_filter.mp live).1 tableId listed)
    have small : entry.2.id < matcherThreadNum :=
      low stage live _ listed entry.2 (lookupId_of_mem loaded.tableIds member)
    rw [number entry member position last] at small
    exact_mod_cast small
  · intro low stage live tableId listed table found
    obtain ⟨rfl, name, member⟩ := lookupId_entry found
    obtain ⟨position, last⟩ := lastPosition_isSome (List.mem_filter.mp live).1 listed
    have same : table.id = position := number (name, table) member position last
    rw [same]
    exact_mod_cast low stage live _ listed position last

end

instance (program : Program) (property : Table → Prop) [DecidablePred property] :
    Decidable (EveryListed program property) :=
  inferInstanceAs (Decidable (∀ stage ∈ liveStages program.stages.logicalStages, _))

/-- A configuration fits the data plane exactly if the program is small. -/
theorem fitsDataplane_iff {headerDefs : List HeaderDef} {structDefs : List StructDef}
    {sort : (Int → Int → Bool) → List Int → List Int} {levels : List Level} {ast : Ast} {program : Program}
    {distribution : DistributionResult} {memory : MemoryResult} {docs : List (Option ProcessorDoc)}
    (compiled : Compiled (HeaderManager.load headerDefs structDefs).lookup
      (fun name => ((HeaderManager.load headerDefs structDefs).getHeader name).map
        Header.headerId) sort levels ast
      program distribution memory docs) :
    FitsDataplane (HeaderManager.load headerDefs structDefs) docs ↔
      ∃ place, StagePlan program distribution.topoSequence place ∧
        SmallProgram (HeaderManager.load headerDefs structDefs) program distribution place := by
  obtain ⟨space, _, allocated⟩ := compiled.allocated
  obtain ⟨spaces, configured⟩ := allocated.configured
  have keys := config_iff compiled Table.keyMemory (fun table => keyConfigSize table.keyMemory.type)
    (fun source table ⟨_, _, same⟩ => by rw [same]; exact ⟨rfl, rfl⟩) (fun table => ⟨rfl, rfl⟩)
    fun entry member => by rw [listings, ← tableRefs_ids]; exact configured.keys entry member
  have values := config_iff compiled Table.valueMemory (fun _ => sramNumPerCluster)
    (fun source table ⟨_, _, same⟩ => by rw [same]; exact ⟨rfl, rfl⟩) (fun table => ⟨rfl, rfl⟩)
    fun entry member => by rw [listings, ← tableRefs_ids]; exact configured.values entry member
  have actions := compiled.emission.forall_actions_iff (· < executorActionNum)
  have tableActions := everyTable_iff compiled (fun table => table.missActionId < executorActionNum ∧
      ∀ pair ∈ table.actionToProc, pair.1 < executorActionNum)
    (fun source table ⟨_, _, same⟩ => by rw [same]; simp only [List.forall_mem_map]) fun table => Iff.rfl
  have numbers := HeaderManager.headerIds_below_iff headerDefs structDefs (show 31 < headerNum by decide)
  have planned : ∀ {place}, StagePlan program distribution.topoSequence place →
      (FitsDataplane (HeaderManager.load headerDefs structDefs) docs ↔
        SmallProgram (HeaderManager.load headerDefs structDefs) program distribution place) := by
    intro place plan
    have blocks := fun tableId source (found : memory.tables.lookupId tableId = some source) block =>
      (compiled.plan plan).2 ▸ compiled.mem_blocks found block
    have processors := processors_iff compiled plan
    have sram :=
      blocks_iff compiled plan Table.sramBlocks (fun id => (program.tables.given id).sram) sramNumPerCluster
      (fun source table ⟨_, _, same⟩ => by rw [same]; rfl)
      fun tableId source found block => (blocks tableId source found block).1
    have tcam :=
      blocks_iff compiled plan Table.tcamBlocks (fun id => (program.tables.given id).tcam) tcamNumPerCluster
      (fun source table ⟨_, _, same⟩ => by rw [same]; rfl)
      fun tableId source found block => (blocks tableId source found block).2
    constructor
    · intro fits
      obtain ⟨clusters, slots⟩ := processors.mp fits.processors
      exact ⟨clusters, slots, sram.mp fits.sram, tcam.mp fits.tcam, keys.mp fits.keyConfig,
        values.mp fits.valueConfig, (matchers_iff compiled).mp fits.matchers, actions.mp fits.actions,
        tableActions.mp fits.tableActions, numbers.mp fits.headers⟩
    · intro small
      exact ⟨processors.mpr ⟨small.clusters, small.processors⟩, sram.mpr small.sram, tcam.mpr small.tcam,
        keys.mpr small.keyConfig, values.mpr small.valueConfig, (matchers_iff compiled).mpr small.matchers,
        actions.mpr small.actions, tableActions.mpr small.tableActions, numbers.mpr small.headers⟩
  constructor
  · intro fits
    obtain ⟨place, plan⟩ := compiled.exists_plan
    exact ⟨place, plan, (planned plan).mp fits⟩
  · rintro ⟨place, plan, small⟩
    exact (planned plan).mpr small

/-- One table of a size, and a stage that runs it. -/
def sizedAst (size : Int) : Ast where
  actions := []
  tables :=
    [{ name := "t", keys := [(.field "headers" "h" "f", .exact)],
       optionalStmts := [.size size, .valueWidth 16] }]
  ingress := [{ name := "a", parser := [], executor := [], matcher := ⟨[], [⟨.default, .table "t"⟩]⟩ }]
  egress := []

def sizedHeaders : List HeaderDef := [⟨"h_t", [⟨.bit 8, "f"⟩]⟩]

def sizedStructs : List StructDef := [⟨[⟨.named "h_t", "h"⟩], "headers", true⟩]

def sizedManager : HeaderManager := HeaderManager.load sizedHeaders sizedStructs

def sizedHeader (name : String) : Option Int := (sizedManager.getHeader name).map Header.headerId

def sizedCompile (size : Int) :
    Option (Program × DistributionResult × MemoryResult × List (Option ProcessorDoc)) := do
  let program ← load sizedManager.lookup [] (sizedAst size)
  let distribution ← distributeParsers (fun _ items => items) sizedHeader [] program.stages.logicalStages
  let memory ← allocateMemory program.tables program.stages.logicalStages distribution.topoSequence
  let docs ← (allocateProcessors program distribution memory).bind Ipsa.toIpsaValue
  return (program, distribution, memory, docs)

def fittingCompile : Program × DistributionResult × MemoryResult × List (Option ProcessorDoc) :=
  (sizedCompile 1024).get (by decide)

theorem fitsDataplane_sized : FitsDataplane sizedManager fittingCompile.2.2.2 := by
  have compiled : Compiled sizedManager.lookup sizedHeader (fun _ items => items) []
    (sizedAst 1024) fittingCompile.1
      fittingCompile.2.1 fittingCompile.2.2.1 fittingCompile.2.2.2 := ⟨rfl, rfl, rfl, by decide, rfl⟩
  have small : SmallProgram sizedManager fittingCompile.1 fittingCompile.2.1 fun _ => 0 :=
    ⟨by decide, by decide, by decide, by decide, by decide, by decide, by decide, by decide,
      by decide, by decide⟩
  exact (@fitsDataplane_iff sizedHeaders sizedStructs _ _ _ _ _ _ _ compiled).mpr
    ⟨fun _ => 0, by decide, small⟩

def overflowingCompile : Program × DistributionResult × MemoryResult × List (Option ProcessorDoc) :=
  (sizedCompile 11264).get (by decide)

/-- A table of 11264 entries takes 11 blocks for keys and 11 for values, and a cluster of the data
plane has 20. -/
theorem not_fitsDataplane_sized :
    Compiled sizedManager.lookup sizedHeader (fun _ items => items) [] (sizedAst 11264) overflowingCompile.1
      overflowingCompile.2.1 overflowingCompile.2.2.1 overflowingCompile.2.2.2 ∧
    ¬FitsDataplane sizedManager overflowingCompile.2.2.2 := by
  refine ⟨⟨rfl, rfl, rfl, by decide, rfl⟩, fun fits => ?_⟩
  have low :=
    fits.sram 0 ((overflowingCompile.2.2.2[0]?.join).get (by decide)) rfl _ (List.head_mem (by decide)) 21
    (by decide)
  exact absurd low (by decide)

end Ipbm.System
