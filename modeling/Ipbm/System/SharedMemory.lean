import Ipbm.Compiler.BlockRuns

/-! Memory of the data plane that two tables share. The compiler numbers blocks
within clusters of four processors, and the data plane finds them behind the
base of a cluster of three. -/

set_option autoImplicit false

namespace Ipbm.System
open Lib Dataplane Compiler Compiler.Memory
open Compiler.IpsaConfiguration (procCount)
open Compiler.Distribution (liveStages)

/-- The first block of the cluster of a processor. -/
def sramBase (procId : Nat) : Nat := procId / procNumPerCluster * sramIdxBase

def tcamBase (procId : Nat) : Nat := procId / procNumPerCluster * tcamIdxBase

/-- No block of the data plane belongs to two tables. -/
structure NoSharing (docs : List (Option ProcessorDoc)) : Prop where
  sram : ∀ (first second : Nat) firstDoc secondDoc, docs[first]? = some (some firstDoc) →
    docs[second]? = some (some secondDoc) → ∀ table ∈ firstDoc.matcher, ∀ other ∈ secondDoc.matcher,
      table.tableId ≠ other.tableId → ∀ block ∈ table.sramBlocks, ∀ otherBlock ∈ other.sramBlocks,
        sramBase first + block ≠ sramBase second + otherBlock
  tcam : ∀ (first second : Nat) firstDoc secondDoc, docs[first]? = some (some firstDoc) →
    docs[second]? = some (some secondDoc) → ∀ table ∈ firstDoc.matcher, ∀ other ∈ secondDoc.matcher,
      table.tableId ≠ other.tableId → ∀ block ∈ table.tcamBlocks, ∀ otherBlock ∈ other.tcamBlocks,
        tcamBase first + block ≠ tcamBase second + otherBlock

/-- Two runs of blocks do not meet. -/
def Apart (start count otherStart otherCount : Nat) : Prop :=
  count = 0 ∨ otherCount = 0 ∨ start + count ≤ otherStart ∨ otherStart + otherCount ≤ start

instance (start count otherStart otherCount : Nat) : Decidable (Apart start count otherStart otherCount) :=
  inferInstanceAs (Decidable (_ ∨ _))

/-- The runs of two tables do not meet once they are counted from the bases of two processors. Runs of
one cluster that are counted from one base are behind each other. -/
def RunsApart (given : Int → Nat) (refs : List (Nat × Int)) (base otherBase : Nat)
    (tableId otherId : Int) : Prop :=
  ∀ ref ∈ refs.zipIdx, ∀ other ∈ refs.zipIdx, ref.1.2 = tableId → other.1.2 = otherId →
    (ref.1.1 = other.1.1 ∧ base = otherBase) ∨
      Apart (base + startOf given refs ref.2 ref.1.1) (given tableId)
        (otherBase + startOf given refs other.2 other.1.1) (given otherId)

instance (given : Int → Nat) (refs : List (Nat × Int)) (base otherBase : Nat) (tableId otherId : Int) :
    Decidable (RunsApart given refs base otherBase tableId otherId) :=
  inferInstanceAs (Decidable (∀ ref ∈ refs.zipIdx, _))

/-- The condition for the tables of any two stages. -/
def TablesApart (program : Program) (sequence : List Int) (place : Int → Nat) : Prop :=
  ∀ stage ∈ liveStages program.stages.logicalStages, ∀ otherStage ∈ liveStages program.stages.logicalStages,
    ∀ tableId ∈ stage.tableId, ∀ otherId ∈ otherStage.tableId, tableId ≠ otherId →
      RunsApart (fun id => (program.tables.given id).sram) (placedRefs place program.stages.logicalStages)
          (sramBase (procOf place sequence stage.stageId))
          (sramBase (procOf place sequence otherStage.stageId))
          tableId otherId ∧
        RunsApart (fun id => (program.tables.given id).tcam) (placedRefs place program.stages.logicalStages)
          (tcamBase (procOf place sequence stage.stageId))
          (tcamBase (procOf place sequence otherStage.stageId))
          tableId otherId

instance (program : Program) (sequence : List Int) (place : Int → Nat) :
    Decidable (TablesApart program sequence place) :=
  inferInstanceAs (Decidable (∀ stage ∈ _, _))

private theorem apart_iff {base start count otherBase otherStart otherCount : Nat} :
    Apart (base + start) count (otherBase + otherStart) otherCount ↔
      ∀ block otherBlock : Int, InRun start count block → InRun otherStart otherCount otherBlock →
        base + block ≠ otherBase + otherBlock := by
  unfold Apart InRun
  constructor
  · intro apart block otherBlock inside otherInside
    omega
  · intro different
    by_contra meet
    push Not at meet
    have below := different (max start (otherBase + otherStart - base) : Int)
      (max otherStart (base + start - otherBase) : Int)
    omega

private theorem startOf_behind {given : Int → Nat} {refs : List (Nat × Int)} {position later cluster : Nat}
    {tableId : Int} (here : refs[position]? = some (cluster, tableId)) (before : position < later) :
    startOf given refs position cluster + given tableId ≤ startOf given refs later cluster := by
  obtain ⟨inside, isRef⟩ := List.getElem?_eq_some_iff.mp here
  have split : refs.take later = refs.take position ++ (cluster, tableId) :: (refs.take later).drop
      (position + 1) := by
    have bound : position < (refs.take later).length := by
      rw [List.length_take]
      omega
    have start : (refs.take later).take position = refs.take position := by
      rw [List.take_take, Nat.min_eq_left before.le]
    have middle : (refs.take later)[position] = (cluster, tableId) := by rw [List.getElem_take, isRef]
    rw [← start, ← middle, ← List.drop_eq_getElem_cons bound, List.take_append_drop]
  unfold startOf clusterRefs
  rw [split]
  simp only [List.filter_append, List.filter_cons_of_pos, decide_true, List.map_append,
    List.map_cons, List.sum_append, List.sum_cons]
  omega

private theorem runsApart_iff {given : Int → Nat} {refs : List (Nat × Int)} {base otherBase : Nat}
    {tableId otherId : Int} (different : tableId ≠ otherId) :
    RunsApart given refs base otherBase tableId otherId ↔
      ∀ block otherBlock : Int, InRunOf given refs tableId block → InRunOf given refs otherId otherBlock →
        base + block ≠ otherBase + otherBlock := by
  constructor
  · rintro apart block otherBlock ⟨position, cluster, here, inRun⟩ ⟨later, otherCluster, there, otherInRun⟩
    rcases apart ⟨_, position⟩ (List.mk_mem_zipIdx_iff_getElem?.mpr here) ⟨_, later⟩
      (List.mk_mem_zipIdx_iff_getElem?.mpr there) rfl rfl with ⟨sameCluster, sameBase⟩ | apart
    · -- one count of one cluster
      change cluster = otherCluster at sameCluster
      subst sameCluster sameBase
      obtain ⟨low, high⟩ := inRun
      obtain ⟨otherLow, otherHigh⟩ := otherInRun
      rcases Nat.lt_trichotomy position later with before | rfl | behind
      · have ordered := @startOf_behind given _ _ _ _ _ here before
        omega
      · cases here.symm.trans there
        exact absurd rfl different
      · have ordered := @startOf_behind given _ _ _ _ _ there behind
        omega
    · exact apart_iff.mp apart block otherBlock inRun otherInRun
  · rintro separate ⟨⟨cluster, _⟩, position⟩ member ⟨⟨otherCluster, _⟩, later⟩ otherMember rfl rfl
    have here := List.mk_mem_zipIdx_iff_getElem?.mp member
    have there := List.mk_mem_zipIdx_iff_getElem?.mp otherMember
    exact .inr (apart_iff.mpr fun block otherBlock inRun otherInRun =>
      separate block otherBlock ⟨position, cluster, here, inRun⟩ ⟨later, otherCluster, there, otherInRun⟩)

section

variable {headers : HeaderLookup} {getHeader : String → Option Int}
  {sort : (Int → Int → Bool) → List Int → List Int} {levels : List Level} {ast : Ast} {program : Program}
  {distribution : DistributionResult} {memory : MemoryResult} {docs : List (Option ProcessorDoc)}
  {place : Int → Nat}

private theorem blocks_of_emittedAs {source table : Table} (emitted : EmittedAs source table) :
    table.tableId = source.tableId ∧ table.sramBlocks = source.sramBlocks ∧
      table.tcamBlocks = source.tcamBlocks := by
  obtain ⟨_, _, rfl⟩ := emitted
  exact ⟨rfl, rfl, rfl⟩

/-- A table has the blocks of its runs. -/
private def HasRuns (program : Program) (place : Int → Nat) (table : Table) : Prop :=
  ∀ block, (block ∈ table.sramBlocks ↔ InRunOf (fun id => (program.tables.given id).sram)
      (placedRefs place program.stages.logicalStages) table.tableId block) ∧
    (block ∈ table.tcamBlocks ↔ InRunOf (fun id => (program.tables.given id).tcam)
      (placedRefs place program.stages.logicalStages) table.tableId block)

private theorem hasRuns_of_emitted
    (compiled : Compiled headers getHeader sort levels ast program distribution memory docs)
    (plan : StagePlan program distribution.topoSequence place) {tableId : Int} {source table : Table}
    (found : memory.tables.lookupId tableId = some source) (emitted : EmittedAs source table) :
    table.tableId = tableId ∧ HasRuns program place table := by
  obtain ⟨sameId, sameSram, sameTcam⟩ := blocks_of_emittedAs emitted
  have number : table.tableId = tableId := sameId.trans (lookupId_entry found).1
  refine ⟨number, fun block => ?_⟩
  have blocks := compiled.mem_blocks found block
  rwa [(compiled.plan plan).2, ← sameSram, ← sameTcam, ← number] at blocks

private theorem runs_of_table
    (compiled : Compiled headers getHeader sort levels ast program distribution memory docs)
    (plan : StagePlan program distribution.topoSequence place) {index : Nat} {doc : ProcessorDoc}
    (here : docs[index]? = some (some doc)) {table : Table} (member : table ∈ doc.matcher) :
    ∃ stage ∈ liveStages program.stages.logicalStages,
      index = procOf place distribution.topoSequence stage.stageId ∧
      table.tableId ∈ stage.tableId ∧ HasRuns program place table := by
  rcases compiled.emission.doc_cases here with ⟨noTables, -⟩ | ⟨stage, live, placedAt, procProc, stageDoc⟩
  · simp [noTables] at member
  · obtain ⟨tableId, listed, source, found, emitted⟩ := stageDoc.id_of_table member
    obtain ⟨rfl, runs⟩ := hasRuns_of_emitted compiled plan found emitted
    exact ⟨stage, live, ((compiled.plan plan).1 stage live index).mp placedAt, listed, runs⟩

private theorem table_of_listing
    (compiled : Compiled headers getHeader sort levels ast program distribution memory docs)
    (plan : StagePlan program distribution.topoSequence place) {stage : Stage}
    (live : stage ∈ liveStages program.stages.logicalStages) {tableId : Int}
    (listed : tableId ∈ stage.tableId) :
    ∃ doc, docs[procOf place distribution.topoSequence stage.stageId]? = some (some doc) ∧
      ∃ table ∈ doc.matcher, table.tableId = tableId ∧ HasRuns program place table := by
  obtain ⟨doc, procProc, here, stageDoc⟩ :=
    compiled.emission.doc_at live (((compiled.plan plan).1 stage live _).mpr rfl)
  obtain ⟨table, member, source, found, emitted⟩ := stageDoc.table_of_id listed
  exact ⟨doc, here, table, member, hasRuns_of_emitted compiled plan found emitted⟩

private theorem noSharing_of_plan
    (compiled : Compiled headers getHeader sort levels ast program distribution memory docs)
    (plan : StagePlan program distribution.topoSequence place) :
    NoSharing docs ↔ TablesApart program distribution.topoSequence place := by
  constructor
  · intro noSharing stage live otherStage otherLive tableId listed otherId otherListed different
    obtain ⟨doc, here, table, member, rfl, runs⟩ := table_of_listing compiled plan live listed
    obtain ⟨otherDoc, there, other, otherMember, rfl, otherRuns⟩ :=
      table_of_listing compiled plan otherLive otherListed
    constructor
    · refine (runsApart_iff different).mpr fun block otherBlock inRun otherInRun => ?_
      exact noSharing.sram _ _ doc otherDoc here there table member other otherMember different block
        ((runs block).1.mpr inRun) otherBlock ((otherRuns otherBlock).1.mpr otherInRun)
    · refine (runsApart_iff different).mpr fun block otherBlock inRun otherInRun => ?_
      exact noSharing.tcam _ _ doc otherDoc here there table member other otherMember different block
        ((runs block).2.mpr inRun) otherBlock ((otherRuns otherBlock).2.mpr otherInRun)
  · intro apart
    constructor
    · intro first second doc otherDoc here there table member other otherMember different block
        inside otherBlock
        otherInside
      obtain ⟨stage, live, rfl, listed, runs⟩ := runs_of_table compiled plan here member
      obtain ⟨otherStage, otherLive, rfl, otherListed, otherRuns⟩ :=
        runs_of_table compiled plan there otherMember
      exact (runsApart_iff different).mp
        (apart stage live otherStage otherLive _ listed _ otherListed different).1 block otherBlock
        ((runs block).1.mp inside) ((otherRuns otherBlock).1.mp otherInside)
    · intro first second doc otherDoc here there table member other otherMember different block
        inside otherBlock
        otherInside
      obtain ⟨stage, live, rfl, listed, runs⟩ := runs_of_table compiled plan here member
      obtain ⟨otherStage, otherLive, rfl, otherListed, otherRuns⟩ :=
        runs_of_table compiled plan there otherMember
      exact (runsApart_iff different).mp
        (apart stage live otherStage otherLive _ listed _ otherListed different).2 block otherBlock
        ((runs block).2.mp inside) ((otherRuns otherBlock).2.mp otherInside)

/-- Two tables never share a block exactly if their runs, behind the sizes of the tables listed before
them in clusters of four and counted from the bases of clusters of three, do not meet. -/
theorem noSharing_iff
    (compiled : Compiled headers getHeader sort levels ast program distribution memory docs) :
    NoSharing docs ↔ ∃ place, StagePlan program distribution.topoSequence place ∧
      TablesApart program distribution.topoSequence place := by
  constructor
  · intro noSharing
    obtain ⟨place, plan⟩ := compiled.exists_plan
    exact ⟨place, plan, (noSharing_of_plan compiled plan).mp noSharing⟩
  · rintro ⟨place, plan, apart⟩
    exact (noSharing_of_plan compiled plan).mpr apart

end

/-- Two tables of one block of keys and one of values, and stages that run one or none of them. -/
def rowAst (stages : List (String × SwitchValue)) : Ast where
  actions := []
  tables := ["t", "u"].map fun name =>
    { name, keys := [(.field "hdr" "h" "f", .exact)], optionalStmts := [.size 1024, .valueWidth 16] }
  ingress := stages.map fun stage =>
    { name := stage.1, parser := [], executor := [], matcher := ⟨[], [⟨.default, stage.2⟩]⟩ }
  egress := []

def pairAst : Ast := rowAst [("a", .table "t"), ("b", .table "u")]

def pairProgram : Program := (load tableHeaders [] pairAst).get (by decide)

def pairDistribution : DistributionResult :=
  (distributeParsers (fun _ items => items) (fun _ => none) [] pairProgram.stages.logicalStages).get
    (by decide)

def pairMemory : MemoryResult :=
  (allocateMemory pairProgram.tables pairProgram.stages.logicalStages
    pairDistribution.topoSequence).get (by decide)

def pairDocs : List (Option ProcessorDoc) :=
  ((allocateProcessors pairProgram pairDistribution pairMemory).bind Ipsa.toIpsaValue).get (by decide)

theorem noSharing_pair : NoSharing pairDocs := by
  have compiled : Compiled tableHeaders (fun _ => none)
    (fun _ items => items) [] pairAst pairProgram pairDistribution
      pairMemory pairDocs := ⟨rfl, rfl, rfl, by decide, rfl⟩
  exact (noSharing_iff compiled).mpr ⟨fun _ => 0, by decide, by decide⟩

def apartAst : Ast := rowAst [("a", .none), ("b", .none), ("c", .none), ("d", .table "t"), ("e", .table "u")]

def apartProgram : Program := (load tableHeaders [] apartAst).get (by decide)

def apartDistribution : DistributionResult :=
  (distributeParsers (fun _ items => items) (fun _ => none) [] apartProgram.stages.logicalStages).get
    (by decide)

def apartMemory : MemoryResult :=
  (allocateMemory apartProgram.tables apartProgram.stages.logicalStages
    apartDistribution.topoSequence).get (by decide)

def apartDocs : List (Option ProcessorDoc) :=
  ((allocateProcessors apartProgram apartDistribution apartMemory).bind Ipsa.toIpsaValue).get (by decide)

/-- The tables stand on processors 3 and 4, of two clusters of the compiler and one of the data
plane, and block 0 of both is block 20 there. -/
theorem sharing_apart :
    Compiled tableHeaders (fun _ => none) (fun _ items => items) [] apartAst apartProgram
      apartDistribution apartMemory apartDocs ∧ ¬NoSharing apartDocs := by
  refine ⟨⟨rfl, rfl, rfl, by decide, rfl⟩, fun noSharing => ?_⟩
  exact noSharing.sram 3 4 ((apartDocs[3]?.join).get (by decide))
    ((apartDocs[4]?.join).get (by decide)) rfl rfl
    _ (List.head_mem (by decide)) _ (List.head_mem (by decide)) (by decide) 0 (by decide) 0
      (by decide) (by decide)

end Ipbm.System
