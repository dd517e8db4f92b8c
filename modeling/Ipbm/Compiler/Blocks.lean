import Ipbm.Compiler.MemoryProperties
import Mathlib.Data.Int.Interval
import Mathlib.Data.List.Flatten

/-! The blocks of the tables after `allocateMemory`: a table has as many as it
needs, all within its cluster, and shares none of them. -/

set_option autoImplicit false

namespace Ipbm.Compiler
open Lib Dataplane IpsaConfiguration Memory
open Distribution (liveStages)

namespace Table

def sramBlocks (table : Table) : List Int :=
  (if table.keyMemory.type = .sram then table.keyMemory.config else []) ++ table.valueMemory.config

def tcamBlocks (table : Table) : List Int :=
  if table.keyMemory.type = .tcam then table.keyMemory.config else []

/-- The table without its blocks. -/
def blank (table : Table) : Table :=
  { table with keyMemory.config := [], valueMemory.config := [] }

end Table

namespace Memory

/-! ### One table -/

/-- The effect of `configureTable`. -/
structure Configures (used after : Counters) (table configured : Table) : Prop where
  counters : after = used.add table.given
  blank : configured.blank = table.blank
  key : configured.keyMemory.config.length = table.keyMemory.config.length + table.keyMemory.given
  value : configured.valueMemory.config.length = table.valueMemory.config.length + table.valueMemory.given
  sram : table.keyMemory.config = [] → table.valueMemory.config = [] →
    configured.sramBlocks = nextBlocks used.sram table.given.sram
  tcam : table.keyMemory.config = [] → configured.tcamBlocks = nextBlocks used.tcam table.given.tcam
  unchanged : table.given = .zero → configured = table

private theorem length_nextBlocks (counter count : Nat) : (nextBlocks counter count).length = count := by
  simp [nextBlocks]

private theorem nextBlocks_append (counter first second : Nat) :
    nextBlocks counter first ++ nextBlocks (counter + first) second =
      nextBlocks counter (first + second) := by
  rw [nextBlocks, nextBlocks, nextBlocks, ← List.map_append, List.range'_append_1]

theorem Table.given_tcam {table : Table} (type : table.keyMemory.type = .tcam) :
    table.given = ⟨table.valueMemory.given, table.keyMemory.given⟩ := by
  rw [Table.given, if_neg (type ▸ MemoryType.noConfusion)]

theorem Table.given_sram {table : Table} (type : table.keyMemory.type = .sram) :
    table.given = ⟨table.keyMemory.given + table.valueMemory.given, 0⟩ := if_pos type

theorem Table.given_zero {table : Table} (none : table.given = .zero) :
    table.keyMemory.given = 0 ∧ table.valueMemory.given = 0 := by
  cases type : table.keyMemory.type with
  | tcam =>
      rw [Table.given_tcam type] at none
      exact ⟨congrArg Counters.tcam none, congrArg Counters.sram none⟩
  | sram =>
      rw [Table.given_sram type] at none
      have total : table.keyMemory.given + table.valueMemory.given = 0 := congrArg Counters.sram none
      omega

/-- The blocks of a table whose memories both have a size. -/
theorem configureTable_eq {used after : Counters} {table configured : Table}
    (done : configureTable used table = some (configured, after)) :
    after = used.add table.given ∧ ∃ keyBlocks valueBlocks,
      configured = { table with
        keyMemory.config := table.keyMemory.config ++ keyBlocks
        valueMemory.config := table.valueMemory.config ++ valueBlocks } ∧
      ((table.keyMemory.type = .tcam ∧ keyBlocks = nextBlocks used.tcam table.keyMemory.given ∧
          valueBlocks = nextBlocks used.sram table.valueMemory.given) ∨
        table.keyMemory.type = .sram ∧ keyBlocks = nextBlocks used.sram table.keyMemory.given ∧
          valueBlocks = nextBlocks (used.sram + table.keyMemory.given) table.valueMemory.given) := by
  obtain ⟨key, keyCount, done⟩ := Option.bind_eq_some_iff.mp done
  obtain ⟨value, valueCount, done⟩ := Option.bind_eq_some_iff.mp done
  have isKey : table.keyMemory.given = key.toNat := by rw [TableMemory.given, keyCount, Option.getD_some]
  have isValue : table.valueMemory.given =
    value.toNat := by rw [TableMemory.given, valueCount, Option.getD_some]
  cases type : table.keyMemory.type with
  | tcam =>
      simp only [if_pos type, Option.pure_def, Option.some.injEq, Prod.mk.injEq] at done
      obtain ⟨rfl, rfl⟩ := done
      rw [Table.given_tcam type, isKey, isValue]
      exact ⟨rfl, _, _, rfl, .inl ⟨rfl, rfl, rfl⟩⟩
  | sram =>
      have other : ¬table.keyMemory.type = .tcam := type ▸ MemoryType.noConfusion
      simp only [if_neg other, Option.pure_def, Option.some.injEq, Prod.mk.injEq] at done
      obtain ⟨rfl, rfl⟩ := done
      rw [Table.given_sram type, isKey, isValue]
      exact ⟨by simp [Counters.add, Nat.add_assoc], _, _, rfl, .inr ⟨rfl, rfl, rfl⟩⟩

theorem configureTable_configures {used after : Counters} {table configured : Table}
    (done : configureTable used table = some (configured, after)) :
    Configures used after table configured := by
  obtain ⟨counters, keyBlocks, valueBlocks, rfl, blocks⟩ := configureTable_eq done
  have lengths : keyBlocks.length = table.keyMemory.given ∧ valueBlocks.length = table.valueMemory.given := by
    obtain ⟨-, rfl, rfl⟩ | ⟨-, rfl, rfl⟩ := blocks <;> simp [length_nextBlocks]
  refine ⟨counters,
    rfl, by simp [lengths.1], by simp [lengths.2], fun noKey noValue => ?_, fun noKey => ?_, fun zero => ?_⟩
  · obtain ⟨type, rfl, rfl⟩ | ⟨type, rfl, rfl⟩ := blocks
    · simp [Table.sramBlocks, Table.given_tcam type, type, noValue]
    · simp [Table.sramBlocks, Table.given_sram type, type, noKey, noValue, nextBlocks_append]
  · obtain ⟨type, rfl, rfl⟩ | ⟨type, rfl, rfl⟩ := blocks
    · simp [Table.tcamBlocks, Table.given_tcam type, type, noKey]
    · simp [Table.tcamBlocks, Table.given_sram type, type, nextBlocks]
  · obtain ⟨noKey, noValue⟩ := Table.given_zero zero
    rw [noKey] at lengths
    rw [noValue] at lengths
    simp [List.length_eq_zero_iff.mp lengths.1, List.length_eq_zero_iff.mp lengths.2]

/-! ### All tables -/

def blankEntry (entry : String × Table) : String × Table := (entry.1, entry.2.blank)

/-- The blocks of some tables, in order. -/
def blocksOf (pick : Table → List Int) (tables : TableManager) (tableIds : List Int) : List Int :=
  tableIds.flatMap fun tableId => ((tables.lookupId tableId).map pick).getD []

/-- A table that is given blocks is listed once. -/
def ListedOnce (given : Int → Counters) (tableIds : List Int) : Prop :=
  ∀ tableId, tableIds.count tableId ≤ 1 ∨ given tableId = .zero

/-- A kind of blocks. -/
structure Measure (measure : Counters → Nat) : Prop where
  zero : measure .zero = 0
  add : ∀ first second : Counters, measure (first.add second) = measure first + measure second

theorem sram_measure : Measure Counters.sram := ⟨rfl, fun _ _ => rfl⟩

theorem tcam_measure : Measure Counters.tcam := ⟨rfl, fun _ _ => rfl⟩

/-- The tables and the counters after some references are worked off. -/
structure Configured (initial : TableManager) (done : List (Nat × Int))
    (state : TableManager × List Counters) :
    Prop where
  tables : state.1.map blankEntry = initial.map blankEntry
  keys : ∀ entry ∈ state.1,
    entry.2.keyMemory.config.length = (done.map Prod.snd).count entry.2.tableId * entry.2.keyMemory.given
  values : ∀ entry ∈ state.1,
    entry.2.valueMemory.config.length = (done.map Prod.snd).count entry.2.tableId * entry.2.valueMemory.given
  length : state.2.length = clusterCount
  counters : ∀ measure, Measure measure → ∀ cluster < clusterCount, measure (state.2.getD cluster .zero) =
    ((clusterRefs done cluster).map fun tableId => measure (initial.given tableId)).sum
  sram : ListedOnce initial.given (done.map Prod.snd) → ∀ cluster < clusterCount,
    blocksOf Table.sramBlocks state.1 (clusterRefs done cluster) = nextBlocks 0
      (state.2.getD cluster .zero).sram
  tcam : ListedOnce initial.given (done.map Prod.snd) → ∀ cluster < clusterCount,
    blocksOf Table.tcamBlocks state.1 (clusterRefs done cluster) = nextBlocks 0
      (state.2.getD cluster .zero).tcam

/-- What the blocks of a table leave open is the same for tables that differ in them only. -/
theorem blank_congr {first second : Table} (same : first.blank = second.blank) :
    first.tableId = second.tableId ∧ first.actionToProc = second.actionToProc ∧
      first.keyMemory.type = second.keyMemory.type ∧ first.keyMemory.size = second.keyMemory.size ∧
      first.valueMemory.size = second.valueMemory.size := by
  obtain ⟨_, _, _, _, _, _, _, _, ⟨_, _, _, _⟩, ⟨_, _, _, _⟩, _⟩ := first
  obtain ⟨_, _, _, _, _, _, _, _, ⟨_, _, _, _⟩, ⟨_, _, _, _⟩, _⟩ := second
  cases same
  exact ⟨rfl, rfl, rfl, rfl, rfl⟩

theorem given_of_blank {first second : Table} (same : first.blank = second.blank) :
    first.given = second.given ∧ first.keyMemory.given = second.keyMemory.given ∧
      first.valueMemory.given = second.valueMemory.given := by
  obtain ⟨-, -, type, key, value⟩ := blank_congr same
  unfold Table.given TableMemory.given TableMemory.blockCount
  rw [type, key, value]
  exact ⟨rfl, rfl, rfl⟩

theorem mem_of_blank {first second : TableManager} (same : first.map blankEntry = second.map blankEntry)
    {entry : String × Table} (member : entry ∈ first) : ∃ other ∈ second, other.2.blank = entry.2.blank := by
  have blank : blankEntry entry ∈ second.map blankEntry := same ▸ List.mem_map_of_mem member
  obtain ⟨other, inside, equal⟩ := List.mem_map.mp blank
  exact ⟨other, inside, (Prod.mk.inj equal).2⟩

theorem tableIds_of_blank {first second : TableManager}
    (same : first.map blankEntry = second.map blankEntry) :
    (first.map fun entry => entry.2.tableId) = second.map fun entry => entry.2.tableId := by
  have ids : ∀ tables : TableManager, (tables.map fun entry => entry.2.tableId) =
      (tables.map blankEntry).map fun entry => entry.2.tableId := by
    intro tables
    rw [List.map_map]
    rfl
  rw [ids first, same, ← ids second]

theorem lookupId_entry {tables : TableManager} {tableId : Int} {table : Table}
    (found : tables.lookupId tableId = some table) :
    table.tableId = tableId ∧ ∃ name, (name, table) ∈ tables := by
  obtain ⟨⟨name, other⟩, first, rfl⟩ := Option.map_eq_some_iff.mp found
  exact ⟨by simpa using List.find?_some first, name, List.mem_of_find?_eq_some first⟩

theorem lookupId_of_mem {tables : TableManager} (nodup : (tables.map fun entry => entry.2.tableId).Nodup)
    {entry : String × Table} (member : entry ∈ tables) : tables.lookupId entry.2.tableId = some entry.2 := by
  rw [TableManager.lookupId, find_table nodup member]
  rfl

theorem lookupId_update {tables : TableManager} {tableId : Int} {table configured : Table}
    (found : tables.lookupId tableId = some table) (number : configured.tableId = tableId) (other : Int) :
    (tables.update tableId fun _ => configured).lookupId other =
      if other = tableId then some configured else tables.lookupId other := by
  have key : ∀ entry : String × Table,
      (if entry.2.tableId = tableId then (entry.1, configured) else entry).2.tableId = entry.2.tableId := by
    intro entry
    split
    · next here => exact number.trans here.symm
    · rfl
  have search : (tables.update tableId fun _ => configured).find? (fun entry => entry.2.tableId = other) =
      (tables.find? fun entry => entry.2.tableId = other).map fun entry =>
        if entry.2.tableId = tableId then (entry.1, configured) else entry := by
    rw [TableManager.update, List.find?_map]
    congr 2
    funext entry
    simp only [Function.comp_apply, key]
  rw [TableManager.lookupId, search, Option.map_map]
  split
  · next same =>
      subst same
      obtain ⟨entry, first, _⟩ := Option.map_eq_some_iff.mp found
      have here : entry.2.tableId = other := by simpa using List.find?_some first
      rw [first, Option.map_some, Function.comp_apply, if_pos here]
  · next different =>
      rw [TableManager.lookupId]
      cases first : tables.find? fun entry => entry.2.tableId = other with
      | none => rfl
      | some entry =>
          have here : entry.2.tableId = other := by simpa using List.find?_some first
          rw [Option.map_some, Function.comp_apply, if_neg (here ▸ different)]
          rfl

private theorem clusterRefs_append (done : List (Nat × Int)) (ref : Nat × Int) (cluster : Nat) :
    clusterRefs (done ++ [ref]) cluster = clusterRefs done cluster ++ if ref.1 =
      cluster then [ref.2] else [] := by
  rw [clusterRefs, List.filter_append, List.map_append]
  by_cases here : ref.1 = cluster <;> simp [clusterRefs, here]

private theorem counter_set {spaces : List Counters} {cluster : Nat}
    (inside : cluster < spaces.length) (target : Nat) (used : Counters) :
    (spaces.set target used).getD cluster .zero = if target = cluster then used
      else spaces.getD cluster .zero := by
  rw [List.getD_eq_getElem?_getD, List.getD_eq_getElem?_getD, List.getElem?_set]
  by_cases here : target = cluster
  · rw [if_pos here, if_pos here, if_pos (here ▸ inside)]
    rfl
  · rw [if_neg here, if_neg here]

private theorem blocksOf_step {pick : Table → List Int} {measure : Counters → Nat} {tables : TableManager}
    {spaces : List Counters} {done : List (Nat × Int)} {ref : Nat × Int} {table configured : Table}
    {need : Counters} (isMeasure : Measure measure) (length : spaces.length = clusterCount)
    (found : tables.lookupId ref.2 = some table) (number : configured.tableId = ref.2)
    (repeated : ref.2 ∈ done.map Prod.snd → configured = table)
    (picked : pick configured = nextBlocks (measure (spaces.getD ref.1 .zero)) (measure need)) {cluster : Nat}
    (inside : cluster < clusterCount)
    (old : blocksOf pick tables (clusterRefs done cluster) =
      nextBlocks 0 (measure (spaces.getD cluster .zero))) :
    blocksOf pick (tables.update ref.2 fun _ => configured) (clusterRefs (done ++ [ref]) cluster) =
      nextBlocks 0 (measure
        ((spaces.set ref.1 ((spaces.getD ref.1 .zero).add need)).getD cluster .zero)) := by
  have lookup := lookupId_update found number
  have kept : blocksOf pick (tables.update ref.2 fun _ => configured) (clusterRefs done cluster) =
      blocksOf pick tables (clusterRefs done cluster) := by
    refine List.flatMap_congr fun tableId member => ?_
    rw [lookup]
    split
    · next same =>
        subst same
        have before : ref.2 ∈ done.map Prod.snd :=
          List.map_subset _ (List.filter_sublist.subset) member
        rw [repeated before, found]
    · rfl
  have split : ∀ tableIds : List Int, blocksOf pick (tables.update ref.2 fun _ => configured)
      (clusterRefs done cluster ++ tableIds) = blocksOf pick tables (clusterRefs done cluster) ++
        blocksOf pick (tables.update ref.2 fun _ => configured) tableIds := by
    intro tableIds
    rw [← kept]
    exact List.flatMap_append
  rw [clusterRefs_append, split, old, counter_set (length ▸ inside)]
  by_cases here : ref.1 = cluster
  · subst here
    rw [if_pos rfl, if_pos rfl, isMeasure.add]
    have joined := nextBlocks_append 0 (measure (spaces.getD ref.1 .zero)) (measure need)
    rw [Nat.zero_add] at joined
    rw [← joined, ← picked]
    simp [blocksOf, lookup]
  · rw [if_neg here, if_neg here]
    simp [blocksOf]

private theorem mem_update_const {tables : TableManager} {tableId : Int} {configured : Table}
    {other : String × Table} (inside : other ∈ tables.update tableId fun _ => configured) :
    other.2 = configured ∨ other ∈ tables ∧ other.2.tableId ≠ tableId := by
  obtain ⟨before, here, rfl⟩ := List.mem_map.mp inside
  split
  · exact .inl rfl
  · next different => exact .inr ⟨here, different⟩

private theorem count_concat (done : List (Nat × Int)) (ref : Nat × Int) (tableId : Int) :
    ((done ++ [ref]).map Prod.snd).count tableId =
      (done.map Prod.snd).count tableId + if ref.2 = tableId then 1 else 0 := by
  rw [List.map_append, List.count_append]
  simp [List.count_singleton, beq_iff_eq]

private theorem lengths_step {pick : Table → TableMemory} {tables : TableManager} {done : List (Nat × Int)}
    {ref : Nat × Int} {entry : String × Table} {configured : Table}
    (old : ∀ entry ∈ tables,
      (pick entry.2).config.length = (done.map Prod.snd).count entry.2.tableId * (pick entry.2).given)
    (member : entry ∈ tables) (number : entry.2.tableId = ref.2) (newNumber : configured.tableId = ref.2)
    (same : (pick configured).given = (pick entry.2).given)
    (grown : (pick configured).config.length = (pick entry.2).config.length + (pick entry.2).given) :
    ∀ other ∈ tables.update ref.2 (fun _ => configured),
      (pick other.2).config.length = ((done ++ [ref]).map Prod.snd).count other.2.tableId *
        (pick other.2).given := by
  intro other inside
  obtain isConfigured | ⟨before, different⟩ := mem_update_const inside
  · rw [isConfigured, same, grown, old entry member, count_concat, newNumber, number,
      if_pos rfl, Nat.succ_mul]
  · rw [count_concat, if_neg (Ne.symm different), Nat.add_zero, old other before]

private theorem Configured.fresh {initial : TableManager} {done : List (Nat × Int)}
    {state : TableManager × List Counters} {ref : Nat × Int} {entry : String × Table}
    (old : Configured initial done state) (member : entry ∈ state.1) (number : entry.2.tableId = ref.2)
    (given : entry.2.given = initial.given ref.2)
    (once : ListedOnce initial.given ((done ++ [ref]).map Prod.snd)) :
    ListedOnce initial.given (done.map Prod.snd) ∧ entry.2.keyMemory.config = [] ∧
      entry.2.valueMemory.config = [] ∧ (ref.2 ∈ done.map Prod.snd → entry.2.given = .zero) := by
  have keyLength := old.keys entry member
  have valueLength := old.values entry member
  have here := once ref.2
  rw [count_concat, if_pos rfl] at here
  refine ⟨fun tableId => ?_, ?_, ?_, ?_⟩
  · have later := once tableId
    rw [count_concat] at later
    exact later.imp_left fun bound => (Nat.le_add_right _ _).trans bound
  all_goals rcases here with first | empty
  · exact List.length_eq_zero_iff.mp (by rw [keyLength, number]; simp; omega)
  · exact List.length_eq_zero_iff.mp
      (by rw [keyLength, (Table.given_zero (given.trans empty)).1, Nat.mul_zero])
  · exact List.length_eq_zero_iff.mp (by rw [valueLength, number]; simp; omega)
  · exact List.length_eq_zero_iff.mp
      (by rw [valueLength, (Table.given_zero (given.trans empty)).2, Nat.mul_zero])
  · intro before
    have positive := List.count_pos_iff.mpr before
    omega
  · exact fun _ => given.trans empty

theorem configureRef_configured {initial : TableManager} {done : List (Nat × Int)}
    {state : TableManager × List Counters} {ref : Nat × Int}
    (nodup : (initial.map fun entry => entry.2.tableId).Nodup)
    (known : ∀ entry ∈ initial, entry.2.space.isSome)
    (listed : ref.2 ∈ initial.map fun entry => entry.2.tableId) (old : Configured initial done state) :
    ∃ after, configureRef state ref = some after ∧ Configured initial (done ++ [ref]) after := by
  obtain ⟨tables, spaces⟩ := state
  have ids := tableIds_of_blank old.tables
  have unique : (tables.map fun entry => entry.2.tableId).Nodup := ids ▸ nodup
  rw [← ids] at listed
  obtain ⟨entry, member, number⟩ := List.mem_map.mp listed
  have found : tables.lookupId ref.2 = some entry.2 := number ▸ lookupId_of_mem unique member
  obtain ⟨other, inside, same⟩ := mem_of_blank old.tables member
  have given : entry.2.given = initial.given ref.2 := by
    rw [TableManager.given, ← number, ← (blank_congr same).1, lookupId_of_mem nodup inside, Option.map_some,
      Option.getD_some, (given_of_blank same).1]
  obtain ⟨⟨configured, used⟩, step⟩ : ∃ result, configureTable (spaces.getD ref.1 .zero) entry.2 =
      some result := by
    obtain ⟨-, -, -, sameKey, sameValue⟩ := blank_congr same
    obtain ⟨space, isSpace⟩ := Option.isSome_iff_exists.mp (known other inside)
    obtain ⟨key, keyCount, isSpace⟩ := Option.bind_eq_some_iff.mp isSpace
    obtain ⟨value, valueCount, _⟩ := Option.bind_eq_some_iff.mp isSpace
    rw [TableMemory.blockCount, sameKey] at keyCount
    rw [TableMemory.blockCount, sameValue] at valueCount
    unfold configureTable TableMemory.blockCount
    rw [keyCount, valueCount]
    exact ⟨_, rfl⟩
  have configures := configureTable_configures step
  have newNumber : configured.tableId = ref.2 := (blank_congr configures.blank).1.trans number
  obtain ⟨-, sameKey, sameValue⟩ := given_of_blank configures.blank
  refine ⟨(tables.update ref.2 fun _ => configured, spaces.set ref.1 used), ?_, ?_,
    lengths_step old.keys member number newNumber sameKey configures.key,
    lengths_step old.values member number newNumber sameValue configures.value, ?_, ?_, ?_, ?_⟩
  · simp only [configureRef, found, step, Option.bind_eq_bind, Option.bind_some, Option.pure_def]
  · rw [← old.tables, TableManager.update, List.map_map]
    refine List.map_congr_left fun other inside => ?_
    rw [Function.comp_apply]
    split
    · next same =>
        rw [List.inj_on_of_nodup_map unique inside member (same.trans number.symm)]
        exact congrArg (Prod.mk entry.1) configures.blank
    · rfl
  · simpa using old.length
  · intro measure isMeasure cluster inside
    have before := old.counters measure isMeasure cluster inside
    rw [clusterRefs_append, List.map_append, List.sum_append, ← before, counter_set (old.length ▸ inside)]
    by_cases here : ref.1 = cluster
    · subst here
      rw [if_pos rfl, if_pos rfl, configures.counters, isMeasure.add, given]
      simp
    · rw [if_neg here, if_neg here]
      simp
  · intro once cluster inside
    obtain ⟨earlier, noKey, noValue, repeated⟩ := old.fresh member number given once
    rw [configures.counters]
    exact blocksOf_step sram_measure old.length found newNumber
      (fun before => configures.unchanged (repeated before))
      (configures.sram noKey noValue) inside (old.sram earlier cluster inside)
  · intro once cluster inside
    obtain ⟨earlier, noKey, _, repeated⟩ := old.fresh member number given once
    rw [configures.counters]
    exact blocksOf_step tcam_measure old.length found newNumber
      (fun before => configures.unchanged (repeated before))
      (configures.tcam noKey) inside (old.tcam earlier cluster inside)

/-- The tables of the stages on the processors of a cluster. -/
def clusterTables (stages : List Stage) (physicalProcId : List Int) (cluster : Nat) : List Int :=
  (((liveStages stages).filter fun stage => stage.stageId ∈ clusterProcs physicalProcId cluster).flatMap
    Stage.tableId).dedup

end Memory

/-- Every table of a stage has as many blocks as it is declared with, and the blocks of a cluster's
tables are distinct and exist. -/
structure MemoryExact (stages : List Stage) (memory : MemoryResult) : Prop where
  sizes : ∀ stage ∈ liveStages stages, ∀ tableId ∈ stage.tableId, ∃ table,
    memory.tables.lookupId tableId = some table ∧
      table.keyMemory.size = some (table.keyMemory.config.length : Int) ∧
      table.valueMemory.size = some (table.valueMemory.config.length : Int)
  sram : ∀ cluster < clusterCount,
    (blocksOf Table.sramBlocks memory.tables (clusterTables stages memory.physicalProcId cluster)).Nodup ∧
      ∀ block ∈ blocksOf Table.sramBlocks memory.tables (clusterTables stages memory.physicalProcId cluster),
        0 ≤ block ∧ block < clusterSramCount
  tcam : ∀ cluster < clusterCount,
    (blocksOf Table.tcamBlocks memory.tables (clusterTables stages memory.physicalProcId cluster)).Nodup ∧
      ∀ block ∈ blocksOf Table.tcamBlocks memory.tables (clusterTables stages memory.physicalProcId cluster),
        0 ≤ block ∧ block < clusterTcamCount

/-! ### A full compile -/

/-- What `allocateMemory` returns for a loaded program whose tables have keys. -/
structure Allocated (program : Program) (sequence : List Int) (space : Int → Space)
    (memory : MemoryResult) : Prop where
  placed : ∃ placement, PlacementOf sequence placement ∧ placement.physicalProcId = memory.physicalProcId ∧
    ((∀ id ∈ sequence, (procSpace space program.stages.logicalStages id).Natural) →
      Reserves (procSpace space program.stages.logicalStages) placement)
  known : ∀ entry ∈ program.tables, entry.2.space = some (space entry.2.tableId)
  configured : ∃ counters, Configured program.tables
    (tableRefs program.stages.logicalStages memory.physicalProcId) (memory.tables, counters)

/-- Before the first reference no table has blocks. -/
theorem Loaded.configured {program : Program} (loaded : Loaded program) :
    Configured program.tables [] (program.tables, List.replicate clusterCount .zero) := by
  refine ⟨rfl, ?_, ?_, by simp, ?_, ?_, ?_⟩
  · intro entry member
    simp [(loaded.memories entry member).key]
  · intro entry member
    simp [(loaded.memories entry member).value]
  · intro measure isMeasure cluster inside
    simp [clusterRefs, inside, isMeasure.zero]
  · intro _ cluster inside
    simp [clusterRefs, blocksOf, inside, Counters.zero, nextBlocks]
  · intro _ cluster inside
    simp [clusterRefs, blocksOf, inside, Counters.zero, nextBlocks]

theorem allocateMemory_allocated {program : Program} {sequence : List Int} (loaded : Loaded program)
    (nodup : sequence.Nodup) (keyed : ∀ entry ∈ program.tables, entry.2.noTable = false) :
    ∃ memory, allocateMemory program.tables program.stages.logicalStages sequence = some memory ∧
      ∃ space, tableSpace program.tables = some space ∧ Allocated program sequence space memory := by
  obtain ⟨space, spaces⟩ := tableSpace_exists fun entry member =>
    (loaded.memories entry member).space.mpr (keyed entry member)
  have known := tableSpace_known loaded.tableIds spaces
  have placed := placeStages_of (procSpace space program.stages.logicalStages) nodup
  have reserves := fun natural =>
    @placeStages_reserves (procSpace space program.stages.logicalStages) sequence natural nodup
  generalize isPlacement : placeStages (procSpace space program.stages.logicalStages) sequence = placement
    at placed reserves
  have each : ∀ done ref state, ref ∈ tableRefs program.stages.logicalStages placement.physicalProcId →
      Configured program.tables done state →
      ∃ after, configureRef state ref = some after ∧ Configured program.tables (done ++ [ref]) after := by
    intro done ref state member old
    obtain ⟨stage, live, listed⟩ := List.mem_flatMap.mp member
    obtain ⟨tableId, isTable, rfl⟩ := List.mem_map.mp listed
    exact configureRef_configured loaded.tableIds (fun entry member =>
      Option.isSome_of_eq_some (known entry member))
      (loaded.tables stage (List.mem_filter.mp live).1 tableId isTable) old
  obtain ⟨⟨tables, counters⟩, run, configured⟩ :=
    foldlM_runs (Configured program.tables) each loaded.configured
  refine ⟨⟨tables, placement.physicalProcId⟩, ?_, space, spaces, ⟨placement, placed, rfl, reserves⟩,
    known, counters, configured⟩
  rw [allocateMemory, spaces]
  simp only [Option.bind_eq_bind, Option.bind_some, isPlacement, run]
  rfl

section

variable {program : Program} {sequence : List Int} {space : Int → Space} {memory : MemoryResult}

/-- When all stages are placed, every processor holds one of them or nothing. -/
theorem Allocated.isPlaced (allocated : Allocated program sequence space memory)
    (order : ∀ id, id ∈ sequence ↔ id ∈ (liveStages program.stages.logicalStages).map Stage.stageId)
    (all : ∀ stage ∈ liveStages program.stages.logicalStages, stage.stageId ∈ memory.physicalProcId) :
    Placed program memory.physicalProcId := by
  obtain ⟨placement, placed, same, _⟩ := allocated.placed
  rw [← same] at all ⊢
  refine ⟨placed.length, fun id member => (placed.entries member).imp_right (order id).mp, ?_, ?_⟩
  · intro first second id firstAt secondAt ordinary
    exact placed.once ordinary firstAt secondAt
  · intro id member
    obtain ⟨stage, live, rfl⟩ := List.mem_map.mp member
    exact all stage live

theorem Allocated.targets (allocated : Allocated program sequence space memory) :
    memory.tables.map tableTargets = program.tables.map tableTargets := by
  obtain ⟨spaces, configured⟩ := allocated.configured
  have targets : ∀ tables : TableManager, tables.map tableTargets =
      (tables.map blankEntry).map tableTargets := by
    intro tables
    rw [List.map_map]
    rfl
  rw [targets memory.tables, configured.tables, ← targets program.tables]

private theorem nextBlocks_sound {blocks : List Int} {count capacity : Nat}
    (part : blocks.Sublist (nextBlocks 0 count)) (fits : count ≤ capacity) :
    blocks.Nodup ∧ ∀ block ∈ blocks, 0 ≤ block ∧ block < capacity := by
  constructor
  · exact ((List.nodup_range' 1).map fun _ _ equal => Int.ofNat.inj equal).sublist part
  · intro block member
    obtain ⟨number, inside, rfl⟩ := List.mem_map.mp (part.subset member)
    have small := (List.mem_range'_1.mp inside).2
    exact ⟨Int.natCast_nonneg number, by simp only [Int.ofNat_eq_natCast]; omega⟩

theorem tableRefs_ids (stages : List Stage) (physicalProcId : List Int) :
    (tableRefs stages physicalProcId).map Prod.snd = (liveStages stages).flatMap Stage.tableId := by
  unfold tableRefs
  rw [List.map_flatMap]
  refine List.flatMap_congr fun stage _ => ?_
  rw [List.map_map]
  exact List.map_id _

private theorem Allocated.blocks (allocated : Allocated program sequence space memory)
    (loaded : Loaded program) (all : ∀ stage ∈ liveStages program.stages.logicalStages,
      stage.stageId ∈ memory.physicalProcId)
    {pick : Table → List Int} {measure : Counters → Nat} {need : Int → Int} {cluster capacity used : Nat}
    (isUsed : used = ((clusterRefs (tableRefs program.stages.logicalStages memory.physicalProcId) cluster).map
      fun tableId => measure (program.tables.given tableId)).sum)
    (row : blocksOf pick memory.tables
      (clusterRefs (tableRefs program.stages.logicalStages memory.physicalProcId) cluster) =
        nextBlocks 0 used)
    (naturals : ∀ id ∈ sequence, (procSpace space program.stages.logicalStages id).Natural)
    (natural : ∀ id ∈ sequence, 0 ≤ need id)
    (needs : ∀ stage ∈ liveStages program.stages.logicalStages, need stage.stageId =
      ((stage.tableId.map fun tableId => measure (program.tables.given tableId)).sum : Nat))
    (reserved : ∀ placement, Reserves (procSpace space program.stages.logicalStages) placement →
      ((placement.clusterProc.getD cluster []).map need).sum ≤ capacity) :
    (blocksOf pick memory.tables
        (clusterTables program.stages.logicalStages memory.physicalProcId cluster)).Nodup ∧
      ∀ block ∈ blocksOf pick memory.tables
        (clusterTables program.stages.logicalStages memory.physicalProcId cluster), 0 ≤ block ∧
          block < capacity := by
  obtain ⟨placement, placed, same, reserves⟩ := allocated.placed
  rw [← same] at all isUsed row ⊢
  have fits : used ≤ capacity := by
    have total := tableRefs_reserved loaded.unique loaded.ordinary placed natural needs all cluster
    rw [← isUsed] at total
    exact Int.ofNat_le.mp (total.trans (reserved placement (reserves naturals)))
  have tables : clusterTables program.stages.logicalStages placement.physicalProcId cluster =
      (clusterRefs (tableRefs program.stages.logicalStages placement.physicalProcId) cluster).dedup := by
    rw [clusterTables, clusterRefs_tableRefs]
    congr 2
    refine List.filter_congr fun stage live => ?_
    rw [decide_eq_decide]
    exact placed.mem_clusterProcs (loaded.ordinary stage live) (all stage live) cluster
  refine nextBlocks_sound ?_ fits
  rw [← row, tables]
  exact (List.dedup_sublist _).flatMap _

/-- A table of a stage, as it is declared and as it comes out. -/
theorem Allocated.table (allocated : Allocated program sequence space memory)
    (loaded : Loaded program) {stage : Stage}
    (live : stage ∈ liveStages program.stages.logicalStages) {tableId : Int}
    (listed : tableId ∈ stage.tableId) :
    ∃ old table, program.tables.lookupId tableId = some old ∧ memory.tables.lookupId tableId = some table ∧
      old.blank = table.blank ∧
      table.keyMemory.config.length =
        ((liveStages program.stages.logicalStages).flatMap Stage.tableId).count tableId *
          old.keyMemory.given ∧
      table.valueMemory.config.length =
        ((liveStages program.stages.logicalStages).flatMap Stage.tableId).count tableId *
          old.valueMemory.given := by
  obtain ⟨_, configured⟩ := allocated.configured
  have ids := tableIds_of_blank configured.tables
  have isTable := loaded.tables stage (List.mem_filter.mp live).1 tableId listed
  rw [← ids] at isTable
  obtain ⟨entry, member, rfl⟩ := List.mem_map.mp isTable
  obtain ⟨other, inside, same⟩ := mem_of_blank configured.tables member
  obtain ⟨-, sameKey, sameValue⟩ := given_of_blank same
  refine ⟨other.2, entry.2, ?_, lookupId_of_mem (ids ▸ loaded.tableIds) member, same, ?_, ?_⟩
  · rw [← (blank_congr same).1]
    exact lookupId_of_mem loaded.tableIds inside
  · rw [configured.keys entry member, tableRefs_ids, sameKey]
  · rw [configured.values entry member, tableRefs_ids, sameValue]

/-- Counted and listed once, the tables are given what they are declared with. -/
theorem Allocated.exact (allocated : Allocated program sequence space memory) (loaded : Loaded program)
    (order : ∀ id, id ∈ sequence ↔ id ∈ (liveStages program.stages.logicalStages).map Stage.stageId)
    (all : ∀ stage ∈ liveStages program.stages.logicalStages, stage.stageId ∈ memory.physicalProcId)
    (countable : ∀ stage ∈ liveStages program.stages.logicalStages, Countable program.tables stage)
    (once : ListedOnce program.tables.given
      ((liveStages program.stages.logicalStages).flatMap Stage.tableId)) :
    MemoryExact program.stages.logicalStages memory := by
  obtain ⟨_, configured⟩ := allocated.configured
  have isTable : ∀ stage ∈ liveStages program.stages.logicalStages, ∀ tableId ∈ stage.tableId,
      tableId ∈ program.tables.map fun entry => entry.2.tableId :=
    fun stage live => loaded.tables stage (List.mem_filter.mp live).1
  have needs : ∀ stage ∈ liveStages program.stages.logicalStages,
      (procSpace space program.stages.logicalStages stage.stageId).sram =
          ((stage.tableId.map fun tableId => (program.tables.given tableId).sram).sum : Nat) ∧
        (procSpace space program.stages.logicalStages stage.stageId).tcam =
          ((stage.tableId.map fun tableId => (program.tables.given tableId).tcam).sum : Nat) := by
    intro stage live
    rw [procSpace_live loaded.unique live]
    exact (countable stage live).stageSpace allocated.known (isTable stage live)
  have natural : ∀ id ∈ sequence, (procSpace space program.stages.logicalStages id).Natural := by
    intro id member
    obtain ⟨stage, live, rfl⟩ := List.mem_map.mp ((order id).mp member)
    rw [Space.Natural, (needs stage live).1, (needs stage live).2]
    exact ⟨Int.natCast_nonneg _, Int.natCast_nonneg _⟩
  refine ⟨?_, ?_, ?_⟩
  · intro stage live tableId listed
    obtain ⟨old, table, isOld, found, same, keyLength, valueLength⟩ := allocated.table loaded live listed
    obtain ⟨-, -, -, other, isOther, key, value⟩ :=
      (countable stage live).table allocated.known listed (isTable stage live tableId listed)
    cases isOld.symm.trans isOther
    obtain ⟨-, -, -, sameKey, sameValue⟩ := blank_congr same
    refine ⟨table, found, ?_⟩
    rw [← sameKey, ← sameValue, key, value, keyLength, valueLength]
    obtain single | empty := once tableId
    · have positive := List.count_pos_iff.mpr (List.mem_flatMap.mpr ⟨stage, live, listed⟩)
      rw [Nat.le_antisymm single positive, Nat.one_mul, Nat.one_mul]
      exact ⟨rfl, rfl⟩
    · rw [TableManager.given, isOld, Option.map_some, Option.getD_some] at empty
      obtain ⟨noKey, noValue⟩ := Table.given_zero empty
      rw [noKey, noValue, Nat.mul_zero]
      exact ⟨rfl, rfl⟩
  all_goals
    rw [← tableRefs_ids _ memory.physicalProcId] at once
    intro cluster inside
  · refine allocated.blocks loaded all (configured.counters _ sram_measure cluster inside)
      (configured.sram once cluster inside) natural (fun id member => (natural id member).1)
      (fun stage live => (needs stage live).1) fun placement reserves => ?_
    have filled := reserves.sram cluster inside
    omega
  · refine allocated.blocks loaded all (configured.counters _ tcam_measure cluster inside)
      (configured.tcam once cluster inside) natural (fun id member => (natural id member).2)
      (fun stage live => (needs stage live).2) fun placement reserves => ?_
    have filled := reserves.tcam cluster inside
    omega

private theorem length_le_capacity {blocks : List Int} {capacity : Nat} (nodup : blocks.Nodup)
    (small : ∀ block ∈ blocks, 0 ≤ block ∧ block < capacity) : blocks.length ≤ capacity := by
  have inside : blocks.toFinset ⊆ Finset.Ico (0 : Int) capacity := by
    intro block member
    exact Finset.mem_Ico.mpr (small block (List.mem_toFinset.mp member))
  have bound := Finset.card_le_card inside
  rwa [List.toFinset_card_of_nodup nodup, Int.card_Ico, Int.sub_zero, Int.toNat_natCast] at bound

/-- The number of blocks of one kind that a table came out with. -/
private def blockLength (pick : Table → List Int) (tables : TableManager) (tableId : Int) : Nat :=
  (((tables.lookupId tableId).map pick).getD []).length

private theorem Allocated.length_le (allocated : Allocated program sequence space memory)
    (loaded : Loaded program) (all : ∀ stage ∈ liveStages program.stages.logicalStages,
      stage.stageId ∈ memory.physicalProcId)
    {pick : Table → List Int} {capacity : Nat}
    (exact : ∀ cluster < clusterCount,
      (blocksOf pick memory.tables
        (clusterTables program.stages.logicalStages memory.physicalProcId cluster)).Nodup ∧
        ∀ block ∈ blocksOf pick memory.tables
          (clusterTables program.stages.logicalStages memory.physicalProcId cluster), 0 ≤ block ∧
            block < capacity)
    {stage : Stage} (live : stage ∈ liveStages program.stages.logicalStages) :
    (stage.tableId.dedup.map (blockLength pick memory.tables)).sum ≤ capacity := by
  obtain ⟨placement, placed, same, _⟩ := allocated.placed
  rw [← same] at all exact
  have ordinary := loaded.ordinary stage live
  obtain ⟨index, here, isCluster⟩ := procCluster_index ordinary (all stage live)
  have bound := (placed.cluster ordinary here).1
  have onCluster := (placed.mem_clusterProcs ordinary (all stage live) _).mpr isCluster
  obtain ⟨nodup, small⟩ := exact _ bound
  have subset : stage.tableId.dedup ⊆
      clusterTables program.stages.logicalStages placement.physicalProcId (index / clusterProcCount) := by
    intro tableId member
    rw [clusterTables, List.mem_dedup]
    exact List.mem_flatMap.mpr ⟨stage, List.mem_filter.mpr ⟨live, decide_eq_true onCluster⟩,
      List.mem_dedup.mp member⟩
  obtain ⟨part, perm, sublist⟩ := List.subperm_of_subset (List.nodup_dedup _) subset
  calc (stage.tableId.dedup.map (blockLength pick memory.tables)).sum
      = (part.map (blockLength pick memory.tables)).sum := (perm.map _).sum_eq.symm
    _ ≤ ((clusterTables program.stages.logicalStages placement.physicalProcId (index / clusterProcCount)).map
          (blockLength pick memory.tables)).sum := (sublist.map _).sum_le_sum fun _ _ => Nat.zero_le _
    _ = _ := List.length_flatMap.symm
    _ ≤ capacity := length_le_capacity nodup small

private theorem wrap_length {length : Nat} (small : length ≤ 256) :
    ((((some (length : Int)).map wrapInt).getD 0).toNat) = length := by
  rw [Option.map_some, Option.getD_some, wrapInt_of_small (by omega) (by omega), Int.toNat_natCast]

private theorem Allocated.sizes (allocated : Allocated program sequence space memory)
    (loaded : Loaded program) (all : ∀ stage ∈ liveStages program.stages.logicalStages,
      stage.stageId ∈ memory.physicalProcId)
    (exact : MemoryExact program.stages.logicalStages memory) {stage : Stage}
    (live : stage ∈ liveStages program.stages.logicalStages) {tableId : Int}
    (listed : tableId ∈ stage.tableId) :
    ∃ old, program.tables.lookupId tableId = some old ∧
      (∃ key value : Nat, old.keyMemory.size = some (key : Int) ∧ old.valueMemory.size = some (value : Int) ∧
        (((liveStages program.stages.logicalStages).flatMap Stage.tableId).count tableId ≤ 1 ∨
          key = 0 ∧ value = 0)) ∧
      (program.tables.size tableId).sram = blockLength Table.sramBlocks memory.tables tableId ∧
      (program.tables.size tableId).tcam = blockLength Table.tcamBlocks memory.tables tableId := by
  obtain ⟨old, table, isOld, found, same, keyLength, valueLength⟩ := allocated.table loaded live listed
  obtain ⟨other, isOther, exactKey, exactValue⟩ := exact.sizes stage live tableId listed
  cases found.symm.trans isOther
  have sram := allocated.length_le loaded all exact.sram live
  have tcam := allocated.length_le loaded all exact.tcam live
  have single := fun pick => List.single_le_sum (fun length _ => Nat.zero_le length) _
    (List.mem_map_of_mem (f := blockLength pick memory.tables) (List.mem_dedup.mpr listed))
  replace sram := (single _).trans sram
  replace tcam := (single _).trans tcam
  have lengths : blockLength Table.sramBlocks memory.tables tableId = table.sramBlocks.length ∧
      blockLength Table.tcamBlocks memory.tables tableId = table.tcamBlocks.length := by
    simp only [blockLength, found, Option.map_some, Option.getD_some, and_self]
  rw [lengths.1] at sram ⊢
  rw [lengths.2] at tcam ⊢
  obtain ⟨-, -, sameType, sameKey, sameValue⟩ := blank_congr same
  rw [← sameKey] at exactKey
  rw [← sameValue] at exactValue
  simp only [TableManager.size, isOld, Option.bind_some, Table.size, exactKey, exactValue,
    Option.bind_eq_bind, Option.pure_def, Option.getD_some, sameType]
  unfold Table.sramBlocks at sram ⊢
  unfold Table.tcamBlocks at tcam ⊢
  have counted : table.keyMemory.config.length ≤ 256 ∧ table.valueMemory.config.length ≤ 256 := by
    cases type : table.keyMemory.type <;>
      simp [type, clusterSramCount, clusterTcamCount] at sram tcam <;> omega
  rw [TableMemory.given, TableMemory.blockCount, exactKey, wrap_length counted.1] at keyLength
  rw [TableMemory.given, TableMemory.blockCount, exactValue, wrap_length counted.2] at valueLength
  refine ⟨old, rfl, ⟨_, _, exactKey, exactValue, ?_⟩, ?_⟩
  · by_cases once : ((liveStages program.stages.logicalStages).flatMap Stage.tableId).count tableId ≤ 1
    · exact .inl once
    · have twice := Nat.mul_le_mul_right table.keyMemory.config.length (Nat.lt_of_not_le once)
      have twiceValue := Nat.mul_le_mul_right table.valueMemory.config.length (Nat.lt_of_not_le once)
      omega
  · cases type : table.keyMemory.type <;> simp

private theorem sum_map_dedup {number : Int → Nat} :
    ∀ {ids : List Int}, (∀ id, ids.count id ≤ 1 ∨ number id = 0) →
      (ids.map number).sum = (ids.dedup.map number).sum
  | [], _ => rfl
  | id :: rest, once => by
      have later : ∀ other, rest.count other ≤ 1 ∨ number other = 0 := fun other =>
        (once other).imp_left ((List.sublist_cons_self id rest).count_le other).trans
      rw [List.map_cons, List.sum_cons, sum_map_dedup later]
      by_cases member : id ∈ rest
      · have here := once id
        rw [List.count_cons_self] at here
        have positive := List.count_pos_iff.mpr member
        rw [List.dedup_cons_of_mem member]
        omega
      · rw [List.dedup_cons_of_notMem member, List.map_cons, List.sum_cons]

/-- Exact tables are counted, and none with blocks is listed twice. -/
theorem Allocated.necessary (allocated : Allocated program sequence space memory) (loaded : Loaded program)
    (all : ∀ stage ∈ liveStages program.stages.logicalStages, stage.stageId ∈ memory.physicalProcId)
    (exact : MemoryExact program.stages.logicalStages memory) :
    (∀ stage ∈ liveStages program.stages.logicalStages, Countable program.tables stage) ∧
      ∀ entry ∈ program.tables,
        ((liveStages program.stages.logicalStages).flatMap Stage.tableId).count entry.2.tableId ≤ 1 ∨
          entry.2.size = some .zero := by
  have total : ∀ {measure : Space → Int} {pick : Table → List Int} {capacity : Nat}, ∀ stage ∈
      liveStages program.stages.logicalStages,
      (stage.tableId.dedup.map (blockLength pick memory.tables)).sum ≤ capacity → capacity ≤ 256 →
      (∀ tableId ∈ stage.tableId, measure (program.tables.size tableId) =
        blockLength pick memory.tables tableId) →
      (∀ tableId, stage.tableId.count tableId ≤ 1 ∨ blockLength pick memory.tables tableId = 0) →
      (stage.tableId.map fun tableId => measure (program.tables.size tableId)).sum < 2 ^ 31 := by
    intro measure pick capacity stage live bound small same once
    have cast : (stage.tableId.map fun tableId => (blockLength pick memory.tables tableId : Int)).sum =
        ((stage.tableId.map (blockLength pick memory.tables)).sum : Nat) := by
      rw [Nat.cast_list_sum, List.map_map]
      rfl
    rw [List.map_congr_left same, cast, sum_map_dedup once]
    omega
  constructor
  · intro stage live
    have sizes :=
      fun tableId (listed : tableId ∈ stage.tableId) => allocated.sizes loaded all exact live listed
    have count : ∀ tableId, stage.tableId.count tableId ≤
        ((liveStages program.stages.logicalStages).flatMap Stage.tableId).count tableId := fun tableId =>
      (List.sublist_flatten_of_mem (List.mem_map_of_mem live)).count_le tableId
    have once : ∀ tableId, stage.tableId.count tableId ≤ 1 ∨
      blockLength Table.sramBlocks memory.tables tableId = 0 ∧
        blockLength Table.tcamBlocks memory.tables tableId = 0 := by
      intro tableId
      by_cases listed : tableId ∈ stage.tableId
      · obtain ⟨old, isOld, ⟨key, value, isKey, isValue, single⟩, sram, tcam⟩ := sizes tableId listed
        refine single.imp (count tableId).trans ?_
        rintro ⟨rfl, rfl⟩
        simp only [TableManager.size, isOld, Option.bind_some, Table.size, isKey, isValue,
          Option.bind_eq_bind, Option.pure_def, Option.getD_some] at sram tcam
        cases type : old.keyMemory.type <;> simp [type] at sram tcam <;> omega
      · exact .inl (List.count_eq_zero.mpr listed ▸ Nat.zero_le 1)
    refine ⟨?_, ?_, ?_⟩
    · intro tableId listed table found
      obtain ⟨old, isOld, ⟨key, value, isKey, isValue, -⟩, -⟩ := sizes tableId listed
      cases isOld.symm.trans found
      rw [isKey, isValue]
      constructor <;> rintro _ ⟨⟩ <;> exact Int.natCast_nonneg _
    · exact total stage live (allocated.length_le loaded all exact.sram live) (by decide)
        (fun tableId listed => by obtain ⟨_, _, _, sram, _⟩ := sizes tableId listed; exact sram)
        fun tableId => (once tableId).imp_right And.left
    · exact total stage live (allocated.length_le loaded all exact.tcam live) (by decide)
        (fun tableId listed => by obtain ⟨_, _, _, _, tcam⟩ := sizes tableId listed; exact tcam)
        fun tableId => (once tableId).imp_right And.right
  · intro entry member
    by_cases listed : entry.2.tableId ∈ (liveStages program.stages.logicalStages).flatMap Stage.tableId
    · obtain ⟨stage, live, here⟩ := List.mem_flatMap.mp listed
      obtain ⟨old, isOld, ⟨key, value, isKey, isValue, single⟩, -⟩ :=
        allocated.sizes loaded all exact live here
      cases isOld.symm.trans (lookupId_of_mem loaded.tableIds member)
      refine single.imp_right ?_
      rintro ⟨rfl, rfl⟩
      simp [Table.size, isKey, isValue, Space.zero]
    · exact .inl (List.count_eq_zero.mpr listed ▸ Nat.zero_le 1)

end

/-- After `allocateMemory` has placed all stages, the blocks are exact and disjoint exactly when every
table has keys, the tables of a stage have no negative number of blocks and an `int` holds their sum,
and no table with blocks is named by two switch entries. -/
theorem memory_exact_iff (headers : HeaderLookup) (getHeader : String → Option Int)
    (sort : (Int → Int → Bool) → List Int → List Int) (levels : List Level) (ast : Ast) (program : Program)
    (distribution : DistributionResult) (done : load headers levels ast = some program)
    (distributed : distributeParsers sort getHeader levels program.stages.logicalStages = some distribution)
    (placed : ∀ memory, allocateMemory program.tables program.stages.logicalStages distribution.topoSequence =
      some memory → ∀ stage ∈ liveStages program.stages.logicalStages,
        stage.stageId ∈ memory.physicalProcId) :
    (∃ memory, allocateMemory program.tables program.stages.logicalStages distribution.topoSequence =
      some memory ∧
        MemoryExact program.stages.logicalStages memory) ↔
      (∀ entry ∈ program.tables, entry.2.noTable = false) ∧
        (∀ stage ∈ liveStages program.stages.logicalStages, Countable program.tables stage) ∧
        ∀ entry ∈ program.tables,
          ((liveStages program.stages.logicalStages).flatMap Stage.tableId).count entry.2.tableId ≤ 1 ∨
            entry.2.size = some .zero := by
  have loaded := load_loaded done
  obtain ⟨_, nodup, order⟩ := distributeParsers_order loaded distributed
  constructor
  · rintro ⟨memory, allocation, exact⟩
    obtain ⟨space, spaces, _⟩ := Option.bind_eq_some_iff.mp allocation
    have keyed : ∀ entry ∈ program.tables, entry.2.noTable = false := fun entry member =>
      (loaded.memories entry member).space.mp
        (Option.isSome_of_eq_some (tableSpace_known loaded.tableIds spaces entry member))
    obtain ⟨_, same, _, _, allocated⟩ := allocateMemory_allocated loaded nodup keyed
    cases allocation.symm.trans same
    exact ⟨keyed, allocated.necessary loaded (placed memory allocation) exact⟩
  · rintro ⟨keyed, countable, once⟩
    obtain ⟨memory, allocation, space, _, allocated⟩ := allocateMemory_allocated loaded nodup keyed
    refine ⟨memory, allocation,
      allocated.exact loaded order (placed memory allocation) countable fun tableId => ?_⟩
    by_cases listed : tableId ∈ (liveStages program.stages.logicalStages).flatMap Stage.tableId
    · obtain ⟨stage, live, here⟩ := List.mem_flatMap.mp listed
      obtain ⟨entry, member, rfl⟩ :=
        List.mem_map.mp (loaded.tables stage (List.mem_filter.mp live).1 tableId here)
      refine (once entry member).imp_right fun none => ?_
      have isTable := lookupId_of_mem loaded.tableIds member
      obtain ⟨sram, tcam, -⟩ := (countable stage live).table allocated.known here (List.mem_map_of_mem member)
      have size : program.tables.size entry.2.tableId = .zero := by
        rw [TableManager.size, isTable, Option.bind_some, none, Option.getD_some]
      rw [size] at sram tcam
      cases given : program.tables.given entry.2.tableId
      rw [given] at sram tcam
      rw [Counters.zero, Counters.mk.injEq]
      exact ⟨Int.ofNat.inj sram.symm, Int.ofNat.inj tcam.symm⟩
    · exact .inl (List.count_eq_zero.mpr listed ▸ Nat.zero_le 1)

/-- One table with an 8-bit key, and a stage that names it in every entry of its switch. -/
def tableAst (keys : List Key) : Ast where
  actions := []
  tables :=
    [{ name := "t", keys := [(.field "hdr" "h" "f", .exact)], optionalStmts := [.size 1024, .valueWidth 16] }]
  ingress := [
    { name := "a", parser := [], executor := []
      matcher := ⟨[.literal 1], keys.map fun key => ⟨key, .table "t"⟩⟩ }]
  egress := []

def tableHeaders : HeaderLookup := fun _ => some { fieldLength := 8 }

def onceProgram : Program := (load tableHeaders [] (tableAst [.default])).get (by decide)

def onceDistribution : DistributionResult :=
  (distributeParsers (fun _ items => items) (fun _ => none) [] onceProgram.stages.logicalStages).get
    (by decide)

theorem memory_exact_once : ∃ memory,
    allocateMemory onceProgram.tables onceProgram.stages.logicalStages onceDistribution.topoSequence =
      some memory ∧ MemoryExact onceProgram.stages.logicalStages memory := by
  have placed : ∀ memory ∈ allocateMemory onceProgram.tables onceProgram.stages.logicalStages
      onceDistribution.topoSequence, ∀ stage ∈ liveStages onceProgram.stages.logicalStages,
        stage.stageId ∈ memory.physicalProcId := by decide
  exact (memory_exact_iff tableHeaders (fun _ => none) (fun _ items => items) []
    (tableAst [.default]) onceProgram onceDistribution rfl rfl placed).mpr (by decide)

def twiceProgram : Program := (load tableHeaders [] (tableAst [.exact 1, .default])).get (by decide)

def twiceDistribution : DistributionResult :=
  (distributeParsers (fun _ items => items) (fun _ => none) [] twiceProgram.stages.logicalStages).get
    (by decide)

/-- Both entries of the switch name the table. It needs one block for the keys and is given two. -/
theorem memory_exact_twice : ∃ memory,
    allocateMemory twiceProgram.tables twiceProgram.stages.logicalStages twiceDistribution.topoSequence =
        some memory ∧
      (∀ stage ∈ liveStages twiceProgram.stages.logicalStages, stage.stageId ∈ memory.physicalProcId) ∧
      ¬ MemoryExact twiceProgram.stages.logicalStages memory := by
  obtain ⟨memory, allocated⟩ := Option.isSome_iff_exists.mp (by decide : (allocateMemory twiceProgram.tables
    twiceProgram.stages.logicalStages twiceDistribution.topoSequence).isSome)
  have facts : ∀ memory ∈ allocateMemory twiceProgram.tables twiceProgram.stages.logicalStages
      twiceDistribution.topoSequence,
      (∀ stage ∈ liveStages twiceProgram.stages.logicalStages, stage.stageId ∈ memory.physicalProcId) ∧
        ∀ table ∈ memory.tables.lookupId 0,
          table.keyMemory.size = some 1 ∧ table.keyMemory.config = [0, 2] := by decide
  obtain ⟨placed, wide⟩ := facts memory allocated
  refine ⟨memory, allocated, placed, fun exact => ?_⟩
  obtain ⟨stage, live, listed⟩ : ∃ stage ∈ liveStages twiceProgram.stages.logicalStages, 0 ∈
      stage.tableId := by
    decide
  obtain ⟨table, found, size, _⟩ := exact.sizes stage live 0 listed
  obtain ⟨needed, given⟩ := wide table found
  rw [needed, given] at size
  cases size

end Ipbm.Compiler
