import Ipbm.Compiler.Compilation
import Ipbm.Compiler.IncrementalProperties
import Ipbm.Lib.Pointwise

/-! When an incremental update is sound. A table of the previous program keeps its
blocks whatever it needs now, a processor without a stage is not marked, and all
SRAM blocks that a cluster gives to new tables are the same block, which is struck
out of the TCAM blocks. -/

set_option autoImplicit false

namespace Ipbm.Compiler
open Lib Dataplane IpsaConfiguration Memory
open Distribution (liveStages)

namespace TableManager

theorem load_names {headers : HeaderLookup} {actions : ActionManager} {ast : Ast} {tables : TableManager}
    (loaded : load headers actions ast = some tables) : (tables.map Prod.fst).Nodup := by
  refine foldlM_preserves (fun tables : TableManager => (tables.map Prod.fst).Nodup) ?_ loaded List.nodup_nil
  rintro state ⟨tableDef, position⟩ after _ old step
  obtain ⟨table, _, step⟩ := Option.bind_eq_some_iff.mp step
  obtain rfl := Option.some.inj step
  split
  · exact old
  · next missing =>
      rw [List.map_append]
      refine List.nodup_append.mpr ⟨old, List.nodup_singleton _, ?_⟩
      rintro name member _ single rfl
      cases List.mem_singleton.mp single
      obtain ⟨entry, isEntry, same⟩ := List.mem_map.mp member
      rw [lookupName, Option.isSome_map, List.find?_isSome] at missing
      exact missing ⟨entry, isEntry, by simpa using same⟩

theorem lookupName_of_mem {tables : TableManager} (names : (tables.map Prod.fst).Nodup)
    {name : String} {table : Table} (member : (name, table) ∈ tables) :
    tables.lookupName name = some table := by
  rw [lookupName, find?_of_key names member]
  rfl

end TableManager

theorem load_tableNames {headers : HeaderLookup} {levels : List Level} {ast : Ast} {program : Program}
    (done : load headers levels ast = some program) : (program.tables.map Prod.fst).Nodup := by
  obtain ⟨actions, tables, loaded, same⟩ := declared_load done
  have names : ∀ tables : TableManager, tables.map Prod.fst = (tables.map declaredEntry).map Prod.fst := by
    intro tables
    rw [List.map_map]
    rfl
  rw [names, same, ← names]
  exact TableManager.load_names loaded

/-! ### Soundness -/

/-- As many blocks as a declaration asks for, all different. -/
structure Table.HasBlocks (declared table : Table) : Prop where
  key : declared.keyMemory.size = some (table.keyMemory.config.length : Int)
  value : declared.valueMemory.size = some (table.valueMemory.config.length : Int)
  sram : table.sramBlocks.Nodup
  tcam : table.tcamBlocks.Nodup

/-- Numbers of blocks that are not below zero and do not overflow. -/
def Table.Countable (table : Table) : Prop :=
  table.keyMemory.size = some (table.keyMemory.given : Int) ∧
    table.valueMemory.size = some (table.valueMemory.given : Int)

instance (table : Table) : Decidable (Table.Countable table) := inferInstanceAs (Decidable (_ ∧ _))

namespace Incremental

/-- The stages are on processors of one cluster. -/
def SameCluster (physicalProcId : List (Option Int)) (first second : Int) : Prop :=
  ∃ firstAt secondAt : Nat, physicalProcId[firstAt]? = some (some first) ∧
    physicalProcId[secondAt]? = some (some second) ∧ firstAt / clusterProcCount = secondAt / clusterProcCount

structure Sound (prev : TableManager) (program : Program) (result : IncrementalResult) : Prop where
  kept : ∀ entry ∈ program.tables, ∀ old, prev.lookupName entry.1 = some old → ∃ table,
    result.tables.lookupName entry.1 = some table ∧ entry.2.HasBlocks table ∧
      ∃ index : Nat, result.physicalProcId[index]? = some (some table.procId) ∧
        ((index / clusterProcCount : Nat) : Int) = clusterOf old
  added : ∀ entry ∈ program.tables, prev.lookupName entry.1 = none → ∃ table,
    result.tables.lookupName entry.1 = some table ∧ entry.2.HasBlocks table ∧
      ∀ other ∈ result.tables, other.1 ≠ entry.1 →
        SameCluster result.physicalProcId table.procId other.2.procId →
        table.sramBlocks.Disjoint other.2.sramBlocks ∧ table.tcamBlocks.Disjoint other.2.tcamBlocks
  stages : ∀ stage ∈ liveStages program.stages.logicalStages,
    ∃! index : Nat, result.physicalProcId[index]? = some (some stage.stageId)
  unused : ∀ index < procCount, (∀ stage ∈ liveStages program.stages.logicalStages,
    result.physicalProcId[index]? ≠
      some (some stage.stageId)) → result.physicalProcId[index]? = some (some (-1))

/-! ### What a sound update needs -/

/-- The cluster of a stage is that of a table it has from the previous program. -/
def stageCluster (prev tables : TableManager) (stageId : Int) : Option Int :=
  tables.findSome? fun entry => if entry.2.procId = stageId then
    (prev.lookupName entry.1).map clusterOf else none

/-- The tables of a cluster that stay, as they are declared and as they were. -/
def keptIn (prev tables : TableManager) (cluster : Nat) : List (Table × Table) :=
  tables.filterMap fun entry =>
    ((prev.lookupName entry.1).filter fun old => clusterOf old = cluster).map fun old => (entry.2, old)

/-- The new tables of the stages of a cluster, by name. -/
def newIn (prev tables : TableManager) (cluster : Nat) : List Table :=
  ((byName tables).filter fun entry =>
    prev.lookupName entry.1 = none ∧
      stageCluster prev tables entry.2.procId = some (cluster : Int)).map Prod.snd

/-- The blocks that the tables that stay do not have. -/
def freeBlocks (count : Nat) (pick : Table → List Int) (kept : List (Table × Table)) : List Int :=
  strike (kept.flatMap fun pair => pick pair.2) ((List.range count).map Int.ofNat)

def freeTcam (kept : List (Table × Table)) : List Int := freeBlocks clusterTcamCount Table.tcamBlocks kept

/-- The only SRAM block that new tables are given. -/
def sramBlock (kept : List (Table × Table)) : Option Int :=
  (freeBlocks clusterSramCount Table.sramBlocks kept).head?

def sramNeed (tables : List Table) : Nat := (tables.map fun table => table.given.sram).sum

def tcamNeed (tables : List Table) : Nat := (tables.map fun table => table.given.tcam).sum

/-- The tables up to the first one that is given SRAM. -/
def early (tables : List Table) : List Table :=
  tables.take (tables.findIdx (fun table => 0 < table.given.sram) + 1)

/-- The TCAM blocks in the order they are given, without the one that has the number of an SRAM
block given before. -/
def supply (free : List Int) (block : Option Int) (tables : List Table) : List Int :=
  free.take (tcamNeed (early tables)) ++ without block (free.drop (tcamNeed (early tables)))

/-- New tables find their blocks beside tables that stay: one SRAM block at most, which no table
holds that has moved its keys to SRAM, and TCAM blocks that no table holds that has moved its keys
to TCAM. -/
structure FitBeside (kept : List (Table × Table)) (new : List Table) : Prop where
  sizes : ∀ table ∈ new, table.Countable
  sram : sramNeed new ≤ 1
  block : sramNeed new = 1 → ∃ block ∈ sramBlock kept, ∀ pair ∈ kept,
    pair.1.keyMemory.type = .sram → block ∉ pair.2.keyMemory.config
  tcam : tcamNeed new ≤ (supply (freeTcam kept) (sramBlock kept) new).length
  apart : ∀ pair ∈ kept, pair.1.keyMemory.type = .tcam →
    ∀ block ∈ (supply (freeTcam kept) (sramBlock kept) new).take (tcamNeed new),
      block ∉ pair.2.keyMemory.config

instance (kept : List (Table × Table)) (new : List Table) : Decidable (FitBeside kept new) :=
  decidable_of_iff ((∀ table ∈ new, table.Countable) ∧ sramNeed new ≤ 1 ∧
      (sramNeed new = 1 → ∃ block ∈ sramBlock kept, ∀ pair ∈ kept,
        pair.1.keyMemory.type = .sram → block ∉ pair.2.keyMemory.config) ∧
      tcamNeed new ≤ (supply (freeTcam kept) (sramBlock kept) new).length ∧
      ∀ pair ∈ kept, pair.1.keyMemory.type = .tcam →
        ∀ block ∈ (supply (freeTcam kept) (sramBlock kept) new).take (tcamNeed new),
        block ∉ pair.2.keyMemory.config)
    ⟨fun ⟨sizes, sram, block, tcam, apart⟩ => ⟨sizes, sram, block, tcam, apart⟩,
      fun fit => ⟨fit.sizes, fit.sram, fit.block, fit.tcam, fit.apart⟩⟩

/-- A table that stays has the blocks it is declared with now, whatever kind its keys were. -/
def Stays (declared old : Table) : Prop :=
  declared.HasBlocks { old with keyMemory.type := declared.keyMemory.type }

/-! ### New tables of a cluster -/

section

variable {free : List Int} {block : Option Int}

private theorem fill_add (block : Option Int) (first second : Nat) :
    fill block first ++ fill block second = fill block (first + second) := by
  cases block with
  | none => rfl
  | some number => exact List.replicate_append_replicate

private theorem length_fill (block : Option Int) (count : Nat) :
    (fill block count).length = count ↔ count = 0 ∨ block.isSome := by
  cases block with
  | none => simp [fill, eq_comm]
  | some number => simp [fill]

private theorem length_fill_le (block : Option Int) (count : Nat) : (fill block count).length ≤ count := by
  cases block <;> simp [fill]

private theorem nodup_fill (block : Option Int) (count : Nat) :
    (fill block count).Nodup ↔ count ≤ 1 ∨ block = none := by
  cases block with
  | none => simp [fill]
  | some number => simp [fill, List.nodup_replicate]

private theorem mem_fill {number : Int} {count : Nat} :
    number ∈ fill block count ↔ count ≠ 0 ∧ block = some number := by
  cases block with
  | none => simp [fill]
  | some other => simp [fill, List.mem_replicate, eq_comm]

private theorem disjoint_fill {first second : Nat} :
    (fill block first).Disjoint (fill block second) ↔ first = 0 ∨ second = 0 ∨ block = none := by
  constructor
  · intro apart
    by_contra meet
    push Not at meet
    obtain ⟨number, isBlock⟩ := Option.ne_none_iff_exists'.mp meet.2.2
    exact apart (mem_fill.mpr ⟨meet.1, isBlock⟩) (mem_fill.mpr ⟨meet.2.1, isBlock⟩)
  · rintro none number member other
    have here := mem_fill.mp member
    have there := mem_fill.mp other
    rcases none with none | none | none
    · exact here.1 none
    · exact there.1 none
    · cases none.symm.trans here.2

private theorem stored_blocks {table : Table} (key : table.keyMemory.config = [])
    (value : table.valueMemory.config = []) :
    (stored free block table).sramBlocks = fill block table.given.sram ∧
      (stored free block table).tcamBlocks = free.take table.given.tcam := by
  cases type : table.keyMemory.type with
  | tcam =>
      simp [stored, addConfig, Table.sramBlocks, Table.tcamBlocks, Table.given_tcam type, type, key, value]
  | sram =>
      simp [stored, addConfig, Table.sramBlocks, Table.tcamBlocks, Table.given_sram type, type, key,
        value, fill_add]

private theorem given_of_size {memory : TableMemory} {length : Nat} (size : memory.size = some (length : Int))
    (few : length ≤ memory.given) : memory.given = length := by
  have known : memory.given = (wrapInt length).toNat := by
    rw [TableMemory.given, TableMemory.blockCount, size, Option.map_some, Option.getD_some]
  have bounds := wrapInt_bounds length
  rcases Nat.lt_or_ge length (2 ^ 31) with low | high
  · rw [known, wrapInt_of_small (by omega) (by omega), Int.toNat_natCast]
  · omega

private theorem stored_hasBlocks_iff (nodup : free.Nodup) {table : Table} (key : table.keyMemory.config = [])
    (value : table.valueMemory.config = []) :
    table.HasBlocks (stored free block table) ↔ table.Countable ∧ table.given.sram ≤ 1 ∧
      (table.given.sram = 0 ∨ block.isSome) ∧ table.given.tcam ≤ free.length := by
  obtain ⟨sram, tcam⟩ := @stored_blocks free block table key value
  have keyConfig : (stored free block table).keyMemory.config =
      if table.keyMemory.type = .tcam then free.take table.keyMemory.given
          else fill block table.keyMemory.given := by
    simp [stored, addConfig, key]
  have valueConfig : (stored free block table).valueMemory.config = fill block table.valueMemory.given := by
    simp [stored, addConfig, value]
  have valueLe := valueConfig ▸ length_fill_le block table.valueMemory.given
  have keyLe : (stored free block table).keyMemory.config.length ≤ table.keyMemory.given := by
    rw [keyConfig]
    split
    · rw [List.length_take]
      omega
    · exact length_fill_le _ _
  have lengths : ((stored free block table).keyMemory.config.length = table.keyMemory.given ∧
      (stored free block table).valueMemory.config.length = table.valueMemory.given) ↔
        (table.given.sram = 0 ∨ block.isSome) ∧ table.given.tcam ≤ free.length := by
    rw [keyConfig, valueConfig, length_fill]
    cases type : table.keyMemory.type with
    | tcam =>
        rw [if_pos rfl, Table.given_tcam type, List.length_take, and_comm]
        exact and_congr Iff.rfl min_eq_left_iff
    | sram =>
        rw [if_neg (by simp), Table.given_sram type, length_fill]
        simp only [Nat.add_eq_zero_iff, Nat.zero_le, and_true]
        tauto
  constructor
  · intro has
    have isKey := given_of_size has.key keyLe
    have isValue := given_of_size has.value valueLe
    obtain ⟨held, enough⟩ := lengths.mp ⟨isKey.symm, isValue.symm⟩
    refine ⟨⟨isKey ▸ has.key, isValue ▸ has.value⟩, ?_, held, enough⟩
    have distinct := has.sram
    rw [sram, nodup_fill] at distinct
    rcases distinct with few | none
    · exact few
    · rcases held with zero | some
      · omega
      · rw [none] at some
        cases some
  · rintro ⟨⟨keySize, valueSize⟩, few, held, enough⟩
    obtain ⟨isKey, isValue⟩ := lengths.mpr ⟨held, enough⟩
    refine ⟨isKey ▸ keySize, isValue ▸ valueSize, ?_, ?_⟩
    · rw [sram, nodup_fill]
      exact .inl few
    · rw [tcam]
      exact nodup.sublist (List.take_sublist ..)

private theorem without_of_without (free : List Int) (count : Nat) :
    without block ((without block free).drop count) = (without block free).drop count := by
  refine List.filter_eq_self.mpr fun number member => ?_
  exact (List.mem_filter.mp (List.mem_of_mem_drop member)).2

private theorem supply_cons (free : List Int) (block : Option Int) (table : Table) (rest : List Table) :
    supply free block (table :: rest) =
      free.take table.given.tcam ++ supply (left free block table) block rest := by
  unfold supply left
  by_cases none : table.given.sram = 0
  · have next : tcamNeed (early (table :: rest)) = table.given.tcam + tcamNeed (early rest) := by
      simp [early, tcamNeed, List.findIdx_cons, none]
    rw [next, if_pos none, List.take_add, List.drop_drop, List.append_assoc]
  · have first : tcamNeed (early (table :: rest)) = table.given.tcam := by
      have some : 0 < table.given.sram := Nat.pos_of_ne_zero none
      simp [early, tcamNeed, List.findIdx_cons, some]
    rw [first, if_neg none, without_of_without, List.take_append_drop]

private theorem mem_supply {tables : List Table} {number : Int}
    (member : number ∈ supply free block tables) : number ∈ free := by
  rcases List.mem_append.mp member with early | late
  · exact List.mem_of_mem_take early
  · exact List.mem_of_mem_drop (List.mem_filter.mp late).1

private theorem supply_of_nil (block : Option Int) (tables : List Table) : supply [] block tables = [] := by
  simp [supply, without]

private theorem left_sublist (free : List Int) (block : Option Int) (table : Table) :
    (left free block table).Sublist (free.drop table.given.tcam) := by
  unfold left
  split
  · exact List.Sublist.refl _
  · exact List.filter_sublist

private theorem take_supply_cons (free : List Int) (block : Option Int) (table : Table) (rest : List Table)
    (count : Nat) : (supply free block (table :: rest)).take (table.given.tcam + count) =
      free.take table.given.tcam ++ (supply (left free block table) block rest).take count := by
  rw [supply_cons]
  rcases Nat.le_total table.given.tcam free.length with enough | short
  · rw [List.take_append, List.length_take, Nat.min_eq_left enough, Nat.add_sub_cancel_left,
      List.take_of_length_le (by rw [List.length_take]; omega)]
  · have nothing : left free block table = [] := by
      have part := left_sublist free block table
      rw [List.drop_of_length_le short] at part
      exact List.sublist_nil.mp part
    rw [nothing, supply_of_nil, List.take_nil, List.append_nil, List.take_of_length_le]
    rw [List.length_take]
    omega

private theorem length_supply_cons (free : List Int) (block : Option Int) (table : Table) (rest : List Table)
    (count : Nat) : table.given.tcam + count ≤ (supply free block (table :: rest)).length ↔
      table.given.tcam ≤ free.length ∧ count ≤ (supply (left free block table) block rest).length := by
  rw [supply_cons, List.length_append, List.length_take]
  rcases Nat.le_total table.given.tcam free.length with enough | short
  · rw [Nat.min_eq_left enough]
    omega
  · have part := (left_sublist free block table)
    rw [List.drop_of_length_le short] at part
    rw [List.sublist_nil.mp part, supply_of_nil, List.length_nil]
    omega

/-- Tables without blocks. -/
private def Empty (tables : TableManager) : Prop :=
  ∀ entry ∈ tables, entry.2.keyMemory.config = [] ∧ entry.2.valueMemory.config = []

private theorem storedAll_blocks {tables : TableManager} (empty : Empty tables) :
    ((storedAll free block tables).flatMap fun entry => entry.2.sramBlocks) =
        fill block (sramNeed (tables.map Prod.snd)) ∧
      ((storedAll free block tables).flatMap fun entry => entry.2.tcamBlocks) =
        (supply free block (tables.map Prod.snd)).take (tcamNeed (tables.map Prod.snd)) := by
  induction tables generalizing free with
  | nil => exact ⟨(fill_zero block).symm, rfl⟩
  | cons entry rest ih =>
      obtain ⟨key, value⟩ := empty entry List.mem_cons_self
      obtain ⟨restSram, restTcam⟩ := @ih (left free block entry.2) fun other member =>
        empty other (List.mem_cons_of_mem _ member)
      obtain ⟨sram, tcam⟩ := @stored_blocks free block entry.2 key value
      rw [storedAll, List.flatMap_cons, List.flatMap_cons, restSram, restTcam, List.map_cons]
      constructor
      · change (stored free block entry.2).sramBlocks ++ _ = _
        rw [sram, fill_add]
        rfl
      · change (stored free block entry.2).tcamBlocks ++ _ = _
        rw [tcam]
        exact (take_supply_cons free block entry.2 (rest.map Prod.snd) _).symm

private def Apart (first second : String × Table) : Prop :=
  first.2.sramBlocks.Disjoint second.2.sramBlocks ∧ first.2.tcamBlocks.Disjoint second.2.tcamBlocks

private theorem disjoint_flatMap {items : List Int} {tables : TableManager} {pick : Table → List Int} :
    (∀ entry ∈ tables, items.Disjoint (pick entry.2)) ↔
      items.Disjoint (tables.flatMap fun entry => pick entry.2) := by
  constructor
  · intro each number member other
    obtain ⟨entry, inside, here⟩ := List.mem_flatMap.mp other
    exact each entry inside member here
  · intro apart entry inside number member here
    exact apart member (List.mem_flatMap.mpr ⟨entry, inside, here⟩)

private theorem disjoint_flatMap_left {items : List Int} {tables : TableManager} {pick : Table → List Int} :
    (∀ entry ∈ tables, (pick entry.2).Disjoint items) ↔
      (tables.flatMap fun entry => pick entry.2).Disjoint items := by
  rw [List.disjoint_comm, ← disjoint_flatMap]
  exact forall₂_congr fun _ _ => List.disjoint_comm

/-- New tables have their blocks, and have them alone, when one SRAM block is enough and there are
TCAM blocks for all. -/
private theorem storedAll_iff (nodup : free.Nodup) {tables : TableManager} (empty : Empty tables) :
    (List.Forall₂ (fun entry result => entry.2.HasBlocks result.2) tables (storedAll free block tables) ∧
        (storedAll free block tables).Pairwise Apart) ↔
      (∀ table ∈ tables.map Prod.snd, table.Countable) ∧ sramNeed (tables.map Prod.snd) ≤ 1 ∧
        (sramNeed (tables.map Prod.snd) = 0 ∨ block.isSome) ∧
        tcamNeed (tables.map Prod.snd) ≤ (supply free block (tables.map Prod.snd)).length := by
  induction tables generalizing free with
  | nil => simp [storedAll, sramNeed, tcamNeed]
  | cons entry rest ih =>
      obtain ⟨key, value⟩ := empty entry List.mem_cons_self
      have others : Empty rest := fun other member => empty other (List.mem_cons_of_mem _ member)
      have part := left_sublist free block entry.2
      have tail : (left free block entry.2).Nodup := nodup.sublist (part.trans (List.drop_sublist ..))
      obtain ⟨sram, tcam⟩ := @stored_blocks free block entry.2 key value
      obtain ⟨restSram, restTcam⟩ := @storedAll_blocks (left free block entry.2) block rest others
      have apart : (∀ other ∈ storedAll (left free block entry.2) block rest,
          Apart (entry.1, stored free block entry.2) other) ↔
            entry.2.given.sram = 0 ∨ sramNeed (rest.map Prod.snd) = 0 ∨ block = none := by
        have tcamApart : (stored free block entry.2).tcamBlocks.Disjoint
            ((storedAll (left free block entry.2) block rest).flatMap fun entry => entry.2.tcamBlocks) := by
          rw [tcam, restTcam]
          intro number front back
          have behind : number ∈ free.drop entry.2.given.tcam := by
            exact part.subset (mem_supply (List.mem_of_mem_take back))
          exact List.disjoint_take_drop nodup le_rfl front behind
        unfold Apart
        simp only [forall_and]
        rw [disjoint_flatMap, disjoint_flatMap, and_iff_left tcamApart, sram, restSram, disjoint_fill]
      have sums : sramNeed ((entry :: rest).map Prod.snd) = entry.2.given.sram + sramNeed
        (rest.map Prod.snd) ∧
          tcamNeed ((entry :: rest).map Prod.snd) = entry.2.given.tcam + tcamNeed
            (rest.map Prod.snd) := ⟨rfl, rfl⟩
      have both := @ih (left free block entry.2) tail others
      have room := length_supply_cons free block entry.2 (rest.map Prod.snd) (tcamNeed (rest.map Prod.snd))
      rw [storedAll, List.forall₂_cons, List.pairwise_cons, apart,
        stored_hasBlocks_iff nodup key value, sums.1, sums.2]
      simp only [List.map_cons, List.forall_mem_cons]
      rw [room]
      constructor
      · rintro ⟨⟨⟨countable, few, held, enough⟩, restHas⟩, separate, restApart⟩
        obtain ⟨restCountable, restFew, restHeld, restEnough⟩ := both.mp ⟨restHas, restApart⟩
        refine ⟨⟨countable, restCountable⟩, ?_, ?_, enough, restEnough⟩
        · rcases separate with zero | zero | none
          · omega
          · omega
          · rw [none] at held restHeld
            simp only [Option.isSome_none, Bool.false_eq_true, or_false] at held restHeld
            omega
        · rcases held with zero | some
          · rcases restHeld with restZero | some
            · exact .inl (by omega)
            · exact .inr some
          · exact .inr some
      · rintro ⟨⟨countable, restCountable⟩, few, held, enough, restEnough⟩
        have restHeld : sramNeed (rest.map Prod.snd) = 0 ∨ block.isSome := held.imp_left fun zero => by omega
        obtain ⟨restHas, restApart⟩ := both.mpr ⟨restCountable, by omega, restHeld, restEnough⟩
        exact ⟨⟨⟨countable, by omega, held.imp_left fun zero => by omega, enough⟩,
          restHas⟩, by omega, restApart⟩

end

private theorem storedAll_entries (free : List Int) (block : Option Int) (tables : TableManager) :
    List.Forall₂ (fun entry result => result.1 = entry.1 ∧ result.2.procId = entry.2.procId) tables
      (storedAll free block tables) := by
  induction tables generalizing free with
  | nil => exact .nil
  | cons entry rest ih => exact .cons ⟨rfl, rfl⟩ (ih _)

/-! ### New tables beside those that stay -/

/-- The table that stays, with its old blocks. -/
def keptTable (pair : Table × Table) : Table :=
  addConfig pair.1 pair.2.keyMemory.config pair.2.valueMemory.config

private theorem keptTable_configs {pair : Table × Table} (key : pair.1.keyMemory.config = [])
    (value : pair.1.valueMemory.config = []) : (keptTable pair).keyMemory.config = pair.2.keyMemory.config ∧
      (keptTable pair).valueMemory.config = pair.2.valueMemory.config := by
  simp [keptTable, addConfig, key, value]

private theorem stays_iff {pair : Table × Table} (key : pair.1.keyMemory.config = [])
    (value : pair.1.valueMemory.config = []) : pair.1.HasBlocks (keptTable pair) ↔ Stays pair.1 pair.2 := by
  obtain ⟨sameKey, sameValue⟩ := keptTable_configs key value
  have type : (keptTable pair).keyMemory.type = pair.1.keyMemory.type := rfl
  have sram : (keptTable pair).sramBlocks =
      Table.sramBlocks { pair.2 with keyMemory.type := pair.1.keyMemory.type } := by
    simp only [Table.sramBlocks, sameKey, sameValue, type]
  have tcam : (keptTable pair).tcamBlocks =
      Table.tcamBlocks { pair.2 with keyMemory.type := pair.1.keyMemory.type } := by
    simp only [Table.tcamBlocks, sameKey, type]
  unfold Stays
  constructor
  · rintro ⟨isKey, isValue, isSram, isTcam⟩
    exact ⟨sameKey ▸ isKey, sameValue ▸ isValue, sram ▸ isSram, tcam ▸ isTcam⟩
  · rintro ⟨isKey, isValue, isSram, isTcam⟩
    exact ⟨by rw [sameKey]; exact isKey, by rw [sameValue]; exact isValue, by rw [sram]; exact isSram,
      by rw [tcam]; exact isTcam⟩

private theorem not_mem_of_free {count : Nat} {pick : Table → List Int}
    {kept : List (Table × Table)} {number : Int}
    (free : number ∈ freeBlocks count pick kept) : ∀ pair ∈ kept, number ∉ pick pair.2 := by
  intro pair isPair inside
  have absent := of_decide_eq_true (List.mem_filter.mp free).2
  exact absent (List.mem_flatMap.mpr ⟨pair, isPair, inside⟩)

private theorem sram_disjoint_iff {kept : List (Table × Table)} {pair : Table × Table} (isPair : pair ∈ kept)
    (key : pair.1.keyMemory.config = []) (value : pair.1.valueMemory.config = []) (count : Nat) :
    (fill (sramBlock kept) count).Disjoint (keptTable pair).sramBlocks ↔
      ∀ block ∈ fill (sramBlock kept) count, pair.1.keyMemory.type = .sram →
        block ∉ pair.2.keyMemory.config := by
  obtain ⟨sameKey, sameValue⟩ := keptTable_configs key value
  have blocks : (keptTable pair).sramBlocks =
      (if pair.1.keyMemory.type = .sram then pair.2.keyMemory.config else []) ++
          pair.2.valueMemory.config := by
    rw [Table.sramBlocks, sameKey, sameValue]
    rfl
  rw [blocks, List.disjoint_append_right, and_iff_left]
  · refine forall₂_congr fun block _ => ?_
    split
    · next sram => simp [sram]
    · next other => simp [other]
  · intro block given inside
    have free := List.mem_of_mem_head? (mem_fill.mp given).2
    refine not_mem_of_free free pair isPair ?_
    exact List.mem_append_right _ inside

private theorem tcam_disjoint_iff {pair : Table × Table} (key : pair.1.keyMemory.config = [])
    (value : pair.1.valueMemory.config = []) (blocks : List Int) :
    blocks.Disjoint (keptTable pair).tcamBlocks ↔
      (pair.1.keyMemory.type = .tcam → ∀ block ∈ blocks, block ∉ pair.2.keyMemory.config) := by
  have same : (keptTable pair).tcamBlocks =
      if pair.1.keyMemory.type = .tcam then pair.2.keyMemory.config else [] := by
    rw [Table.tcamBlocks, (keptTable_configs key value).1]
    rfl
  rw [same]
  split
  · next tcam => simp [tcam, List.Disjoint]
  · next other => simp [other]

private theorem fitBeside_iff {kept : List (Table × Table)} {tables : TableManager} (empty : Empty tables)
    (blank : ∀ pair ∈ kept, pair.1.keyMemory.config = [] ∧ pair.1.valueMemory.config = []) :
    ((List.Forall₂ (fun entry result => entry.2.HasBlocks result.2) tables
          (storedAll (freeTcam kept) (sramBlock kept) tables) ∧
        (storedAll (freeTcam kept) (sramBlock kept) tables).Pairwise Apart) ∧
      ∀ pair ∈ kept, ∀ result ∈ storedAll (freeTcam kept) (sramBlock kept) tables,
        result.2.sramBlocks.Disjoint (keptTable pair).sramBlocks ∧
          result.2.tcamBlocks.Disjoint (keptTable pair).tcamBlocks) ↔
            FitBeside kept (tables.map Prod.snd) := by
  have nodup : (freeTcam kept).Nodup :=
    (List.nodup_range.map fun _ _ equal => Int.ofNat.inj equal).filter _
  obtain ⟨sram, tcam⟩ := @storedAll_blocks (freeTcam kept) (sramBlock kept) tables empty
  have beside : ∀ pair ∈ kept, (∀ result ∈ storedAll (freeTcam kept) (sramBlock kept) tables,
      result.2.sramBlocks.Disjoint (keptTable pair).sramBlocks ∧
        result.2.tcamBlocks.Disjoint (keptTable pair).tcamBlocks) ↔
      (∀ block ∈ fill (sramBlock kept) (sramNeed (tables.map Prod.snd)),
        pair.1.keyMemory.type = .sram → block ∉ pair.2.keyMemory.config) ∧
      (pair.1.keyMemory.type = .tcam → ∀ block ∈ (supply (freeTcam kept) (sramBlock kept)
        (tables.map Prod.snd)).take (tcamNeed (tables.map Prod.snd)), block ∉ pair.2.keyMemory.config) := by
    intro pair isPair
    obtain ⟨key, value⟩ := blank pair isPair
    rw [← sram_disjoint_iff isPair key value, ← tcam_disjoint_iff key value, ← sram, ← tcam]
    simp only [forall_and]
    exact and_congr (@disjoint_flatMap_left _ _ Table.sramBlocks)
      (@disjoint_flatMap_left _ _ Table.tcamBlocks)
  rw [storedAll_iff nodup empty, forall₂_congr beside]
  constructor
  · rintro ⟨⟨sizes, few, held, enough⟩, apart⟩
    refine ⟨sizes, few, ?_, enough, fun pair isPair => (apart pair isPair).2⟩
    intro one
    obtain ⟨block, isBlock⟩ := Option.isSome_iff_exists.mp (held.resolve_left (by omega))
    exact ⟨block, isBlock, fun pair isPair => (apart pair isPair).1 block (mem_fill.mpr ⟨by omega, isBlock⟩)⟩
  · intro fit
    refine ⟨⟨fit.sizes, fit.sram, ?_, fit.tcam⟩, fun pair isPair => ⟨?_, fit.apart pair isPair⟩⟩
    · rcases Nat.eq_zero_or_pos (sramNeed (tables.map Prod.snd)) with none | some
      · exact .inl none
      · obtain ⟨block, isBlock, _⟩ := fit.block (by have few := fit.sram; omega)
        exact .inr (Option.isSome_of_mem isBlock)
    · intro number given
      obtain ⟨some, isBlock⟩ := mem_fill.mp given
      obtain ⟨block, here, apart⟩ := fit.block (by have few := fit.sram; omega)
      cases isBlock.symm.trans here
      exact apart pair isPair

/-! ### The passes -/

/-- What the passes of an update that is not refused leave. -/
structure Updated (prev : TableManager) (program : Program) (sequence : List Int) (procCluster : Int → Int)
    (placement : Placement) (result : IncrementalResult) : Prop where
  fixed : Fixed prev sequence (byName program.tables) procCluster
  placed : FixedPlacement procCluster sequence placement
  bound : ∀ id ∈ sequence, 0 ≤ procCluster id
  names : result.tables.map Prod.fst = (byName program.tables).map Prod.fst
  old : (result.tables.filter fun entry => (prev.lookupName entry.1).isSome) =
    ((byName program.tables).map (copied prev)).filter fun entry => (prev.lookupName entry.1).isSome
  new : ∀ cluster < clusterCount, newTables prev procCluster cluster result.tables = storedAll
    (strike (keptBlocks Table.tcamBlocks prev procCluster cluster (byName program.tables))
      ((List.range clusterTcamCount).map Int.ofNat))
    (strike (keptBlocks Table.sramBlocks prev procCluster cluster (byName program.tables))
      ((List.range clusterSramCount).map Int.ofNat)).head?
    (newTables prev procCluster cluster (byName program.tables))
  processors : result.physicalProcId = placement.physicalProcId

theorem byName_perm (tables : TableManager) : (byName tables).Perm tables := List.perm_insertionSort _ _

theorem copied_name (prev : TableManager) (entry : String × Table) : (copied prev entry).1 = entry.1 := by
  unfold copied
  split <;> rfl

theorem copied_of_none {prev : TableManager} {entry : String × Table}
    (missing : prev.lookupName entry.1 = none) :
    copied prev entry = entry := by
  unfold copied
  rw [missing]

theorem copied_of_some {prev : TableManager} {entry : String × Table} {old : Table}
    (found : prev.lookupName entry.1 = some old) :
    copied prev entry = (entry.1, addConfig entry.2 old.keyMemory.config old.valueMemory.config) := by
  unfold copied
  rw [found]

private theorem newTables_copied (prev : TableManager) (procCluster : Int → Int) (cluster : Nat)
    (tables : TableManager) :
    newTables prev procCluster cluster (tables.map (copied prev)) =
      newTables prev procCluster cluster tables := by
  induction tables with
  | nil => rfl
  | cons entry rest ih =>
      unfold newTables at ih ⊢
      rw [List.map_cons, List.filter_cons, List.filter_cons, ih, copied_name]
      cases found : prev.lookupName entry.1 with
      | none => rw [copied_of_none found]
      | some old => simp

private theorem forM_ok {procCluster : Int → Int} {sequence : List Int} {result : Unit}
    (run : sequence.forM (placeDynamic procCluster) = .ok result) : ∀ id ∈ sequence, 0 ≤ procCluster id := by
  induction sequence with
  | nil => simp
  | cons first rest ih =>
      obtain ⟨_, step, run⟩ := bind_eq_ok run
      unfold placeDynamic at step
      split at step
      · cases step
      · next nonneg =>
          intro id member
          rcases List.mem_cons.mp member with rfl | member
          · exact Int.not_lt.mp nonneg
          · exact ih run id member

theorem allocateMemory_updated {prev : TableManager} {program : Program} {sequence : List Int}
    {result : IncrementalResult} (clusters : ∀ name old, prev.lookupName name = some old → 0 ≤ clusterOf old)
    (ordinary : ∀ id ∈ sequence, 0 ≤ id) (nodup : sequence.Nodup)
    (returned : allocateMemory prev program.tables program.stages.logicalStages sequence = .ok result) :
    ∃ procCluster placement, Updated prev program sequence procCluster placement result := by
  unfold allocateMemory at returned
  split at returned
  · cases returned
  · obtain ⟨procCluster, fix, returned⟩ := bind_eq_ok returned
    obtain ⟨placement, place, returned⟩ := bind_eq_ok returned
    obtain ⟨_, dynamic, returned⟩ := bind_eq_ok returned
    obtain ⟨⟨copies, bitmaps⟩, existing, returned⟩ := bind_eq_ok returned
    obtain ⟨⟨tables, after⟩, other, returned⟩ := bind_eq_ok returned
    cases returned
    obtain ⟨rfl, struck⟩ := visit_existing existing
    obtain ⟨old, names, new⟩ := visit_other other
    have copyNames : ((byName program.tables).map (copied prev)).map Prod.fst =
        (byName program.tables).map Prod.fst := by
      rw [List.map_map]
      exact List.map_congr_left fun entry _ => copied_name prev entry
    refine ⟨procCluster, placement, fixed_of_run clusters fix, placed_of_run ordinary nodup place,
      forM_ok dynamic, names.trans copyNames, old, ?_, rfl⟩
    intro cluster inside
    obtain ⟨bitmap, here, tcam, sram⟩ := struck cluster emptyBitmap (by simp [inside])
    rw [emptyBitmap, freePositions_replicate] at tcam sram
    rw [new cluster bitmap here, tcam, sram, newTables_copied]

section

variable {prev : TableManager} {program : Program} {sequence : List Int} {procCluster : Int → Int}
  {placement : Placement} {result : IncrementalResult}

theorem Updated.filled_at (updated : Updated prev program sequence procCluster placement result)
    {index : Nat} {id : Int} (here : result.physicalProcId[index]? = some (some id)) :
    placement.filled.physicalProcId[index]? = some id := by
  rw [updated.processors] at here
  simp [Placement.filled, here]

theorem Updated.mem_physicalProcId (updated : Updated prev program sequence procCluster placement result)
    {id : Int} : some id ∈ result.physicalProcId ↔ id ∈ sequence := by
  rw [updated.processors, ← List.reduceOption_mem_iff, updated.placed.cells.mem_iff, List.mem_filter]
  exact ⟨And.left, fun member => ⟨member, decide_eq_true (updated.bound id member)⟩⟩

/-- Every stage is on a processor of its cluster. -/
theorem Updated.index (updated : Updated prev program sequence procCluster placement result)
    (ordinary : ∀ id ∈ sequence, 0 ≤ id) {id : Int} (member : id ∈ sequence) :
    ∃ index : Nat, result.physicalProcId[index]? = some (some id) ∧
      ((index / clusterProcCount : Nat) : Int) = procCluster id := by
  obtain ⟨index, here⟩ := List.mem_iff_getElem?.mp (updated.mem_physicalProcId.mpr member)
  refine ⟨index, here, ?_⟩
  have own :=
    List.mem_of_getElem? (updated.placed.placed.cluster (ordinary id member) (updated.filled_at here)).2
  have bound := updated.bound id member
  have same := updated.placed.placed.unique _ _ id own (updated.placed.cluster id member bound).2
  rw [same, Int.toNat_of_nonneg bound]

theorem Updated.once (updated : Updated prev program sequence procCluster placement result)
    (ordinary : ∀ id ∈ sequence, 0 ≤ id) {first second : Nat} {id : Int}
    (firstAt : result.physicalProcId[first]? = some (some id))
    (secondAt : result.physicalProcId[second]? = some (some id)) : first = second := by
  have member := updated.mem_physicalProcId.mp (List.mem_of_getElem? firstAt)
  exact updated.placed.placed.once (ordinary id member) (updated.filled_at firstAt)
    (updated.filled_at secondAt)

theorem Updated.sameCluster_iff (updated : Updated prev program sequence procCluster placement result)
    (ordinary : ∀ id ∈ sequence, 0 ≤ id) {first second : Int} (isFirst : first ∈ sequence)
    (isSecond : second ∈ sequence) :
    SameCluster result.physicalProcId first second ↔ procCluster first = procCluster second := by
  obtain ⟨firstAt, firstHere, firstCluster⟩ := updated.index ordinary isFirst
  obtain ⟨secondAt, secondHere, secondCluster⟩ := updated.index ordinary isSecond
  constructor
  · rintro ⟨one, two, oneHere, twoHere, same⟩
    rw [updated.once ordinary oneHere firstHere, updated.once ordinary twoHere secondHere] at same
    rw [← firstCluster, ← secondCluster, same]
  · intro same
    refine ⟨firstAt, secondAt, firstHere, secondHere, ?_⟩
    rw [← firstCluster, ← secondCluster] at same
    exact Int.ofNat.inj same

/-- The processors are as they should be exactly if no processor is left without a stage. -/
theorem Updated.processors_iff (updated : Updated prev program sequence procCluster placement result)
    (ordinary : ∀ id ∈ sequence, 0 ≤ id) (nodup : sequence.Nodup)
    (order : ∀ id, id ∈ sequence ↔ id ∈ (liveStages program.stages.logicalStages).map Stage.stageId)
    (unique : ((liveStages program.stages.logicalStages).map Stage.stageId).Nodup) :
    ((∀ stage ∈ liveStages program.stages.logicalStages,
        ∃! index : Nat, result.physicalProcId[index]? = some (some stage.stageId)) ∧
      ∀ index < procCount, (∀ stage ∈ liveStages program.stages.logicalStages,
        result.physicalProcId[index]? ≠ some (some stage.stageId)) →
          result.physicalProcId[index]? = some (some (-1))) ↔
      (liveStages program.stages.logicalStages).length = procCount := by
  have count : result.physicalProcId.reduceOption.length =
      (liveStages program.stages.logicalStages).length := by
    have all : sequence.filter (fun id => 0 ≤ procCluster id) = sequence :=
      List.filter_eq_self.mpr fun id member => decide_eq_true (updated.bound id member)
    rw [updated.processors, updated.placed.cells.length_eq, all,
      ((List.perm_ext_iff_of_nodup nodup unique).mpr order).length_eq, List.length_map]
  have length : result.physicalProcId.length = procCount := by
    have filled := updated.placed.placed.length
    rw [updated.processors]
    simpa [Placement.filled] using filled
  rw [← count, ← length, List.reduceOption_length_eq_iff]
  constructor
  · rintro ⟨_, unused⟩ cell member
    obtain ⟨index, here⟩ := List.mem_iff_getElem?.mp member
    cases cell with
    | some id => rfl
    | none =>
        have marked := unused index (List.getElem?_eq_some_iff.mp here).1 fun stage _ stageHere => by
          cases here.symm.trans stageHere
        cases here.symm.trans marked
  · intro all
    refine ⟨?_, ?_⟩
    · intro stage live
      obtain ⟨index, here, _⟩ := updated.index ordinary ((order _).mpr (List.mem_map_of_mem live))
      exact ⟨index, here, fun other otherHere => updated.once ordinary otherHere here⟩
    · intro index inside none
      have here := List.getElem?_eq_getElem inside
      obtain ⟨id, isId⟩ := Option.isSome_iff_exists.mp (all _ (List.mem_of_getElem? here))
      rw [isId] at here
      have member := updated.mem_physicalProcId.mp (List.mem_of_getElem? here)
      obtain ⟨stage, live, rfl⟩ := List.mem_map.mp ((order id).mp member)
      exact absurd here (none stage live)

/-! ### Tables of a cluster -/

theorem Updated.result_names (updated : Updated prev program sequence procCluster placement result)
    (names : (program.tables.map Prod.fst).Nodup) : (result.tables.map Prod.fst).Nodup := by
  rw [updated.names]
  exact ((byName_perm program.tables).map Prod.fst).nodup_iff.mpr names

/-- A table of the previous program has the blocks it had. -/
theorem Updated.kept_table (updated : Updated prev program sequence procCluster placement result)
    (names : (program.tables.map Prod.fst).Nodup) {entry : String × Table} (member : entry ∈ program.tables)
    {old : Table} (found : prev.lookupName entry.1 = some old) :
    result.tables.lookupName entry.1 =
      some (addConfig entry.2 old.keyMemory.config old.valueMemory.config) := by
  refine TableManager.lookupName_of_mem (updated.result_names names) ?_
  have here : copied prev entry ∈ ((byName program.tables).map (copied prev)).filter
      fun entry => (prev.lookupName entry.1).isSome := by
    refine List.mem_filter.mpr ⟨List.mem_map_of_mem ((byName_perm _).mem_iff.mpr member), ?_⟩
    rw [copied_name, found]
    rfl
  rw [← updated.old, copied_of_some found] at here
  exact (List.mem_filter.mp here).1

/-- The cluster of a stage can be read off its tables. -/
theorem Updated.stageCluster_eq
    (updated : Updated prev program sequence procCluster placement result) {id : Int}
    (member : id ∈ sequence) : stageCluster prev program.tables id = some (procCluster id) := by
  have perm := byName_perm program.tables
  cases found : stageCluster prev program.tables id with
  | some cluster =>
      obtain ⟨entry, isEntry, here⟩ := List.exists_of_findSome?_eq_some found
      split at here
      · next same =>
          obtain ⟨old, isOld, rfl⟩ := Option.map_eq_some_iff.mp here
          rw [← same, updated.fixed.bound entry (perm.mem_iff.mpr isEntry) old isOld]
      · cases here
  | none =>
      rcases updated.fixed.source id with initial | ⟨entry, isEntry, old, isOld, same, _⟩
      · have bound := updated.bound id member
        rw [initial, initialCluster, if_pos member] at bound
        cases bound
      · have none := List.findSome?_eq_none_iff.mp found entry (perm.mem_iff.mp isEntry)
        rw [if_pos same, isOld] at none
        cases none

theorem Updated.mem_keptIn (updated : Updated prev program sequence procCluster placement result)
    {cluster : Nat} {pair : Table × Table} :
    pair ∈ keptIn prev program.tables cluster ↔ ∃ entry ∈ program.tables,
      procCluster entry.2.procId = cluster ∧ prev.lookupName entry.1 = some pair.2 ∧ entry.2 = pair.1 := by
  have bound := fun entry (isEntry : entry ∈ program.tables) =>
    updated.fixed.bound entry ((byName_perm _).mem_iff.mpr isEntry)
  unfold keptIn
  rw [List.mem_filterMap]
  refine exists_congr fun entry => and_congr_right fun isEntry => ?_
  cases found : prev.lookupName entry.1 with
  | none => simp
  | some old =>
      rw [bound entry isEntry old found]
      have same : (entry.2, old) = pair ↔ old = pair.2 ∧ entry.2 = pair.1 := Prod.ext_iff.trans and_comm
      by_cases here : clusterOf old = cluster
      · simpa [here] using same
      · simp [here]

/-- The blocks that are free are those that no table which stays has. -/
theorem Updated.freeBlocks_eq (updated : Updated prev program sequence procCluster placement result)
    (cluster count : Nat) (pick : Table → List Int) :
    strike (keptBlocks pick prev procCluster cluster (byName program.tables))
      ((List.range count).map Int.ofNat) =
      freeBlocks count pick (keptIn prev program.tables cluster) := by
  refine List.filter_congr fun number _ => decide_eq_decide.mpr (not_congr ?_)
  unfold keptBlocks
  rw [List.mem_flatMap, List.mem_flatMap]
  constructor
  · rintro ⟨entry, isEntry, inside⟩
    split at inside
    · next here =>
        cases found : prev.lookupName entry.1 with
        | none =>
            rw [found] at inside
            cases inside
        | some old =>
            rw [found] at inside
            exact ⟨(entry.2, old), updated.mem_keptIn.mpr
              ⟨entry, (byName_perm _).mem_iff.mp isEntry, here, found, rfl⟩, inside⟩
    · cases inside
  · rintro ⟨pair, isPair, inside⟩
    obtain ⟨entry, isEntry, here, found, _⟩ := updated.mem_keptIn.mp isPair
    refine ⟨entry, (byName_perm _).mem_iff.mpr isEntry, ?_⟩
    rw [if_pos here, found]
    exact inside

theorem Updated.newIn_eq (updated : Updated prev program sequence procCluster placement result)
    (listed : ∀ entry ∈ program.tables, entry.2.procId ∈ sequence) (cluster : Nat) :
    newIn prev program.tables cluster =
      (newTables prev procCluster cluster (byName program.tables)).map Prod.snd := by
  unfold newIn newTables
  congr 1
  refine List.filter_congr fun entry member => decide_eq_decide.mpr (and_congr_right fun _ => ?_)
  rw [updated.stageCluster_eq (listed entry ((byName_perm _).mem_iff.mp member)), Option.some_inj]

theorem Updated.new_eq (updated : Updated prev program sequence procCluster placement result) {cluster : Nat}
    (inside : cluster < clusterCount) : newTables prev procCluster cluster result.tables =
      storedAll (freeTcam (keptIn prev program.tables cluster)) (sramBlock
        (keptIn prev program.tables cluster))
        (newTables prev procCluster cluster (byName program.tables)) := by
  rw [updated.new cluster inside, updated.freeBlocks_eq, updated.freeBlocks_eq]
  rfl

/-- Every new table is among those of its cluster. -/
theorem Updated.new_table (updated : Updated prev program sequence procCluster placement result)
    (listed : ∀ entry ∈ program.tables, entry.2.procId ∈ sequence) {entry : String × Table}
    (member : entry ∈ program.tables) (missing : prev.lookupName entry.1 = none) :
    ∃ cluster < clusterCount, procCluster entry.2.procId = (cluster : Int) ∧
      entry ∈ newTables prev procCluster cluster (byName program.tables) := by
  have inside := listed entry member
  have nonneg := updated.bound _ inside
  have isCluster : procCluster entry.2.procId = ((procCluster entry.2.procId).toNat : Int) :=
    (Int.toNat_of_nonneg nonneg).symm
  refine ⟨_, (updated.placed.cluster _ inside nonneg).1, isCluster, ?_⟩
  exact List.mem_filter.mpr ⟨(byName_perm _).mem_iff.mpr member, decide_eq_true ⟨missing, isCluster⟩⟩

theorem Updated.result_table (updated : Updated prev program sequence procCluster placement result)
    (names : (program.tables.map Prod.fst).Nodup)
    (listed : ∀ entry ∈ program.tables, entry.2.procId ∈ sequence)
    {other : String × Table} (member : other ∈ result.tables) :
    ∃ entry ∈ program.tables, entry.1 = other.1 ∧ other.2.procId = entry.2.procId := by
  have name := List.mem_map_of_mem (f := Prod.fst) member
  rw [updated.names, ((byName_perm program.tables).map Prod.fst).mem_iff] at name
  obtain ⟨entry, isEntry, same⟩ := List.mem_map.mp name
  have found : result.tables.lookupName entry.1 = some other.2 :=
    TableManager.lookupName_of_mem (updated.result_names names) (same ▸ member)
  refine ⟨entry, isEntry, same, ?_⟩
  cases isOld : prev.lookupName entry.1 with
  | some old =>
      have same := Option.some.inj (found.symm.trans (updated.kept_table names isEntry isOld))
      rw [same]
      rfl
  | none =>
      obtain ⟨cluster, inside, _, isNew⟩ := updated.new_table listed isEntry isOld
      obtain ⟨stored, isStored, sameName, sameProc⟩ := forall₂_mem_left (storedAll_entries _ _ _) isNew
      rw [← updated.new_eq inside] at isStored
      have here := TableManager.lookupName_of_mem (updated.result_names names) (List.mem_filter.mp isStored).1
      rw [sameName] at here
      rw [Option.some.inj (found.symm.trans here)]
      exact sameProc

/-- The new tables of every cluster fit beside the tables that stay. -/
theorem Updated.added_iff (updated : Updated prev program sequence procCluster placement result)
    (blank : ∀ entry ∈ program.tables, entry.2.keyMemory.config = [] ∧ entry.2.valueMemory.config = [])
    (names : (program.tables.map Prod.fst).Nodup) (ordinary : ∀ id ∈ sequence, 0 ≤ id)
    (listed : ∀ entry ∈ program.tables, entry.2.procId ∈ sequence) :
    (∀ entry ∈ program.tables, prev.lookupName entry.1 = none → ∃ table,
      result.tables.lookupName entry.1 = some table ∧ entry.2.HasBlocks table ∧
        ∀ other ∈ result.tables, other.1 ≠ entry.1 →
          SameCluster result.physicalProcId table.procId other.2.procId →
          table.sramBlocks.Disjoint other.2.sramBlocks ∧ table.tcamBlocks.Disjoint other.2.tcamBlocks) ↔
      ∀ cluster < clusterCount,
        FitBeside (keptIn prev program.tables cluster) (newIn prev program.tables cluster) := by
  have perm := byName_perm program.tables
  have isTable :=
    fun cluster entry (member : entry ∈ newTables prev procCluster cluster (byName program.tables)) =>
    perm.mem_iff.mp (List.mem_filter.mp member).1
  have find := fun {name : String} {table : Table} (member : (name, table) ∈ result.tables) =>
    TableManager.lookupName_of_mem (updated.result_names names) member
  have shared : ∀ first ∈ result.tables, ∀ second ∈ result.tables,
      SameCluster result.physicalProcId first.2.procId second.2.procId ↔
        procCluster first.2.procId = procCluster second.2.procId := by
    intro first isFirst second isSecond
    obtain ⟨one, isOne, _, sameOne⟩ := updated.result_table names listed isFirst
    obtain ⟨two, isTwo, _, sameTwo⟩ := updated.result_table names listed isSecond
    rw [sameOne, sameTwo]
    exact updated.sameCluster_iff ordinary (listed one isOne) (listed two isTwo)
  have alone : ∀ cluster < clusterCount,
      FitBeside (keptIn prev program.tables cluster) (newIn prev program.tables cluster) ↔
        (List.Forall₂ (fun entry result => entry.2.HasBlocks result.2)
            (newTables prev procCluster cluster (byName program.tables))
            (newTables prev procCluster cluster result.tables) ∧
          (newTables prev procCluster cluster result.tables).Pairwise Apart) ∧
        ∀ pair ∈ keptIn prev program.tables cluster, ∀ new ∈ newTables prev procCluster cluster result.tables,
          new.2.sramBlocks.Disjoint (keptTable pair).sramBlocks ∧
            new.2.tcamBlocks.Disjoint (keptTable pair).tcamBlocks := by
    intro cluster inside
    rw [updated.newIn_eq listed, updated.new_eq inside]
    refine (fitBeside_iff (fun entry member => blank entry (isTable cluster entry member)) ?_).symm
    intro pair isPair
    obtain ⟨entry, isEntry, _, _, same⟩ := updated.mem_keptIn.mp isPair
    exact same ▸ blank entry isEntry
  rw [forall₂_congr alone]
  constructor
  · intro added cluster inside
    have entries := storedAll_entries (freeTcam (keptIn prev program.tables cluster))
      (sramBlock (keptIn prev program.tables cluster))
      (newTables prev procCluster cluster (byName program.tables))
    rw [← updated.new_eq inside] at entries
    have each : ∀ new ∈ newTables prev procCluster cluster result.tables, ∀ other ∈ result.tables,
      other.1 ≠ new.1 →
        procCluster new.2.procId = procCluster other.2.procId →
          new.2.sramBlocks.Disjoint other.2.sramBlocks ∧ new.2.tcamBlocks.Disjoint other.2.tcamBlocks := by
      intro new isNew other isOther apart same
      obtain ⟨isResult, missing⟩ := List.mem_filter.mp isNew
      obtain ⟨entry, isEntry, sameName, _⟩ := updated.result_table names listed isResult
      obtain ⟨table, found, _, disjoint⟩ := added entry isEntry (sameName ▸ (of_decide_eq_true missing).1)
      rw [sameName] at found disjoint
      cases (find isResult).symm.trans found
      exact disjoint other isOther apart ((shared new isResult other isOther).mpr same)
    refine ⟨⟨?_, ?_⟩, ?_⟩
    · refine List.forall₂_iff_zip.mpr ⟨entries.length_eq, fun {entry new} both => ?_⟩
      obtain ⟨isEntry, isNew⟩ := List.of_mem_zip both
      obtain ⟨table, found, blocks, _⟩ := added entry (isTable cluster entry isEntry)
        (of_decide_eq_true (List.mem_filter.mp isEntry).2).1
      rw [← (List.forall₂_zip entries both).1] at found
      cases (find (List.mem_filter.mp isNew).1).symm.trans found
      exact blocks
    · have distinct : (newTables prev procCluster cluster result.tables).Pairwise fun first second =>
          first.1 ≠ second.1 :=
        List.pairwise_map.mp ((updated.result_names names).sublist (List.filter_sublist.map _))
      refine distinct.imp_of_mem fun {first second} isFirst isSecond apart => ?_
      have sameCluster := fun new (isNew : new ∈ newTables prev procCluster cluster result.tables) =>
        (of_decide_eq_true (List.mem_filter.mp isNew).2).2
      exact each first isFirst second (List.mem_filter.mp isSecond).1 apart.symm
        ((sameCluster first isFirst).trans (sameCluster second isSecond).symm)
    · intro pair isPair new isNew
      obtain ⟨entry, isEntry, here, isOld, same⟩ := updated.mem_keptIn.mp isPair
      have kept := lookupName_mem (updated.kept_table names isEntry isOld)
      obtain ⟨missing, there⟩ := of_decide_eq_true (List.mem_filter.mp isNew).2
      rw [keptTable, ← same]
      refine each new isNew _ kept ?_ (there.trans here.symm)
      rintro same
      rw [← same, isOld] at missing
      cases missing
  · intro all entry isEntry missing
    obtain ⟨cluster, inside, here, isNew⟩ := updated.new_table listed isEntry missing
    obtain ⟨⟨has, apart⟩, beside⟩ := all cluster inside
    have entries := storedAll_entries (freeTcam (keptIn prev program.tables cluster))
      (sramBlock (keptIn prev program.tables cluster))
      (newTables prev procCluster cluster (byName program.tables))
    rw [← updated.new_eq inside] at entries
    have both : List.Forall₂ (fun entry result : String × Table =>
      entry.2.HasBlocks result.2 ∧ result.1 = entry.1 ∧
        result.2.procId = entry.2.procId) _ _ := has.mp (fun _ _ first second => ⟨first, second⟩) entries
    obtain ⟨⟨name, table⟩, isStored, blocks, rfl, sameProc⟩ := forall₂_mem_left both isNew
    have isResult := (List.mem_filter.mp isStored).1
    refine ⟨table, find isResult, blocks, ?_⟩
    intro other isOther different same
    have sameCluster := (shared _ isResult other isOther).mp same
    cases isOld : prev.lookupName other.1 with
    | none =>
        have isOtherNew : other ∈ newTables prev procCluster cluster result.tables :=
          List.mem_filter.mpr ⟨isOther, decide_eq_true ⟨isOld, by rw [← sameCluster, sameProc, here]⟩⟩
        have symm : Std.Symm Apart := ⟨fun _ _ disjoint => ⟨disjoint.1.symm, disjoint.2.symm⟩⟩
        refine apart.forall isStored isOtherNew ?_
        rintro rfl
        exact different rfl
    | some old =>
        obtain ⟨source, isSource, sameName, sourceProc⟩ := updated.result_table names listed isOther
        rw [← sameName] at isOld
        have kept := updated.kept_table names isSource isOld
        rw [sameName] at kept
        rw [Option.some.inj ((find isOther).symm.trans kept)]
        exact beside (source.2, old) (updated.mem_keptIn.mpr ⟨source, isSource,
          by rw [← sourceProc, ← sameCluster, sameProc, here], isOld, rfl⟩) _ isStored

theorem Updated.kept_iff (updated : Updated prev program sequence procCluster placement result)
    (blank : ∀ entry ∈ program.tables, entry.2.keyMemory.config = [] ∧ entry.2.valueMemory.config = [])
    (names : (program.tables.map Prod.fst).Nodup) (ordinary : ∀ id ∈ sequence, 0 ≤ id)
    (listed : ∀ entry ∈ program.tables, entry.2.procId ∈ sequence) :
    (∀ entry ∈ program.tables, ∀ old, prev.lookupName entry.1 = some old → ∃ table,
      result.tables.lookupName entry.1 = some table ∧ entry.2.HasBlocks table ∧
        ∃ index : Nat, result.physicalProcId[index]? = some (some table.procId) ∧
          ((index / clusterProcCount : Nat) : Int) = clusterOf old) ↔
      ∀ entry ∈ program.tables, ∀ old, prev.lookupName entry.1 = some old → Stays entry.2 old := by
  refine forall₂_congr fun entry member => forall₂_congr fun old found => ?_
  obtain ⟨key, value⟩ := blank entry member
  have here := updated.kept_table names member found
  have stays := @stays_iff (entry.2, old) key value
  constructor
  · rintro ⟨table, isTable, blocks, _⟩
    rw [Option.some.inj (isTable.symm.trans here)] at blocks
    exact stays.mp blocks
  · intro enough
    obtain ⟨index, at_, cluster⟩ := updated.index ordinary (listed entry member)
    refine ⟨_, here, stays.mpr enough, index, at_, cluster.trans ?_⟩
    exact updated.fixed.bound entry ((byName_perm _).mem_iff.mpr member) old found

end

end Incremental

open Incremental

/-- The tables of a builder have processors of its own, or none. -/
theorem clusterOf_nonneg {program : Program} {distribution : DistributionResult}
    {memory : MemoryResult} {prev : Ipsa}
    (built : allocateProcessors program distribution memory = some prev) {name : String} {old : Table}
    (found : prev.tables.lookupName name = some old) : 0 ≤ clusterOf old := by
  obtain ⟨processors, _, built⟩ := Option.bind_eq_some_iff.mp built
  cases built
  obtain ⟨entry, _, same⟩ := List.mem_map.mp (lookupName_mem found)
  cases same
  change 0 ≤ Int.tdiv ((Builder.procProc processors entry.2.procId).getD 0) clusterProcCount
  cases isProc : Builder.procProc processors entry.2.procId with
  | none => decide
  | some value =>
      obtain ⟨_, rfl⟩ | ⟨index, _, _, _, rfl⟩ := Builder.procProc_cases isProc
      · decide
      · exact Int.tdiv_nonneg (Int.natCast_nonneg index) (by decide)

/-- An update that is not refused is sound exactly if the stages fill all processors, every table of
the previous program has the blocks it is declared with now, and the new tables of a cluster fit
beside those that stay. -/
theorem incremental_sound_iff (headers : HeaderLookup) (getHeader : String → Option Int)
    (sort : (Int → Int → Bool) → List Int → List Int) (levels : List Level) (ast : Ast) (program : Program)
    (distribution : DistributionResult) (done : load headers levels ast = some program)
    (distributed : distributeParsers sort getHeader levels program.stages.logicalStages = some distribution)
    (prevProgram : Program) (prevDistribution : DistributionResult) (prevMemory : MemoryResult) (prev : Ipsa)
    (built : allocateProcessors prevProgram prevDistribution prevMemory = some prev)
    (result : IncrementalResult)
    (returned : Incremental.allocateMemory prev.tables program.tables program.stages.logicalStages
      distribution.topoSequence = .ok result) :
    Sound prev.tables program result ↔
      (liveStages program.stages.logicalStages).length = procCount ∧
        (∀ entry ∈ program.tables, ∀ old, prev.tables.lookupName entry.1 = some old → Stays entry.2 old) ∧
        ∀ cluster < clusterCount,
          FitBeside (keptIn prev.tables program.tables cluster)
            (newIn prev.tables program.tables cluster) := by
  have loaded := load_loaded done
  have names := load_tableNames done
  obtain ⟨_, nodup, order⟩ := distributeParsers_order loaded distributed
  have ordinary : ∀ id ∈ distribution.topoSequence, 0 ≤ id := by
    intro id member
    obtain ⟨stage, live, rfl⟩ := List.mem_map.mp ((order id).mp member)
    exact loaded.ordinary stage live
  have blank : ∀ entry ∈ program.tables, entry.2.keyMemory.config = [] ∧ entry.2.valueMemory.config = [] :=
    fun entry member => ⟨(loaded.memories entry member).key, (loaded.memories entry member).value⟩
  obtain ⟨procCluster, placement, updated⟩ :=
    allocateMemory_updated (fun _ _ => clusterOf_nonneg built) ordinary nodup returned
  have processors := updated.processors_iff ordinary nodup order loaded.unique
  -- With a stage at all, a table that no stage lists is one of the first stage.
  have listed : (liveStages program.stages.logicalStages).length = procCount →
      ∀ entry ∈ program.tables, entry.2.procId ∈ distribution.topoSequence := by
    intro full entry member
    obtain ⟨low, high⟩ := loaded.procIds (full ▸ by decide) entry member
    rw [order, loaded.numbered.live]
    refine List.mem_map.mpr ⟨entry.2.procId.toNat, List.mem_range.mpr (by omega), ?_⟩
    exact Int.toNat_of_nonneg low
  constructor
  · intro sound
    have full := processors.mp ⟨sound.stages, sound.unused⟩
    exact ⟨full, (updated.kept_iff blank names ordinary (listed full)).mp sound.kept,
      (updated.added_iff blank names ordinary (listed full)).mp sound.added⟩
  · rintro ⟨full, stay, fit⟩
    obtain ⟨stages, unused⟩ := processors.mpr full
    exact ⟨(updated.kept_iff blank names ordinary (listed full)).mpr stay,
      (updated.added_iff blank names ordinary (listed full)).mpr fit, stages, unused⟩

def tableOf (name : String) (matchType : MatchType) : TableDef where
  name := name
  keys := [(.field "hdr" "h" "f", matchType)]
  optionalStmts := [.size 1024, .valueWidth 16]

def stageOf (name : String) (tables : List String) : StageDef where
  name := name
  parser := []
  matcher := ⟨[.literal 1], tables.map fun table => ⟨.default, .table table⟩⟩
  executor := []

/-- Stages with a table each, the last of them with another table. -/
def stagesAst (names others : List String) (last : String) : Ast where
  actions := []
  tables := (names ++ [last]).map (tableOf · .exact) ++ others.map (tableOf · .ternary)
  ingress := (names.map fun name => stageOf name [name]) ++ [stageOf last (last :: others)]
  egress := []

def fullAst (others : List String) : Ast :=
  stagesAst ["a", "b", "c", "d", "e", "f", "g", "h", "i", "j", "k", "l", "m", "n", "o"] others "p"

def fullProgram (others : List String) : Option Program := load tableHeaders [] (fullAst others)

/-- A full compile, with what the builder is made of. -/
def fullCompile (program : Program) : Option (DistributionResult × MemoryResult × Ipsa) := do
  let distribution ← distributeParsers (fun _ items => items) (fun _ => none) [] program.stages.logicalStages
  let memory ← allocateMemory program.tables program.stages.logicalStages distribution.topoSequence
  let ipsa ← allocateProcessors program distribution memory
  return (distribution, memory, ipsa)

theorem allocateProcessors_fullCompile {program : Program}
    {compiled : DistributionResult × MemoryResult × Ipsa}
    (done : fullCompile program = some compiled) :
    allocateProcessors program compiled.1 compiled.2.1 = some compiled.2.2 := by
  obtain ⟨distribution, _, done⟩ := Option.bind_eq_some_iff.mp done
  obtain ⟨memory, _, done⟩ := Option.bind_eq_some_iff.mp done
  obtain ⟨ipsa, built, done⟩ := Option.bind_eq_some_iff.mp done
  cases done
  exact built

def firstProgram : Program := (fullProgram []).get (by decide)

def firstCompile : DistributionResult × MemoryResult × Ipsa :=
  (fullCompile firstProgram).get (by decide +kernel)

def firstTables : TableManager := firstCompile.2.2.tables

def grownProgram : Program := (fullProgram ["q"]).get (by decide)

def grownDistribution : DistributionResult :=
  (distributeParsers (fun _ items => items) (fun _ => none) [] grownProgram.stages.logicalStages).get
    (by decide)

def grownResult : IncrementalResult :=
  match Incremental.allocateMemory firstTables grownProgram.tables grownProgram.stages.logicalStages
    grownDistribution.topoSequence with
  | .ok result => result
  | .error _ => ⟨[], []⟩

instance (declared table : Table) : Decidable (declared.HasBlocks table) :=
  decidable_of_iff (declared.keyMemory.size = some (table.keyMemory.config.length : Int) ∧
      declared.valueMemory.size = some (table.valueMemory.config.length : Int) ∧ table.sramBlocks.Nodup ∧
      table.tcamBlocks.Nodup)
    ⟨fun ⟨key, value, sram, tcam⟩ => ⟨key, value, sram, tcam⟩,
      fun blocks => ⟨blocks.key, blocks.value, blocks.sram, blocks.tcam⟩⟩

instance (declared old : Table) : Decidable (Stays declared old) :=
  inferInstanceAs (Decidable (declared.HasBlocks { old with keyMemory.type := declared.keyMemory.type }))

/-- The second program has a table more, in a stage of the last cluster. -/
theorem incremental_sound_grown : Sound firstTables grownProgram grownResult := by
  have done : load tableHeaders [] (fullAst ["q"]) = some grownProgram := (Option.some_get _).symm
  have distributed : distributeParsers (fun _ items => items)
    (fun _ => none) [] grownProgram.stages.logicalStages =
      some grownDistribution := (Option.some_get _).symm
  have built : allocateProcessors firstProgram firstCompile.1 firstCompile.2.1 = some firstCompile.2.2 :=
    allocateProcessors_fullCompile (Option.some_get _).symm
  have returned : Incremental.allocateMemory firstTables grownProgram.tables grownProgram.stages.logicalStages
      grownDistribution.topoSequence = .ok grownResult := by
    have isOk : (Incremental.allocateMemory firstTables grownProgram.tables grownProgram.stages.logicalStages
      grownDistribution.topoSequence).isOk := by decide +kernel
    unfold grownResult
    split
    · next same => exact same
    · next failed => rw [failed] at isOk; cases isOk
  have stay : ∀ entry ∈ grownProgram.tables, ∀ old ∈ firstTables.lookupName entry.1, Stays entry.2 old := by
    decide +kernel
  have fit : ∀ cluster < clusterCount,
      FitBeside (keptIn firstTables grownProgram.tables cluster)
          (newIn firstTables grownProgram.tables cluster) := by
    decide +kernel
  exact (incremental_sound_iff _ _ _ _ _ _ _ done distributed _ _ _ _ built _ returned).mpr
    ⟨by decide, stay, fit⟩

def onceCompile : DistributionResult × MemoryResult × Ipsa := (fullCompile onceProgram).get (by decide)

def onceTables : TableManager := onceCompile.2.2.tables

/-- The program is compiled a second time. It uses one processor, and the others are not marked. -/
theorem incremental_unmarked :
    allocateProcessors onceProgram onceCompile.1 onceCompile.2.1 = some onceCompile.2.2 ∧
    ∃ result, Incremental.allocateMemory onceTables onceProgram.tables onceProgram.stages.logicalStages
        onceDistribution.topoSequence = .ok result ∧
      ¬ Sound onceTables onceProgram result := by
  refine ⟨allocateProcessors_fullCompile (Option.some_get _).symm, ?_⟩
  have returned : (Incremental.allocateMemory onceTables onceProgram.tables onceProgram.stages.logicalStages
      onceDistribution.topoSequence).map IncrementalResult.physicalProcId =
        .ok (some 0 :: List.replicate 15 none) := by decide +kernel
  cases run : Incremental.allocateMemory onceTables onceProgram.tables onceProgram.stages.logicalStages
      onceDistribution.topoSequence with
  | error failure =>
      rw [run] at returned
      cases returned
  | ok result =>
      rw [run] at returned
      have cells : result.physicalProcId = some 0 :: List.replicate 15 none := Except.ok.inj returned
      refine ⟨result, rfl, fun sound => ?_⟩
      have unmarked := sound.unused 1 (by decide)
      rw [cells] at unmarked
      cases unmarked fun stage _ here => by cases here

end Ipbm.Compiler
