import Ipbm.Compiler.Incremental
import Ipbm.Compiler.Blocks
import Ipbm.Lib.FreePositions
import Mathlib.Data.List.ReduceOption

/-! What an incremental update leaves behind when it is not refused: the clusters of
the stages, their processors, and the blocks of the tables. -/

set_option autoImplicit false

namespace Ipbm.Compiler
open Lib IpsaConfiguration Memory
open Distribution (liveStages)

namespace Incremental

/-! ### Clusters -/

/-- A stage with a table of the previous program is in the cluster of that table. -/
structure Fixed (prev : TableManager) (sequence : List Int) (done : TableManager)
    (procCluster : Int → Int) : Prop where
  bound : ∀ entry ∈ done, ∀ old, prev.lookupName entry.1 = some old →
    procCluster entry.2.procId = clusterOf old
  source : ∀ id, procCluster id = initialCluster sequence id ∨
    ∃ entry ∈ done, ∃ old, prev.lookupName entry.1 = some old ∧ entry.2.procId = id ∧
      procCluster id = clusterOf old

private theorem fixCluster_cases {prev : TableManager} {procCluster after : Int → Int}
    {entry : String × Table} (step : fixCluster prev procCluster entry = .ok after) :
    (after = procCluster ∧ ∀ old, prev.lookupName entry.1 = some old →
      procCluster entry.2.procId = clusterOf old) ∨
      ∃ old, prev.lookupName entry.1 = some old ∧ ¬ 0 ≤ procCluster entry.2.procId ∧
        after = Function.update procCluster entry.2.procId (clusterOf old) := by
  unfold fixCluster at step
  split at step
  · next fresh =>
      cases step
      refine .inl ⟨rfl, fun old found => ?_⟩
      cases fresh.symm.trans found
  · next prevTable found =>
      split at step
      · split at step
        · next same =>
            cases step
            refine .inl ⟨rfl, fun old isOld => ?_⟩
            cases found.symm.trans isOld
            exact same
        · cases step
      · next free =>
          cases step
          exact .inr ⟨prevTable, found, free, rfl⟩

section Fixed

variable {prev : TableManager} {sequence : List Int} {done : TableManager} {procCluster : Int →
  Int} {entry : String × Table}

private theorem Fixed.source_concat (fixed : Fixed prev sequence done procCluster) (id : Int) :
    procCluster id = initialCluster sequence id ∨
      ∃ other ∈ done ++ [entry], ∃ old, prev.lookupName other.1 = some old ∧
      other.2.procId = id ∧ procCluster id = clusterOf old := by
  refine (fixed.source id).imp_right ?_
  rintro ⟨other, member, rest⟩
  exact ⟨other, List.mem_append_left _ member, rest⟩

private theorem Fixed.keep (fixed : Fixed prev sequence done procCluster)
    (agrees : ∀ old, prev.lookupName entry.1 = some old → procCluster entry.2.procId = clusterOf old) :
    Fixed prev sequence (done ++ [entry]) procCluster := by
  refine ⟨?_, fixed.source_concat⟩
  intro other member table isTable
  rcases List.mem_append.mp member with before | new
  · exact fixed.bound other before table isTable
  · cases List.mem_singleton.mp new
    exact agrees table isTable

private theorem Fixed.assign (procs : ∀ name old, prev.lookupName name = some old → 0 ≤ clusterOf old)
    (fixed : Fixed prev sequence done procCluster) {old : Table} (found : prev.lookupName entry.1 = some old)
    (free : ¬ 0 ≤ procCluster entry.2.procId) :
    Fixed prev sequence (done ++ [entry]) (Function.update procCluster entry.2.procId (clusterOf old)) := by
  refine ⟨?_, ?_⟩
  · intro other member table isTable
    rcases List.mem_append.mp member with before | new
    · have bound := fixed.bound other before table isTable
      have different : other.2.procId ≠ entry.2.procId := by
        intro same
        rw [← same, bound] at free
        exact free (procs other.1 table isTable)
      rw [Function.update_of_ne different, bound]
    · cases List.mem_singleton.mp new
      cases found.symm.trans isTable
      rw [Function.update_self]
  · intro id
    by_cases here : id = entry.2.procId
    · subst here
      exact .inr ⟨entry, by simp, old, found, rfl, Function.update_self _ _ _⟩
    · rw [Function.update_of_ne here]
      exact fixed.source_concat id

end Fixed

theorem fixed_of_run {prev : TableManager} {sequence : List Int} {tables : TableManager}
    {procCluster : Int → Int} (procs : ∀ name old, prev.lookupName name = some old → 0 ≤ clusterOf old)
    (run : tables.foldlM (fixCluster prev) (initialCluster sequence) = .ok procCluster) :
    Fixed prev sequence tables procCluster := by
  refine foldlM_ok (Fixed prev sequence) ?_ run ⟨by simp, fun id => .inl rfl⟩
  intro done entry state after _ fixed step
  obtain ⟨rfl, agrees⟩ | ⟨old, found, free, rfl⟩ := fixCluster_cases step
  · exact fixed.keep agrees
  · exact fixed.assign procs found free

/-! ### Processors -/

/-- The placement with -1 where nothing was written. -/
def Placement.filled (placement : Placement) : Memory.Placement where
  clusterSpace := placement.clusterSpace
  clusterProc := placement.clusterProc
  physicalProcId := placement.physicalProcId.map fun cell => cell.getD (-1)

structure FixedPlacement (procCluster : Int → Int) (done : List Int) (placement : Placement) : Prop where
  placed : PlacementOf done placement.filled
  cluster : ∀ id ∈ done, 0 ≤ procCluster id →
    (procCluster id).toNat < clusterCount ∧ id ∈ placement.clusterProc.getD (procCluster id).toNat []
  cells : placement.physicalProcId.reduceOption.Perm (done.filter fun id => 0 ≤ procCluster id)

private theorem reduceOption_set {α : Type} {items : List (Option α)} {position : Nat} {item : α}
    (empty : items[position]? = some none) :
    (items.set position (some item)).reduceOption.Perm (item :: items.reduceOption) := by
  induction items generalizing position with
  | nil => cases empty
  | cons first rest ih =>
      cases position with
      | zero =>
          cases empty
          simp [List.reduceOption_cons_of_none]
      | succ position =>
          have later := ih empty
          cases first with
          | none => simpa [List.reduceOption_cons_of_none] using later
          | some other =>
              rw [List.set_cons_succ, List.reduceOption_cons_of_some, List.reduceOption_cons_of_some]
              exact (later.cons other).trans (List.Perm.swap item other _)

/-- A stage in the next place of a cluster. -/
def Placement.put (need : Int → Space) (placement : Placement) (cluster : Nat) (stageId : Int) :
    Placement where
  clusterSpace := placement.clusterSpace.modify cluster fun space => space.sub (need stageId)
  clusterProc := placement.clusterProc.modify cluster fun procs => procs ++ [stageId]
  physicalProcId := placement.physicalProcId.set
    (cluster * clusterProcCount + (placement.clusterProc.getD cluster []).length) (some stageId)

theorem Placement.filled_put (need : Int → Space) (placement : Placement) (cluster : Nat) (stageId : Int) :
    (placement.put need cluster stageId).filled = putStage need placement.filled cluster stageId := by
  simp [putStage, Placement.put, Placement.filled, List.map_set]

private theorem placeFixed_cases {need : Int → Space} {procCluster : Int → Int}
    {placement after : Placement} {stageId : Int}
    (step : placeFixed need procCluster placement stageId = .ok after) :
    (procCluster stageId < 0 ∧ after = placement) ∨
      ∃ cluster : Nat, procCluster stageId = cluster ∧ cluster < clusterCount ∧
        fits placement (need stageId) cluster = true ∧ after = placement.put need cluster stageId := by
  unfold placeFixed at step
  split at step
  · next negative =>
      cases step
      exact .inl ⟨negative, rfl⟩
  · next bound =>
      simp only at step
      split at step
      · cases step
      · next high =>
          split at step
          · next room =>
              cases step
              have isCluster : procCluster stageId = (procCluster stageId).toNat := by omega
              exact .inr ⟨_, isCluster, Nat.lt_of_not_le high, room, rfl⟩
          · cases step

section FixedPlacement

variable {need : Int → Space} {procCluster : Int → Int} {done : List Int} {placement : Placement}
  {stageId : Int} {cluster : Nat}

private theorem FixedPlacement.skip (old : FixedPlacement procCluster done placement)
    (negative : procCluster stageId < 0) : FixedPlacement procCluster (done ++ [stageId]) placement := by
  have none : ¬ 0 ≤ procCluster stageId := by omega
  refine ⟨old.placed.skip stageId, ?_, ?_⟩
  · intro id member bound
    rcases List.mem_append.mp member with before | new
    · exact old.cluster id before bound
    · cases List.mem_singleton.mp new
      exact absurd bound none
  · simpa [none] using old.cells

private theorem FixedPlacement.nextCell (old : FixedPlacement procCluster done placement)
    (ordinary : ∀ id ∈ done, 0 ≤ id) (inside : cluster < clusterCount)
    (short : (placement.clusterProc.getD cluster []).length < clusterProcCount) :
    placement.physicalProcId[cluster * clusterProcCount +
      (placement.clusterProc.getD cluster []).length]? = some none := by
  have cell := old.placed.cells _ inside _ short
  simp only [Placement.filled, List.getElem?_map, Option.map_eq_some_iff, List.getElem?_length,
    Option.getD_none] at cell
  obtain ⟨content, here, value⟩ := cell
  cases content with
  | none => exact here
  | some id =>
      have listed : id ∈ placement.physicalProcId.reduceOption :=
        List.reduceOption_mem_iff.mpr (List.mem_of_getElem? here)
      have low := ordinary id (List.mem_filter.mp (old.cells.mem_iff.mp listed)).1
      simp only [Option.getD_some] at value
      omega

private theorem FixedPlacement.put (old : FixedPlacement procCluster done placement)
    (ordinary : ∀ id ∈ done, 0 ≤ id) (fresh : stageId ∉ done)
    (isCluster : procCluster stageId = cluster) (inside : cluster < clusterCount)
    (room : fits placement (need stageId) cluster = true) :
    FixedPlacement procCluster (done ++ [stageId]) (placement.put need cluster stageId) := by
  have short : (placement.clusterProc.getD cluster []).length < clusterProcCount := by
    simp only [fits, Bool.and_eq_true, decide_eq_true_eq] at room
    exact room.1.1
  refine ⟨?_, ?_, ?_⟩
  · rw [Placement.filled_put]
    exact putStage_of fresh inside short old.placed
  · intro id member isBound
    have proc := fun other => getD_modify placement.clusterProc cluster other
      (fun procs => procs ++ [stageId]) [] (old.placed.procs ▸ inside)
    rcases List.mem_append.mp member with before | new
    · obtain ⟨low, here⟩ := old.cluster id before isBound
      refine ⟨low, ?_⟩
      rw [Placement.put, proc]
      split
      · next same => exact List.mem_append_left _ (same ▸ here)
      · exact here
    · cases List.mem_singleton.mp new
      have same : (procCluster stageId).toNat = cluster := by omega
      rw [same]
      refine ⟨inside, ?_⟩
      rw [Placement.put, proc, if_pos rfl]
      exact List.mem_append_right _ (List.mem_singleton_self _)
  · have nonneg : 0 ≤ procCluster stageId := isCluster ▸ Int.natCast_nonneg cluster
    rw [List.filter_append, List.filter_cons_of_pos (by simpa using nonneg), List.filter_nil]
    refine (reduceOption_set (old.nextCell ordinary inside short)).trans ?_
    exact (old.cells.cons stageId).trans (List.perm_append_singleton _ _).symm

private theorem placeFixed_placed {after : Placement} (ordinary : ∀ id ∈ done, 0 ≤ id)
    (fresh : stageId ∉ done) (old : FixedPlacement procCluster done placement)
    (step : placeFixed need procCluster placement stageId = .ok after) :
    FixedPlacement procCluster (done ++ [stageId]) after := by
  obtain ⟨negative, rfl⟩ | ⟨cluster, isCluster, inside, room, rfl⟩ := placeFixed_cases step
  · exact old.skip negative
  · exact old.put ordinary fresh isCluster inside room

end FixedPlacement

theorem placed_of_run {need : Int → Space} {procCluster : Int → Int} {sequence : List Int}
    {placement : Placement} (ordinary : ∀ id ∈ sequence, 0 ≤ id) (nodup : sequence.Nodup)
    (run : sequence.foldlM (placeFixed need procCluster) emptyPlacement = .ok placement) :
    FixedPlacement procCluster sequence placement := by
  have start : FixedPlacement procCluster [] emptyPlacement := by
    have none : emptyPlacement.physicalProcId.reduceOption = [] := by decide
    refine ⟨?_, by simp, by rw [none, List.filter_nil]⟩
    have same : emptyPlacement.filled = Memory.emptyPlacement := by decide
    rw [same]
    exact emptyPlacement_of
  refine foldlM_ok (FixedPlacement procCluster) ?_ run start
  intro done id state after front old step
  have part := nodup.sublist front.sublist
  obtain ⟨_, _, apart⟩ := List.nodup_append.mp part
  exact placeFixed_placed (fun other member => ordinary other (front.subset (List.mem_append_left _ member)))
    (fun member => apart id member id (List.mem_singleton_self _) rfl) old step

/-! ### Bits -/

/-- The positions that are left when some blocks are struck out. -/
def strike (blocks free : List Int) : List Int := free.filter (· ∉ blocks)

@[simp] theorem strike_nil (free : List Int) : strike [] free = free := by
  simp [strike]

@[simp] theorem strike_append (first second free : List Int) :
    strike (first ++ second) free = strike second (strike first free) := by
  unfold strike
  rw [List.filter_filter]
  refine List.filter_congr fun number _ => ?_
  simp [Bool.and_comm]

private theorem mark_ok {bits after : List Bool} {block : Int} (done : mark bits block = .ok after) :
    freePositions after = strike [block] (freePositions bits) := by
  unfold mark at done
  split at done
  · next bounds =>
      cases done
      obtain ⟨position, rfl⟩ := Int.eq_ofNat_of_zero_le bounds.1
      rw [Int.toNat_natCast, freePositions_set, strike]
      exact List.filter_congr fun number _ => by simp
  · cases done

private theorem markTcam_ok {bitmap after : Bitmap} {block : Int} (done : markTcam bitmap block = .ok after) :
    freePositions after.tcam = strike [block] (freePositions bitmap.tcam) ∧ after.sram = bitmap.sram := by
  obtain ⟨bits, marked, done⟩ := bind_eq_ok done
  cases done
  exact ⟨mark_ok marked, rfl⟩

private theorem markSram_ok {bitmap after : Bitmap} {block : Int} (done : markSram bitmap block = .ok after) :
    freePositions after.sram = strike [block] (freePositions bitmap.sram) ∧ after.tcam = bitmap.tcam := by
  obtain ⟨bits, marked, done⟩ := bind_eq_ok done
  cases done
  exact ⟨mark_ok marked, rfl⟩

private theorem markTcam_all {bitmap after : Bitmap} {blocks : List Int}
    (done : blocks.foldlM markTcam bitmap = .ok after) :
    freePositions after.tcam = strike blocks (freePositions bitmap.tcam) ∧ after.sram = bitmap.sram := by
  refine foldlM_ok (fun done (state : Bitmap) =>
    freePositions state.tcam = strike done (freePositions bitmap.tcam) ∧ state.sram = bitmap.sram) ?_ done
    ⟨(strike_nil _).symm, rfl⟩
  intro done block state next _ old step
  obtain ⟨struck, same⟩ := markTcam_ok step
  exact ⟨by rw [struck, old.1, strike_append], same.trans old.2⟩

private theorem markSram_all {bitmap after : Bitmap} {blocks : List Int}
    (done : blocks.foldlM markSram bitmap = .ok after) :
    freePositions after.sram = strike blocks (freePositions bitmap.sram) ∧ after.tcam = bitmap.tcam := by
  refine foldlM_ok (fun done (state : Bitmap) =>
    freePositions state.sram = strike done (freePositions bitmap.sram) ∧ state.tcam = bitmap.tcam) ?_ done
    ⟨(strike_nil _).symm, rfl⟩
  intro done block state next _ old step
  obtain ⟨struck, same⟩ := markSram_ok step
  exact ⟨by rw [struck, old.1, strike_append], same.trans old.2⟩

/-! ### One table -/

theorem copyTable_ok {old table configured : Table} {bitmap after : Bitmap}
    (done : copyTable old table bitmap = .ok (configured, after)) :
    configured = addConfig table old.keyMemory.config old.valueMemory.config ∧
      freePositions after.tcam = strike old.tcamBlocks (freePositions bitmap.tcam) ∧
      freePositions after.sram = strike old.sramBlocks (freePositions bitmap.sram) := by
  obtain ⟨middle, key, done⟩ := bind_eq_ok done
  obtain ⟨last, value, done⟩ := bind_eq_ok done
  cases done
  obtain ⟨valueStruck, sameTcam⟩ := markSram_all value
  refine ⟨rfl, ?_⟩
  rw [sameTcam, valueStruck]
  cases type : old.keyMemory.type with
  | tcam =>
      rw [if_pos type] at key
      obtain ⟨keyStruck, sameSram⟩ := markTcam_all key
      rw [keyStruck, sameSram]
      simp [Table.tcamBlocks, Table.sramBlocks, type]
  | sram =>
      rw [if_neg (by simp [type])] at key
      obtain ⟨keyStruck, sameTcam⟩ := markSram_all key
      rw [keyStruck, sameTcam]
      simp [Table.tcamBlocks, Table.sramBlocks, type]

/-- The free positions without the one that SRAM blocks are taken from. -/
def without (block : Option Int) (free : List Int) : List Int := free.filter fun number => some number ≠ block

/-- The same block again and again. -/
def fill (block : Option Int) (count : Nat) : List Int := (block.map (List.replicate count)).getD []

theorem fill_zero (block : Option Int) : fill block 0 = [] := by
  cases block <;> rfl

private theorem without_idem (block : Option Int) (free : List Int) :
    without block (without block free) = without block free := by
  unfold without
  rw [List.filter_filter]
  exact List.filter_congr fun number _ => Bool.and_self _

private theorem without_none (free : List Int) : without none free = free := by
  simp [without]

private theorem firstFree_head? (bits : List Bool) :
    (freePositions bits).head? = (firstFree bits).map Int.ofNat := head?_freePositions bits

private theorem takeTcam_ok {bitmap after : Bitmap} {block : Option Int}
    (done : takeTcam bitmap = .ok (block, after)) :
    block = (freePositions bitmap.tcam).head? ∧ freePositions after.tcam = (freePositions bitmap.tcam).tail ∧
      after.sram = bitmap.sram := by
  have head := firstFree_head? bitmap.tcam
  unfold takeTcam at done
  split at done
  · next none =>
      cases done
      rw [none, Option.map_none, List.head?_eq_none_iff] at head
      rw [head]
      exact ⟨rfl, rfl, rfl⟩
  · next position found =>
      obtain ⟨marked, step, done⟩ := bind_eq_ok done
      cases done
      obtain ⟨bits, marked, step⟩ := bind_eq_ok step
      cases step
      rw [found, Option.map_some] at head
      obtain ⟨rest, first⟩ := List.head?_eq_some_iff.mp head
      refine ⟨head.symm, ?_, rfl⟩
      unfold mark at marked
      split at marked
      · cases marked
        rw [first, List.tail_cons]
        exact freePositions_set_first first
      · cases marked

private theorem takeSram_ok {bitmap after : Bitmap} {block : Option Int}
    (done : takeSram bitmap = .ok (block, after)) :
    block = (freePositions bitmap.sram).head? ∧
      freePositions after.tcam = without (freePositions bitmap.sram).head? (freePositions bitmap.tcam) ∧
      after.sram = bitmap.sram := by
  have head := firstFree_head? bitmap.sram
  unfold takeSram at done
  split at done
  · next none =>
      cases done
      rw [none, Option.map_none] at head
      rw [head, without_none]
      exact ⟨rfl, rfl, rfl⟩
  · next position found =>
      obtain ⟨marked, step, done⟩ := bind_eq_ok done
      cases done
      obtain ⟨struck, same⟩ := markTcam_ok step
      rw [found, Option.map_some] at head
      refine ⟨head.symm, ?_, same⟩
      rw [struck, head, strike, without]
      exact List.filter_congr fun number _ => by simp

private theorem takeBlocks_tcam {count : Nat} {bitmap after : Bitmap} {blocks : List Int}
    (done : takeBlocks takeTcam count bitmap = .ok (blocks, after)) :
    blocks = (freePositions bitmap.tcam).take count ∧
      freePositions after.tcam = (freePositions bitmap.tcam).drop count ∧ after.sram = bitmap.sram := by
  induction count generalizing bitmap blocks with
  | zero =>
      cases done
      simp
  | succ count ih =>
      obtain ⟨⟨block, middle⟩, first, done⟩ := bind_eq_ok done
      obtain ⟨⟨rest, last⟩, later, done⟩ := bind_eq_ok done
      cases done
      obtain ⟨isHead, isTail, same⟩ := takeTcam_ok first
      obtain ⟨taken, left, kept⟩ := ih later
      rw [isTail] at taken left
      rw [isHead, taken, left, kept, same]
      cases freePositions bitmap.tcam <;> simp

private theorem takeBlocks_sram {count : Nat} {bitmap after : Bitmap} {blocks : List Int}
    (done : takeBlocks takeSram count bitmap = .ok (blocks, after)) :
    blocks = fill (freePositions bitmap.sram).head? count ∧
      freePositions after.tcam = (if count = 0 then freePositions bitmap.tcam else
        without (freePositions bitmap.sram).head? (freePositions bitmap.tcam)) ∧
          after.sram = bitmap.sram := by
  induction count generalizing bitmap blocks with
  | zero =>
      cases done
      exact ⟨(fill_zero _).symm, rfl, rfl⟩
  | succ count ih =>
      obtain ⟨⟨block, middle⟩, first, done⟩ := bind_eq_ok done
      obtain ⟨⟨rest, last⟩, later, done⟩ := bind_eq_ok done
      cases done
      obtain ⟨isHead, struck, same⟩ := takeSram_ok first
      obtain ⟨taken, left, kept⟩ := ih later
      rw [same] at taken left kept
      rw [if_neg (Nat.succ_ne_zero count), isHead, taken, left, struck, without_idem, kept]
      refine ⟨?_, by split <;> rfl, rfl⟩
      cases (freePositions bitmap.sram).head? <;> simp [fill, List.replicate_succ]

/-- A new table with the blocks it is given. -/
def stored (free : List Int) (block : Option Int) (table : Table) : Table :=
  addConfig table
    (if table.keyMemory.type = .tcam then free.take table.keyMemory.given else fill block
      table.keyMemory.given)
    (fill block table.valueMemory.given)

/-- The TCAM blocks that are left behind it. -/
def left (free : List Int) (block : Option Int) (table : Table) : List Int :=
  if table.given.sram = 0 then free.drop table.given.tcam else without block (free.drop table.given.tcam)

theorem newTable_ok {table configured : Table} {bitmap after : Bitmap}
    (done : newTable table bitmap = .ok (configured, after)) :
    configured = stored (freePositions bitmap.tcam) (freePositions bitmap.sram).head? table ∧
      freePositions after.tcam = left (freePositions bitmap.tcam) (freePositions bitmap.sram).head? table ∧
      after.sram = bitmap.sram := by
  unfold newTable at done
  split at done
  · next key value isKey isValue =>
      obtain ⟨⟨keyBlocks, middle⟩, keys, done⟩ := bind_eq_ok done
      obtain ⟨⟨valueBlocks, last⟩, values, done⟩ := bind_eq_ok done
      cases done
      have keyGiven : table.keyMemory.given = key.toNat := by rw [TableMemory.given, isKey, Option.getD_some]
      have valueGiven : table.valueMemory.given =
        value.toNat := by rw [TableMemory.given, isValue, Option.getD_some]
      rw [← keyGiven] at keys
      rw [← valueGiven] at values
      obtain ⟨valueTaken, valueLeft, valueSame⟩ := takeBlocks_sram values
      cases type : table.keyMemory.type with
      | tcam =>
          rw [if_pos type] at keys
          obtain ⟨keyTaken, keyLeft, keySame⟩ := takeBlocks_tcam keys
          rw [keySame] at valueTaken valueLeft valueSame
          rw [keyLeft] at valueLeft
          refine ⟨by rw [stored, if_pos type, keyTaken, valueTaken], ?_, valueSame⟩
          rw [valueLeft, left, Table.given_tcam type]
      | sram =>
          rw [if_neg (by simp [type])] at keys
          obtain ⟨keyTaken, keyLeft, keySame⟩ := takeBlocks_sram keys
          rw [keySame] at valueTaken valueLeft valueSame
          rw [keyLeft] at valueLeft
          refine ⟨by rw [stored, if_neg (by simp [type]), keyTaken, valueTaken], ?_, valueSame⟩
          rw [valueLeft, left, Table.given_sram type, List.drop_zero]
          by_cases noKey : table.keyMemory.given = 0
          · simp only [noKey, if_true, Nat.zero_add]
          · simp only [noKey, if_false, Nat.add_eq_zero_iff, false_and, without_idem, ite_self]
  · cases done

/-! ### All tables -/

private theorem visitTables_cons {procCluster : Int → Int}
    {visit : String × Table → Bitmap → Except Failure (Table × Bitmap)} {entry : String × Table}
    {rest result : TableManager} {bitmaps after : List Bitmap}
    (run : visitTables procCluster visit (entry :: rest) bitmaps = .ok (result, after)) :
    ∃ (cluster : Nat) (bitmap : Bitmap) (table : Table) (next : Bitmap) (others : TableManager),
      procCluster entry.2.procId = cluster ∧ bitmaps[cluster]? = some bitmap ∧
        visit entry bitmap = .ok (table, next) ∧
        visitTables procCluster visit rest (bitmaps.set cluster next) = .ok (others, after) ∧
        result = (entry.1, table) :: others := by
  unfold visitTables at run
  simp only at run
  split at run
  · cases run
  · next bitmap here =>
      split at run
      · cases run
      · next nonneg =>
          obtain ⟨⟨table, next⟩, visited, run⟩ := bind_eq_ok run
          obtain ⟨⟨others, last⟩, later, run⟩ := bind_eq_ok run
          cases run
          exact ⟨(procCluster entry.2.procId).toNat, bitmap, table, next, others,
            (Int.toNat_of_nonneg (Int.not_lt.mp nonneg)).symm, here, visited, later, rfl⟩

/-- The table with the blocks it had before. -/
def copied (prev : TableManager) (entry : String × Table) : String × Table :=
  match prev.lookupName entry.1 with
  | some old => (entry.1, addConfig entry.2 old.keyMemory.config old.valueMemory.config)
  | none => entry

def keptBlocks (pick : Table → List Int) (prev : TableManager) (procCluster : Int → Int) (cluster : Nat)
    (tables : TableManager) : List Int :=
  tables.flatMap fun entry =>
    if procCluster entry.2.procId = cluster then ((prev.lookupName entry.1).map pick).getD [] else []

private theorem existingTable_ok {prev : TableManager} {entry : String × Table} {table : Table}
    {bitmap next : Bitmap} (done : existingTable prev entry bitmap = .ok (table, next)) :
    (entry.1, table) = copied prev entry ∧
      freePositions next.tcam =
        strike (((prev.lookupName entry.1).map Table.tcamBlocks).getD []) (freePositions bitmap.tcam) ∧
      freePositions next.sram =
        strike (((prev.lookupName entry.1).map Table.sramBlocks).getD []) (freePositions bitmap.sram) := by
  unfold existingTable at done
  unfold copied
  split at done
  · next old found =>
      obtain ⟨rfl, tcam, sram⟩ := copyTable_ok done
      rw [found]
      exact ⟨rfl, tcam, sram⟩
  · next missing =>
      cases done
      rw [missing]
      exact ⟨rfl, (strike_nil _).symm, (strike_nil _).symm⟩

theorem visit_existing {prev : TableManager} {procCluster : Int → Int} {tables result : TableManager}
    {bitmaps after : List Bitmap}
    (run : visitTables procCluster (existingTable prev) tables bitmaps = .ok (result, after)) :
    result = tables.map (copied prev) ∧ ∀ (cluster : Nat) (bitmap : Bitmap), bitmaps[cluster]? = some bitmap →
      ∃ next, after[cluster]? = some next ∧
        freePositions next.tcam = strike (keptBlocks Table.tcamBlocks prev procCluster cluster tables)
          (freePositions bitmap.tcam) ∧
        freePositions next.sram = strike (keptBlocks Table.sramBlocks prev procCluster cluster tables)
          (freePositions bitmap.sram) := by
  induction tables generalizing bitmaps result with
  | nil =>
      cases run
      exact ⟨rfl, fun cluster bitmap here => ⟨bitmap, here, (strike_nil _).symm, (strike_nil _).symm⟩⟩
  | cons entry rest ih =>
      obtain ⟨own, bitmap, table, next, others, isOwn, here, visited, later, rfl⟩ := visitTables_cons run
      obtain ⟨isCopy, tcam, sram⟩ := existingTable_ok visited
      obtain ⟨rfl, each⟩ := ih later
      refine ⟨by rw [isCopy, List.map_cons], ?_⟩
      intro cluster before isBefore
      by_cases same : own = cluster
      · subst same
        cases here.symm.trans isBefore
        have inside := (List.getElem?_eq_some_iff.mp here).1
        obtain ⟨last, isLast, restTcam, restSram⟩ := each own next (by simp [inside])
        refine ⟨last, isLast, ?_, ?_⟩
        · rw [restTcam, tcam, ← strike_append]
          simp [keptBlocks, isOwn]
        · rw [restSram, sram, ← strike_append]
          simp [keptBlocks, isOwn]
      · obtain ⟨last, isLast, restTcam, restSram⟩ :=
          each cluster before (by rw [List.getElem?_set_ne same, isBefore])
        have other : ¬ procCluster entry.2.procId = (cluster : Int) := by
          rw [isOwn]
          exact fun equal => same (Int.ofNat.inj equal)
        refine ⟨last, isLast, ?_, ?_⟩
        · simpa [keptBlocks, other] using restTcam
        · simpa [keptBlocks, other] using restSram

/-- The tables of a cluster that the previous program did not have. -/
def newTables (prev : TableManager) (procCluster : Int → Int) (cluster : Nat)
    (tables : TableManager) : TableManager :=
  tables.filter fun entry => prev.lookupName entry.1 = none ∧ procCluster entry.2.procId = cluster

/-- Such tables, one after the other, with the blocks they are given. -/
def storedAll : List Int → Option Int → TableManager → TableManager
  | _, _, [] => []
  | free, block, entry ::
    rest => (entry.1, stored free block entry.2) :: storedAll (left free block entry.2) block rest

theorem visit_other {prev : TableManager} {procCluster : Int → Int} {tables result : TableManager}
    {bitmaps after : List Bitmap}
    (run : visitTables procCluster (otherTable prev) tables bitmaps = .ok (result, after)) :
    (result.filter fun entry => (prev.lookupName entry.1).isSome) =
        (tables.filter fun entry => (prev.lookupName entry.1).isSome) ∧
      result.map Prod.fst = tables.map Prod.fst ∧
      ∀ (cluster : Nat) (bitmap : Bitmap), bitmaps[cluster]? = some bitmap →
        newTables prev procCluster cluster result = storedAll (freePositions bitmap.tcam)
          (freePositions bitmap.sram).head? (newTables prev procCluster cluster tables) := by
  induction tables generalizing bitmaps result with
  | nil =>
      cases run
      exact ⟨rfl, rfl, fun _ _ _ => rfl⟩
  | cons entry rest ih =>
      obtain ⟨own, bitmap, table, next, others, isOwn, here, visited, later, rfl⟩ := visitTables_cons run
      obtain ⟨sameOld, sameNames, each⟩ := ih later
      have inside := (List.getElem?_eq_some_iff.mp here).1
      have back := fun cluster before (isBefore : bitmaps[cluster]? = some before) (other : own ≠ cluster) =>
        each cluster before (by rw [List.getElem?_set_ne other, isBefore])
      refine ⟨?_, by rw [List.map_cons, List.map_cons, sameNames], ?_⟩
      · unfold otherTable at visited
        split at visited
        · next old found =>
            cases visited
            rw [List.filter_cons_of_pos (by simp [found]), List.filter_cons_of_pos (by simp [found]), sameOld]
        · next missing =>
            rw [List.filter_cons_of_neg (by simp [missing]),
              List.filter_cons_of_neg (by simp [missing]), sameOld]
      · intro cluster before isBefore
        unfold otherTable at visited
        split at visited
        · next old found =>
            cases visited
            have skipped : ∀ tables, newTables prev procCluster cluster (entry :: tables) =
                newTables prev procCluster cluster tables :=
                  fun tables => List.filter_cons_of_neg (by simp [found])
            change newTables prev procCluster cluster (entry :: others) = _
            rw [skipped, skipped]
            refine each cluster before ?_
            by_cases same : own = cluster
            · subst same
              rw [List.getElem?_set_self inside, ← here, isBefore]
            · rw [List.getElem?_set_ne same, isBefore]
        · next missing =>
            obtain ⟨rfl, isLeft, sameSram⟩ := newTable_ok visited
            have sameProc : (stored (freePositions bitmap.tcam) (freePositions bitmap.sram).head?
              entry.2).procId =
                entry.2.procId := rfl
            unfold newTables at each ⊢
            by_cases same : own = cluster
            · subst same
              cases here.symm.trans isBefore
              rw [List.filter_cons_of_pos (by simp [missing, sameProc, isOwn]),
                List.filter_cons_of_pos (by simp [missing, isOwn]), storedAll,
                each own next (List.getElem?_set_self inside), isLeft, sameSram]
            · have other : ¬ procCluster entry.2.procId = (cluster : Int) := by
                rw [isOwn]
                exact fun equal => same (Int.ofNat.inj equal)
              rw [List.filter_cons_of_neg (by simp [sameProc, other]),
                List.filter_cons_of_neg (by simp [other])]
              exact back cluster before isBefore same

end Incremental

end Ipbm.Compiler
