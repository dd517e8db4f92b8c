import Ipbm.Compiler.AllocationProperties
import Mathlib.Algebra.BigOperators.Ring.Finset
import Mathlib.Algebra.Order.BigOperators.Group.List
import Mathlib.Data.List.Dedup

/-! The memory of a full compile: what a placement reserves in every cluster, and
the blocks the tables are then given. -/

set_option autoImplicit false

namespace Ipbm.Compiler
open Lib IpsaConfiguration
open Distribution (liveStages)

/-- A need that is not below zero. -/
def Space.Natural (space : Space) : Prop := 0 ≤ space.sram ∧ 0 ≤ space.tcam

instance (space : Space) : Decidable space.Natural := inferInstanceAs (Decidable (_ ∧ _))

/-- The blocks that a table is declared with. -/
def Table.size (table : Table) : Option Space := do
  let key ← table.keyMemory.size
  let value ← table.valueMemory.size
  return if table.keyMemory.type = .sram then ⟨key + value, 0⟩ else ⟨value, key⟩

/-- The blocks that a table is given each time it is listed. -/
def TableMemory.given (memory : TableMemory) : Nat := (memory.blockCount.getD 0).toNat

def Table.given (table : Table) : Counters :=
  if table.keyMemory.type = .sram then ⟨table.keyMemory.given + table.valueMemory.given, 0⟩
  else ⟨table.valueMemory.given, table.keyMemory.given⟩

def TableManager.size (tables : TableManager) (tableId : Int) : Space :=
  ((tables.lookupId tableId).bind Table.size).getD .zero

/-- The same as it is computed. -/
def TableManager.space (tables : TableManager) (tableId : Int) : Space :=
  ((tables.lookupId tableId).bind Table.space).getD .zero

def TableManager.given (tables : TableManager) (tableId : Int) : Counters :=
  ((tables.lookupId tableId).map Table.given).getD .zero

namespace Memory

/-! ### Placement -/

/-- The placement of some stages: processor `4 c + j` holds stage `j` of cluster `c`. -/
structure PlacementOf (done : List Int) (placement : Placement) : Prop where
  spaces : placement.clusterSpace.length = clusterCount
  procs : placement.clusterProc.length = clusterCount
  length : placement.physicalProcId.length = procCount
  cells : ∀ cluster < clusterCount, ∀ offset < clusterProcCount,
    placement.physicalProcId[cluster * clusterProcCount + offset]? =
      some (((placement.clusterProc.getD cluster [])[offset]?).getD (-1))
  members : ∀ cluster, ∀ id ∈ placement.clusterProc.getD cluster [], id ∈ done
  nodup : ∀ cluster, (placement.clusterProc.getD cluster []).Nodup
  unique : ∀ first second id, id ∈ placement.clusterProc.getD first [] →
    id ∈ placement.clusterProc.getD second [] → first = second

/-- What the stages of a cluster need is taken from its space. -/
structure Reserves (need : Int → Space) (placement : Placement) : Prop where
  sram : ∀ cluster < clusterCount, 0 ≤ (placement.clusterSpace.getD cluster .zero).sram ∧
    (placement.clusterSpace.getD cluster .zero).sram +
      ((placement.clusterProc.getD cluster []).map fun id => (need id).sram).sum = clusterSramCount
  tcam : ∀ cluster < clusterCount, 0 ≤ (placement.clusterSpace.getD cluster .zero).tcam ∧
    (placement.clusterSpace.getD cluster .zero).tcam +
      ((placement.clusterProc.getD cluster []).map fun id => (need id).tcam).sum = clusterTcamCount

theorem emptyPlacement_of : PlacementOf [] emptyPlacement := by
  have noProc : ∀ cluster, emptyPlacement.clusterProc.getD cluster [] = [] := by
    intro cluster
    simp only [emptyPlacement, List.getD_eq_getElem?_getD, List.getElem?_replicate]
    split <;> rfl
  refine ⟨by simp [emptyPlacement], by simp [emptyPlacement], by simp [emptyPlacement], ?_, ?_, ?_, ?_⟩
  · intro cluster inside offset small
    have bound : cluster * clusterProcCount + offset < procCount := by
      simp only [clusterCount, clusterProcCount, procCount] at inside small ⊢
      omega
    rw [noProc]
    simp [emptyPlacement, bound]
  · intro cluster id member
    rw [noProc] at member
    cases member
  · intro cluster
    rw [noProc]
    exact List.nodup_nil
  · intro first second id member
    rw [noProc] at member
    cases member

theorem emptyPlacement_reserves (need : Int → Space) : Reserves need emptyPlacement := by
  constructor <;> intro cluster inside <;> simp [emptyPlacement, inside]

theorem getD_modify {α : Type} (items : List α) (position other : Nat) (change : α → α) (default : α)
    (inside : position < items.length) :
    (items.modify position change).getD other default =
      if other = position then change (items.getD position default) else items.getD other default := by
  simp only [List.getD_eq_getElem?_getD, List.getElem?_modify]
  by_cases same : other = position
  · subst same
    simp [inside]
  · simp [same, Ne.symm same]

/-- A stage at the end of a cluster. -/
def putStage (need : Int → Space) (placement : Placement) (cluster : Nat) (stageId : Int) : Placement where
  clusterSpace := placement.clusterSpace.modify cluster fun space => space.sub (need stageId)
  clusterProc := placement.clusterProc.modify cluster fun procs => procs ++ [stageId]
  physicalProcId := placement.physicalProcId.set
    (cluster * clusterProcCount + (placement.clusterProc.getD cluster []).length) stageId

section Put

variable {need : Int → Space} {done : List Int} {placement : Placement} {stageId : Int} {cluster : Nat}

private theorem filled_put (old : PlacementOf done placement) (inside : cluster < clusterCount)
    {measure : Space → Int} {total : Int} {other : Nat} (small : total ≤ 256)
    (sub : measure ((placement.clusterSpace.getD cluster .zero).sub (need stageId)) =
      wrapInt (measure (placement.clusterSpace.getD cluster .zero) - measure (need stageId)))
    (natural : ∀ id ∈ placement.clusterProc.getD cluster [], 0 ≤ measure (need id))
    (own : 0 ≤ measure (need stageId))
    (room : measure (need stageId) ≤ measure (placement.clusterSpace.getD cluster .zero))
    (filled : ∀ other < clusterCount, 0 ≤ measure (placement.clusterSpace.getD other .zero) ∧
      measure (placement.clusterSpace.getD other .zero) +
        ((placement.clusterProc.getD other []).map fun id => measure (need id)).sum = total)
    (bound : other < clusterCount) :
    0 ≤ measure ((putStage need placement cluster stageId).clusterSpace.getD other .zero) ∧
      measure ((putStage need placement cluster stageId).clusterSpace.getD other .zero) +
        ((((putStage need placement cluster stageId).clusterProc.getD other []).map fun id => measure
          (need id)).sum) = total := by
  rw [putStage, getD_modify _ _ _ _ _ (old.spaces ▸ inside), getD_modify _ _ _ _ _ (old.procs ▸ inside)]
  split
  · next same =>
      subst same
      obtain ⟨low, whole⟩ := filled other bound
      have taken : 0 ≤ ((placement.clusterProc.getD other []).map fun id => measure (need id)).sum := by
        refine List.sum_nonneg fun number member => ?_
        obtain ⟨id, listed, rfl⟩ := List.mem_map.mp member
        exact natural id listed
      rw [sub, wrapInt_of_small (by omega) (by omega), List.map_append, List.sum_append]
      simp only [List.map_cons, List.map_nil, List.sum_cons, List.sum_nil]
      omega
  · exact filled other bound

private theorem cells_put (old : PlacementOf done placement) (inside : cluster < clusterCount)
    (short : (placement.clusterProc.getD cluster []).length < clusterProcCount) {other offset : Nat}
    (bound : other < clusterCount) (small : offset < clusterProcCount) :
    (putStage need placement cluster stageId).physicalProcId[other * clusterProcCount + offset]? =
      some ((((putStage need placement cluster stageId).clusterProc.getD other [])[offset]?).getD (-1)) := by
  have cell := old.cells other bound offset small
  have length := old.length
  rw [putStage, getD_modify _ _ _ _ _ (old.procs ▸ inside), List.getElem?_set]
  by_cases target : cluster * clusterProcCount + (placement.clusterProc.getD cluster []).length =
      other * clusterProcCount + offset
  · have same : other = cluster ∧ offset = (placement.clusterProc.getD cluster []).length := by
      simp only [clusterProcCount] at target small short
      omega
    obtain ⟨rfl, rfl⟩ := same
    have limit : other * clusterProcCount + (placement.clusterProc.getD other []).length <
        placement.physicalProcId.length := by
      rw [length]
      simp only [procCount, clusterProcCount, clusterCount] at short inside ⊢
      omega
    rw [if_pos rfl, if_pos limit, if_pos rfl, List.getElem?_concat_length, Option.getD_some]
  · rw [if_neg target, cell]
    split
    · next same =>
        subst same
        have different : offset ≠ (placement.clusterProc.getD other []).length := by
          rintro rfl
          exact target rfl
        by_cases before : offset < (placement.clusterProc.getD other []).length
        · rw [List.getElem?_append_left before]
        · have longer : (placement.clusterProc.getD other [] ++ [stageId]).length ≤ offset := by
            rw [List.length_append, List.length_singleton]
            omega
          rw [List.getElem?_eq_none (by omega), List.getElem?_eq_none longer]
    · rfl

private theorem mem_clusterProc_put (old : PlacementOf done placement) (inside : cluster < clusterCount)
    {other : Nat} {id : Int}
    (member : id ∈ (putStage need placement cluster stageId).clusterProc.getD other []) :
    id ∈ placement.clusterProc.getD other [] ∨ other = cluster ∧ id = stageId := by
  rw [putStage, getD_modify _ _ _ _ _ (old.procs ▸ inside)] at member
  split at member
  · next same =>
      subst same
      exact (List.mem_append.mp member).imp_right fun new => ⟨rfl, List.mem_singleton.mp new⟩
  · exact .inl member

theorem putStage_of (fresh : stageId ∉ done) (inside : cluster < clusterCount)
    (short : (placement.clusterProc.getD cluster []).length < clusterProcCount)
    (old : PlacementOf done placement) :
    PlacementOf (done ++ [stageId]) (putStage need placement cluster stageId) := by
  have absent : ∀ other, stageId ∉ placement.clusterProc.getD other [] := fun other member =>
    fresh (old.members other stageId member)
  refine ⟨by simpa [putStage] using old.spaces, by simpa [putStage] using old.procs,
    by simpa [putStage] using old.length,
    fun other bound offset small => cells_put old inside short bound small, ?_, ?_, ?_⟩
  · intro other id member
    rcases mem_clusterProc_put old inside member with before | ⟨_, rfl⟩
    · exact List.mem_append_left _ (old.members other id before)
    · exact List.mem_append_right _ (List.mem_singleton_self _)
  · intro other
    rw [putStage, getD_modify _ _ _ _ _ (old.procs ▸ inside)]
    split
    · refine List.nodup_append.mpr ⟨old.nodup cluster, List.nodup_singleton _, ?_⟩
      rintro id member _ single rfl
      rw [List.mem_singleton] at single
      exact absent cluster (single ▸ member)
    · exact old.nodup other
  · intro first second id firstMember secondMember
    rcases mem_clusterProc_put old inside firstMember with firstOld | ⟨firstIs, isNew⟩
    · rcases mem_clusterProc_put old inside secondMember with secondOld | ⟨_, isNew⟩
      · exact old.unique first second id firstOld secondOld
      · exact absurd (isNew ▸ firstOld) (absent first)
    · rcases mem_clusterProc_put old inside secondMember with secondOld | ⟨secondIs, _⟩
      · exact absurd (isNew ▸ secondOld) (absent second)
      · rw [firstIs, secondIs]

/-- A cluster with room can pay for the stage. -/
theorem putStage_reserves (inside : cluster < clusterCount) (old : PlacementOf done placement)
    (natural : ∀ id ∈ done ++ [stageId], (need id).Natural)
    (room : fits placement (need stageId) cluster = true)
    (reserves : Reserves need placement) : Reserves need (putStage need placement cluster stageId) := by
  simp only [fits, Bool.and_eq_true, decide_eq_true_eq] at room
  obtain ⟨⟨_, sramFits⟩, tcamFits⟩ := room
  have own : (need stageId).Natural := natural stageId (List.mem_append_right _ (List.mem_singleton_self _))
  have earlier : ∀ id ∈ placement.clusterProc.getD cluster [], (need id).Natural := fun id member =>
    natural id (List.mem_append_left _ (old.members cluster id member))
  constructor
  · exact fun other bound => filled_put old inside (by decide) rfl (fun id member =>
      (earlier id member).1) own.1
      sramFits reserves.sram bound
  · exact fun other bound => filled_put old inside (by decide) rfl (fun id member =>
      (earlier id member).2) own.2
      tcamFits reserves.tcam bound

end Put

theorem length_of_fits {need : Space} {placement : Placement} {cluster : Nat}
    (room : fits placement need cluster = true) :
    (placement.clusterProc.getD cluster []).length < clusterProcCount := by
  simp only [fits, Bool.and_eq_true, decide_eq_true_eq] at room
  exact room.1.1

theorem PlacementOf.skip {done : List Int} {placement : Placement}
    (old : PlacementOf done placement) (stageId : Int) : PlacementOf (done ++ [stageId]) placement :=
  { old with members := fun cluster id member => List.mem_append_left _ (old.members cluster id member) }

private theorem placeStage_of {need : Int → Space} {done : List Int} {placement : Placement} {stageId : Int}
    (fresh : stageId ∉ done) (old : PlacementOf done placement) :
    PlacementOf (done ++ [stageId]) (placeStage need placement stageId) := by
  unfold placeStage
  split
  · exact old.skip stageId
  · next cluster found =>
      exact putStage_of fresh (List.mem_range.mp (List.mem_of_find?_eq_some found))
        (length_of_fits (List.find?_some found)) old

theorem placeStages_of (need : Int → Space) {sequence : List Int} (nodup : sequence.Nodup) :
    PlacementOf sequence (placeStages need sequence) := by
  induction sequence using List.reverseRecOn with
  | nil => exact emptyPlacement_of
  | append_singleton sequence stageId ih =>
      obtain ⟨before, _, apart⟩ := List.nodup_append.mp nodup
      have fresh : stageId ∉ sequence :=
        fun member => apart stageId member stageId (List.mem_singleton_self _) rfl
      rw [placeStages, List.foldl_append]
      exact placeStage_of fresh (ih before)

theorem placeStages_reserves {need : Int → Space} {sequence : List Int}
    (natural : ∀ id ∈ sequence, (need id).Natural)
    (nodup : sequence.Nodup) : Reserves need (placeStages need sequence) := by
  induction sequence using List.reverseRecOn with
  | nil => exact emptyPlacement_reserves need
  | append_singleton sequence stageId ih =>
      have before := (List.nodup_append.mp nodup).1
      replace ih := ih fun id member => natural id (List.mem_append_left _ member)
      rw [placeStages, List.foldl_append, List.foldl_cons, List.foldl_nil, placeStage]
      split
      · exact ih before
      · next cluster found =>
          exact putStage_reserves (List.mem_range.mp (List.mem_of_find?_eq_some found))
            (placeStages_of need before) natural (List.find?_some found) (ih before)

section

variable {done : List Int} {placement : Placement}

private theorem PlacementOf.cell (placed : PlacementOf done placement) {index : Nat} {id : Int}
    (here : placement.physicalProcId[index]? = some id) :
    index / clusterProcCount < clusterCount ∧
      id = ((placement.clusterProc.getD (index / clusterProcCount) [])[index %
        clusterProcCount]?).getD (-1) := by
  have bound : index < procCount := placed.length ▸ (List.getElem?_eq_some_iff.mp here).1
  have inside : index / clusterProcCount < clusterCount := by
    simp only [procCount, clusterProcCount, clusterCount] at bound ⊢
    omega
  have cell := placed.cells _ inside (index % clusterProcCount) (Nat.mod_lt _ (by decide))
  rw [Nat.div_add_mod', here, Option.some.injEq] at cell
  exact ⟨inside, cell⟩

/-- A stage is in the cluster of the processor it is found on. -/
theorem PlacementOf.cluster (placed : PlacementOf done placement) {index : Nat} {id : Int} (ordinary : 0 ≤ id)
    (here : placement.physicalProcId[index]? = some id) :
    index / clusterProcCount < clusterCount ∧
      (placement.clusterProc.getD (index / clusterProcCount) [])[index % clusterProcCount]? = some id := by
  obtain ⟨inside, cell⟩ := placed.cell here
  refine ⟨inside, ?_⟩
  cases found : (placement.clusterProc.getD (index / clusterProcCount) [])[index % clusterProcCount]? with
  | none =>
      rw [found, Option.getD_none] at cell
      omega
  | some other => rw [cell, found, Option.getD_some]

theorem PlacementOf.once (placed : PlacementOf done placement) {first second : Nat} {id : Int}
    (ordinary : 0 ≤ id) (firstAt : placement.physicalProcId[first]? = some id)
    (secondAt : placement.physicalProcId[second]? = some id) :
    first = second := by
  obtain ⟨_, firstHere⟩ := placed.cluster ordinary firstAt
  obtain ⟨_, secondHere⟩ := placed.cluster ordinary secondAt
  have cluster := placed.unique _ _ id (List.mem_of_getElem? firstHere) (List.mem_of_getElem? secondHere)
  rw [cluster] at firstHere
  have offset := (List.getElem?_inj (List.getElem?_eq_some_iff.mp firstHere).1
    (placed.nodup (second / clusterProcCount))).mp (firstHere.trans secondHere.symm)
  rw [← Nat.div_add_mod' first clusterProcCount, cluster, offset, Nat.div_add_mod']

theorem PlacementOf.entries (placed : PlacementOf done placement) {id : Int}
    (member : id ∈ placement.physicalProcId) : id = -1 ∨ id ∈ done := by
  obtain ⟨index, here⟩ := List.mem_iff_getElem?.mp member
  obtain ⟨_, cell⟩ := placed.cell here
  cases found : (placement.clusterProc.getD (index / clusterProcCount) [])[index % clusterProcCount]? with
  | none => exact .inl (by rw [cell, found, Option.getD_none])
  | some other =>
      rw [found, Option.getD_some] at cell
      exact .inr (placed.members _ id (cell ▸ List.mem_of_getElem? found))

theorem procCluster_index {physicalProcId : List Int} {id : Int} (ordinary : 0 ≤ id)
    (member : id ∈ physicalProcId) :
    ∃ index : Nat, physicalProcId[index]? = some id ∧
      procCluster physicalProcId id = index / clusterProcCount := by
  unfold procCluster
  cases found : physicalProcId.findIdx? fun other => 0 ≤ other && other == id with
  | none =>
      have missing := List.findIdx?_eq_none_iff.mp found id member
      simp [ordinary] at missing
  | some index =>
      obtain ⟨inside, holds, _⟩ := List.findIdx?_eq_some_iff_getElem.mp found
      rw [Bool.and_eq_true, beq_iff_eq] at holds
      exact ⟨index, by rw [List.getElem?_eq_getElem inside, holds.2], rfl⟩

theorem PlacementOf.mem_cluster (placed : PlacementOf done placement) {id : Int} (ordinary : 0 ≤ id)
    (member : id ∈ placement.physicalProcId) :
    id ∈ placement.clusterProc.getD (procCluster placement.physicalProcId id) [] := by
  obtain ⟨index, here, same⟩ := procCluster_index ordinary member
  rw [same]
  exact List.mem_of_getElem? (placed.cluster ordinary here).2

end

/-! ### Tables of a cluster -/

/-- The stages on the processors of a cluster. -/
def clusterProcs (physicalProcId : List Int) (cluster : Nat) : List Int :=
  (physicalProcId.drop (cluster * clusterProcCount)).take clusterProcCount

theorem PlacementOf.mem_clusterProcs {done : List Int} {placement : Placement}
    (placed : PlacementOf done placement) {id : Int} (ordinary : 0 ≤ id)
    (member : id ∈ placement.physicalProcId) (cluster : Nat) :
    id ∈ clusterProcs placement.physicalProcId cluster ↔
      procCluster placement.physicalProcId id = cluster := by
  constructor
  · intro inside
    obtain ⟨offset, here⟩ := List.mem_iff_getElem?.mp inside
    rw [clusterProcs, List.getElem?_take] at here
    split at here
    · next small =>
        rw [List.getElem?_drop] at here
        have isHere := (placed.cluster ordinary here).2
        have quotient : (cluster * clusterProcCount + offset) / clusterProcCount = cluster := by
          simp only [clusterProcCount] at small ⊢
          omega
        rw [quotient] at isHere
        exact placed.unique _ _ id (placed.mem_cluster ordinary member) (List.mem_of_getElem? isHere)
    · cases here
  · rintro rfl
    obtain ⟨index, here, same⟩ := procCluster_index ordinary member
    refine List.mem_iff_getElem?.mpr ⟨index % clusterProcCount, ?_⟩
    rw [clusterProcs, List.getElem?_take, if_pos (Nat.mod_lt _ (by decide)), List.getElem?_drop, same,
      Nat.div_add_mod', here]

def clusterRefs (refs : List (Nat × Int)) (cluster : Nat) : List Int :=
  (refs.filter fun ref => ref.1 = cluster).map Prod.snd

theorem clusterRefs_tableRefs (stages : List Stage) (physicalProcId : List Int) (cluster : Nat) :
    clusterRefs (tableRefs stages physicalProcId) cluster =
      ((liveStages stages).filter fun stage => procCluster physicalProcId stage.stageId = cluster).flatMap
        Stage.tableId := by
  unfold clusterRefs tableRefs
  induction liveStages stages with
  | nil => rfl
  | cons stage rest ih =>
      rw [List.flatMap_cons, List.filter_append, List.map_append, ih, List.filter_map, List.map_map]
      by_cases here : procCluster physicalProcId stage.stageId = cluster
      · rw [List.filter_cons_of_pos (by simpa using here), List.flatMap_cons,
          List.filter_eq_self.mpr (by simp [here])]
        congr 1
        exact List.map_id _
      · rw [List.filter_cons_of_neg (by simpa using here), List.filter_eq_nil_iff.mpr (by simp [here])]
        rfl

/-! ### Space -/

theorem find_table {tables : TableManager} (nodup : (tables.map fun entry => entry.2.tableId).Nodup)
    {entry : String × Table} (member : entry ∈ tables) :
    tables.find? (fun other => other.2.tableId = entry.2.tableId) = some entry :=
  find?_of_key nodup member

private theorem tableSpace_listed {tables : TableManager} (each : ∀ entry ∈ tables, entry.2.space.isSome) :
    tables.mapM (fun entry => do return (entry.2.tableId, ← entry.2.space)) =
      some (tables.map fun entry => (entry.2.tableId, entry.2.space.getD .zero)) := by
  refine mapM_eq_some_map fun entry member => ?_
  obtain ⟨need, found⟩ := Option.isSome_iff_exists.mp (each entry member)
  rw [found]
  rfl

private theorem isSome_of_listed {tables : TableManager} {spaces : List (Int × Space)}
    (made : tables.mapM (fun entry => do return (entry.2.tableId, ← entry.2.space)) = some spaces) :
    ∀ entry ∈ tables, entry.2.space.isSome := by
  intro entry member
  obtain ⟨position, inside, rfl⟩ := List.mem_iff_getElem.mp member
  have step := getElem_of_mapM_some made inside
  rw [List.getElem?_eq_getElem (length_of_mapM_some made ▸ inside)] at step
  obtain ⟨need, found, _⟩ := Option.bind_eq_some_iff.mp step
  exact Option.isSome_of_eq_some found

/-- The space of every table is known, and found under its id. -/
theorem tableSpace_known {tables : TableManager} {space : Int → Space}
    (nodup : (tables.map fun entry => entry.2.tableId).Nodup) (known : tableSpace tables = some space) :
    ∀ entry ∈ tables, entry.2.space = some (space entry.2.tableId) := by
  obtain ⟨spaces, made, known⟩ := Option.bind_eq_some_iff.mp known
  have each := isSome_of_listed made
  cases made.symm.trans (tableSpace_listed each)
  cases known
  intro entry member
  obtain ⟨need, found⟩ := Option.isSome_iff_exists.mp (each entry member)
  have here : (tables.map fun entry => (entry.2.tableId, entry.2.space.getD .zero)).find?
      (fun other => other.1 = entry.2.tableId) = some (entry.2.tableId, need) := by
    rw [List.find?_map]
    refine (congrArg (Option.map _) (find_table nodup member)).trans ?_
    rw [Option.map_some, found, Option.getD_some]
  dsimp only
  rw [here, found, Option.map_some, Option.getD_some]

theorem tableSpace_eq {tables : TableManager} {space : Int → Space} (known : tableSpace tables = some space) :
    space = tables.space := by
  obtain ⟨spaces, made, known⟩ := Option.bind_eq_some_iff.mp known
  cases made.symm.trans (tableSpace_listed (isSome_of_listed made))
  cases known
  funext tableId
  rw [TableManager.space, TableManager.lookupId, List.find?_map, Option.map_map]
  change ((tables.find? fun entry => entry.2.tableId = tableId).map _).getD _ = _
  cases tables.find? fun entry => entry.2.tableId = tableId with
  | none => rfl
  | some entry => cases isSpace : entry.2.space <;> simp [isSpace]

theorem tableSpace_exists {tables : TableManager} (each : ∀ entry ∈ tables, entry.2.space.isSome) :
    ∃ space, tableSpace tables = some space := by
  rw [tableSpace, tableSpace_listed each]
  exact ⟨_, rfl⟩

/-! ### Stages -/

theorem procSpace_live {space : Int → Space} {stages : List Stage}
    (unique : ((liveStages stages).map Stage.stageId).Nodup) {stage : Stage}
    (live : stage ∈ liveStages stages) :
    procSpace space stages stage.stageId = stageSpace space stage := by
  have found : (liveStages stages).find? (fun other => other.stageId = stage.stageId) = some stage :=
    find?_of_key unique live
  rw [procSpace, found]
  rfl

private theorem stageSpace_sum {measure : Space → Int} (zero : measure .zero = 0)
    (add : ∀ first second : Space, measure (first.add second) = wrapInt (measure first + measure second))
    (space : Int → Space) (stage : Stage) :
    measure (stageSpace space stage) =
      wrapInt (stage.tableId.map fun tableId => measure (space tableId)).sum := by
  have general : ∀ (tableIds : List Int) (start : Space), wrapInt (measure start) = measure start →
      measure (tableIds.foldl (fun total tableId => total.add (space tableId)) start) =
        wrapInt (measure start + (tableIds.map fun tableId => measure (space tableId)).sum) := by
    intro tableIds
    induction tableIds with
    | nil =>
        intro start wrapped
        simp [wrapped]
    | cons tableId rest ih =>
        intro start _
        have wrapped : wrapInt (measure (start.add (space tableId))) = measure
            (start.add (space tableId)) := by
          rw [add]
          exact wrapInt_of_small (wrapInt_bounds _).1 (wrapInt_bounds _).2
        rw [List.foldl_cons, ih _ wrapped, add, wrapInt_add, List.map_cons, List.sum_cons, Int.add_assoc]
  have start := general stage.tableId .zero (by rw [zero]; rfl)
  rw [zero, Int.zero_add] at start
  exact start

/-- The tables of a stage have no negative number of blocks, and an `int` holds what they need. -/
structure Countable (tables : TableManager) (stage : Stage) : Prop where
  sizes : ∀ tableId ∈ stage.tableId, ∀ table, tables.lookupId tableId = some table →
    (∀ key, table.keyMemory.size = some key → 0 ≤ key) ∧
      ∀ value, table.valueMemory.size = some value → 0 ≤ value
  sram : (stage.tableId.map fun tableId => (tables.size tableId).sram).sum < 2 ^ 31
  tcam : (stage.tableId.map fun tableId => (tables.size tableId).tcam).sum < 2 ^ 31

instance (tables : TableManager) (stage : Stage) : Decidable (Countable tables stage) :=
  decidable_of_iff
    ((∀ tableId ∈ stage.tableId, ∀ table ∈ tables.lookupId tableId,
        (∀ key ∈ table.keyMemory.size, 0 ≤ key) ∧ ∀ value ∈ table.valueMemory.size, 0 ≤ value) ∧
      (stage.tableId.map fun tableId => (tables.size tableId).sram).sum < 2 ^ 31 ∧
      (stage.tableId.map fun tableId => (tables.size tableId).tcam).sum < 2 ^ 31)
    ⟨fun ⟨sizes, sram, tcam⟩ => ⟨sizes, sram, tcam⟩,
      fun countable => ⟨countable.sizes, countable.sram, countable.tcam⟩⟩

private theorem single_le_sum {tableIds : List Int} {number : Int → Int}
    (natural : ∀ id ∈ tableIds, 0 ≤ number id)
    {tableId : Int} (member : tableId ∈ tableIds) : number tableId ≤ (tableIds.map number).sum := by
  refine List.single_le_sum (fun value listed => ?_) _ (List.mem_map_of_mem member)
  obtain ⟨id, inside, rfl⟩ := List.mem_map.mp listed
  exact natural id inside

section

variable {tables : TableManager} {stage : Stage}

/-- A table that is counted is given what it is declared with, in both of its memories. -/
theorem Countable.table (countable : Countable tables stage) {space : Int → Space}
    (known : ∀ entry ∈ tables, entry.2.space = some (space entry.2.tableId)) {tableId : Int}
    (listed : tableId ∈ stage.tableId) (isTable : tableId ∈ tables.map fun entry => entry.2.tableId) :
    (tables.size tableId).sram = (tables.given tableId).sram ∧
      (tables.size tableId).tcam = (tables.given tableId).tcam ∧
      space tableId = tables.size tableId ∧ ∃ table, tables.lookupId tableId = some table ∧
        table.keyMemory.size = some (table.keyMemory.given : Int) ∧
        table.valueMemory.size = some (table.valueMemory.given : Int) := by
  have each : ∀ id ∈ stage.tableId, (tables.size id).Natural := by
    intro id inside
    unfold TableManager.size
    cases found : tables.lookupId id with
    | none => exact ⟨Int.le_refl 0, Int.le_refl 0⟩
    | some table =>
        obtain ⟨keys, values⟩ := countable.sizes id inside table found
        rw [Option.bind_some, Table.size]
        cases isKey : table.keyMemory.size with
        | none => exact ⟨Int.le_refl 0, Int.le_refl 0⟩
        | some key =>
            cases isValue : table.valueMemory.size with
            | none => exact ⟨Int.le_refl 0, Int.le_refl 0⟩
            | some value =>
                have low := keys key isKey
                have lowValue := values value isValue
                simp only [Option.bind_eq_bind, Option.bind_some, Option.pure_def, Option.getD_some]
                split
                · exact ⟨Int.add_nonneg low lowValue, Int.le_refl 0⟩
                · exact ⟨lowValue, low⟩
  have sram := Int.lt_of_le_of_lt (single_le_sum (fun id inside => (each id inside).1) listed) countable.sram
  have tcam := Int.lt_of_le_of_lt (single_le_sum (fun id inside => (each id inside).2) listed) countable.tcam
  obtain ⟨entry, member, rfl⟩ := List.mem_map.mp isTable
  obtain ⟨table, found⟩ : ∃ table, tables.lookupId entry.2.tableId = some table := by
    have some_ : (tables.lookupId entry.2.tableId).isSome := by
      rw [TableManager.lookupId, Option.isSome_map, List.find?_isSome]
      exact ⟨entry, member, by simp⟩
    exact Option.isSome_iff_exists.mp some_
  obtain ⟨other, first, rfl⟩ := Option.map_eq_some_iff.mp found
  have number : other.2.tableId = entry.2.tableId := by simpa using List.find?_some first
  have space := known other (List.mem_of_find?_eq_some first)
  rw [number] at space
  obtain ⟨keys, values⟩ := countable.sizes _ listed _ found
  simp only [TableManager.size, TableManager.given, found, Option.bind_some, Option.map_some,
    Option.getD_some] at sram tcam ⊢
  unfold Table.space TableMemory.blockCount at space
  unfold Table.size at sram tcam ⊢
  unfold Table.given
  simp only [Option.some.injEq, exists_eq_left']
  unfold TableMemory.given TableMemory.blockCount
  cases isKey : other.2.keyMemory.size with
  | none => simp [isKey] at space
  | some key =>
      cases isValue : other.2.valueMemory.size with
      | none => simp [isKey, isValue] at space
      | some value =>
          have low := keys key isKey
          have lowValue := values value isValue
          simp only [isKey, isValue, Option.bind_eq_bind, Option.bind_some, Option.pure_def, Option.getD_some,
            Option.map_some, Option.some.injEq] at space sram tcam ⊢
          by_cases kind : other.2.keyMemory.type = .sram
          · rw [if_pos kind] at space sram tcam ⊢
            simp only at sram
            have wrapped := @wrapInt_of_small key (by omega) (by omega)
            have wrappedValue := @wrapInt_of_small value (by omega) (by omega)
            have sum := @wrapInt_of_small (key + value) (by omega) (by omega)
            rw [wrapped, wrappedValue, sum] at space
            rw [wrapped, wrappedValue, if_pos kind]
            exact ⟨by push_cast; omega, rfl, space.symm, (Int.toNat_of_nonneg low).symm,
              (Int.toNat_of_nonneg lowValue).symm⟩
          · rw [if_neg kind] at space sram tcam ⊢
            simp only at sram tcam
            have wrapped := @wrapInt_of_small key (by omega) (by omega)
            have wrappedValue := @wrapInt_of_small value (by omega) (by omega)
            rw [wrapped, wrappedValue] at space
            rw [wrapped, wrappedValue, if_neg kind]
            have keys := (Int.toNat_of_nonneg low).symm
            have values := (Int.toNat_of_nonneg lowValue).symm
            exact ⟨values, keys, space.symm, keys, values⟩

/-- The space that is reserved for a stage is what its tables are given. -/
theorem Countable.stageSpace (countable : Countable tables stage) {space : Int → Space}
    (known : ∀ entry ∈ tables, entry.2.space = some (space entry.2.tableId))
    (isTable : ∀ tableId ∈ stage.tableId, tableId ∈ tables.map fun entry => entry.2.tableId) :
    (stageSpace space stage).sram =
      ((stage.tableId.map fun tableId => (tables.given tableId).sram).sum : Nat) ∧
      (stageSpace space stage).tcam =
        ((stage.tableId.map fun tableId => (tables.given tableId).tcam).sum : Nat) := by
  have total : ∀ {measure : Space → Int} {given : Counters → Nat}, measure .zero = 0 →
      (∀ first second : Space, measure (first.add second) = wrapInt (measure first + measure second)) →
      (∀ tableId ∈ stage.tableId, measure (space tableId) = given (tables.given tableId)) →
      (∀ tableId ∈ stage.tableId, measure (tables.size tableId) = given (tables.given tableId)) →
      (stage.tableId.map fun tableId => measure (tables.size tableId)).sum < 2 ^ 31 →
      measure (Memory.stageSpace space stage) =
          ((stage.tableId.map fun tableId => given (tables.given tableId)).sum : Nat) := by
    intro measure given zero add same sizes small
    rw [List.map_congr_left sizes] at small
    rw [stageSpace_sum zero add, List.map_congr_left same]
    have cast : (stage.tableId.map fun tableId => (given (tables.given tableId) : Int)).sum =
        ((stage.tableId.map fun tableId => given (tables.given tableId)).sum : Nat) := by
      rw [Nat.cast_list_sum, List.map_map]
      rfl
    rw [cast] at small ⊢
    exact wrapInt_of_small (by omega) small
  have each := fun tableId listed => countable.table known listed (isTable tableId listed)
  constructor
  · refine total rfl (fun _ _ => rfl) (fun tableId listed => ?_) (fun tableId listed =>
      (each tableId listed).1) countable.sram
    rw [(each tableId listed).2.2.1, (each tableId listed).1]
  · refine total rfl (fun _ _ => rfl) (fun tableId listed => ?_) (fun tableId listed =>
      (each tableId listed).2.1) countable.tcam
    rw [(each tableId listed).2.2.1, (each tableId listed).2.1]

end

/-- What the tables of a cluster are given is reserved there. -/
theorem tableRefs_reserved {blocks : Int → Nat} {need : Int → Int} {stages : List Stage} {done : List Int}
    {placement : Placement} (unique : ((liveStages stages).map Stage.stageId).Nodup)
    (ordinary : ∀ stage ∈ liveStages stages, 0 ≤ stage.stageId) (placed : PlacementOf done placement)
    (natural : ∀ id ∈ done, 0 ≤ need id)
    (exact : ∀ stage ∈ liveStages stages, need stage.stageId = ((stage.tableId.map blocks).sum : Nat))
    (all : ∀ stage ∈ liveStages stages, stage.stageId ∈ placement.physicalProcId) (cluster : Nat) :
    (((clusterRefs (tableRefs stages placement.physicalProcId) cluster).map blocks).sum : Nat) ≤
      ((placement.clusterProc.getD cluster []).map need).sum := by
  have total : ∀ here : List Stage, (∀ stage ∈ here, stage ∈ liveStages stages) →
      (((here.flatMap Stage.tableId).map blocks).sum : Nat) = ((here.map Stage.stageId).map need).sum := by
    intro here listed
    induction here with
    | nil => rfl
    | cons stage rest ih =>
        rw [List.flatMap_cons, List.map_append, List.sum_append, Nat.cast_add, ih fun other member =>
          listed other (List.mem_cons_of_mem _ member), List.map_cons, List.map_cons, List.sum_cons,
          exact stage (listed stage List.mem_cons_self)]
  let here := (liveStages stages).filter fun stage =>
    procCluster placement.physicalProcId stage.stageId = cluster
  have inside : here.map Stage.stageId ⊆ placement.clusterProc.getD cluster [] := by
    intro id member
    obtain ⟨stage, isHere, rfl⟩ := List.mem_map.mp member
    obtain ⟨live, same⟩ := List.mem_filter.mp isHere
    have isCluster := placed.mem_cluster (ordinary stage live) (all stage live)
    rwa [of_decide_eq_true same] at isCluster
  have nodup : (here.map Stage.stageId).Nodup := unique.sublist (List.filter_sublist.map _)
  obtain ⟨part, perm, sublist⟩ := List.subperm_of_subset nodup inside
  rw [clusterRefs_tableRefs, total here fun stage member => (List.mem_filter.mp member).1,
    ← (perm.map _).sum_eq]
  refine (sublist.map _).sum_le_sum fun number member => ?_
  obtain ⟨id, isId, rfl⟩ := List.mem_map.mp member
  exact natural id (placed.members cluster id isId)

end Memory

end Ipbm.Compiler
