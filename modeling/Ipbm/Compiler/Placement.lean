import Ipbm.Compiler.MemoryProperties

/-! The greedy placement of a full compile: what the physical processors hold when
the loop over the stages has ended. -/

set_option autoImplicit false

namespace Ipbm.Compiler.Memory
open Lib IpsaConfiguration

/-- A physical processor without a stage is marked with -1. -/
def Holds (placement : Placement) (processor : Nat) (stageId : Int) : Prop :=
  placement.physicalProcId[processor]? = some stageId ∧ 0 ≤ stageId

/-- The stages that the processors of a cluster hold, in the order of the processors. -/
def clusterStages (placement : Placement) (cluster : Nat) : List Int :=
  (clusterProcs placement.physicalProcId cluster).filter fun stageId => 0 ≤ stageId

/-- The blocks of one kind that the stages of a cluster need. -/
def clusterNeed (measure : Space → Int) (need : Int → Space) (placement : Placement) (cluster : Nat) : Int :=
  ((clusterStages placement cluster).map fun stageId => measure (need stageId)).sum

/-- A cluster that cannot take a stage: no processor is free, or too few blocks of a kind are. -/
def Lacks (need : Int → Space) (placement : Placement) (stageId : Int) (cluster : Nat) : Prop :=
  clusterProcCount ≤ (clusterStages placement cluster).length ∨
    clusterSramCount < clusterNeed Space.sram need placement cluster + (need stageId).sram ∨
    clusterTcamCount < clusterNeed Space.tcam need placement cluster + (need stageId).tcam

/-! ### Clusters -/

/-- A stage in a cluster stays there. -/
theorem mem_clusterProc_placeStage {need : Int → Space} {placement : Placement} {cluster : Nat}
    {stageId : Int} (member : stageId ∈ placement.clusterProc.getD cluster []) (other : Int) :
    stageId ∈ (placeStage need placement other).clusterProc.getD cluster [] := by
  unfold placeStage
  split
  · exact member
  · next target found =>
      rw [List.getD_eq_getElem?_getD] at member ⊢
      rw [List.getElem?_modify]
      cases here : placement.clusterProc[cluster]? with
      | none => rw [here] at member; cases member
      | some procs =>
          rw [here, Option.getD_some] at member
          by_cases same : target = cluster
          · simp [same, member]
          · simp [same, member]

theorem mem_clusterProc_placeStages {need : Int → Space} {placement : Placement} {cluster : Nat}
    {stageId : Int} (member : stageId ∈ placement.clusterProc.getD cluster []) (sequence : List Int) :
    stageId ∈ (sequence.foldl (placeStage need) placement).clusterProc.getD cluster [] := by
  induction sequence generalizing placement with
  | nil => exact member
  | cons other rest ih => exact ih (mem_clusterProc_placeStage member other)

private theorem placeStage_short {need : Int → Space} {placement : Placement} (cluster : Nat)
    (short : (placement.clusterProc.getD cluster []).length ≤ clusterProcCount) (stageId : Int) :
    ((placeStage need placement stageId).clusterProc.getD cluster []).length ≤ clusterProcCount := by
  unfold placeStage
  split
  · exact short
  · next target found =>
      have room := List.find?_some found
      simp only [fits, Bool.and_eq_true, decide_eq_true_eq] at room
      obtain ⟨⟨free, _⟩, _⟩ := room
      by_cases inside : target < placement.clusterProc.length
      · rw [getD_modify _ _ _ _ _ inside]
        split
        · rw [List.length_append, List.length_singleton]
          exact free
        · exact short
      · rw [List.modify_eq_self (Nat.le_of_not_lt inside)]
        exact short

theorem placeStages_short (need : Int → Space) (sequence : List Int) (cluster : Nat) :
    ((placeStages need sequence).clusterProc.getD cluster []).length ≤ clusterProcCount := by
  induction sequence using List.reverseRecOn with
  | nil =>
      simp only [placeStages, List.foldl_nil, emptyPlacement, List.getD_eq_getElem?_getD,
        List.getElem?_replicate]
      split <;> exact Nat.zero_le _
  | append_singleton sequence stageId ih =>
      rw [placeStages, List.foldl_append]
      exact placeStage_short cluster ih stageId

section

variable {need : Int → Space} {sequence : List Int} {placement : Placement}

/-- The processors of a cluster hold its stages in their order, and those behind them none. -/
theorem PlacementOf.clusterProcs_eq (placed : PlacementOf sequence placement) {cluster : Nat}
    (inside : cluster < clusterCount)
    (short : (placement.clusterProc.getD cluster []).length ≤ clusterProcCount) :
    clusterProcs placement.physicalProcId cluster = placement.clusterProc.getD cluster [] ++
      List.replicate (clusterProcCount - (placement.clusterProc.getD cluster []).length) (-1) := by
  refine List.ext_getElem? fun offset => ?_
  rw [clusterProcs, List.getElem?_take, List.getElem?_append, List.getElem?_replicate]
  by_cases small : offset < clusterProcCount
  · rw [if_pos small, List.getElem?_drop, placed.cells cluster inside offset small]
    by_cases before : offset < (placement.clusterProc.getD cluster []).length
    · rw [if_pos before, List.getElem?_eq_getElem before, Option.getD_some]
    · rw [if_neg before, if_pos (by omega), List.getElem?_eq_none (Nat.le_of_not_lt before), Option.getD_none]
  · have long : clusterProcCount ≤ offset := Nat.le_of_not_lt small
    rw [if_neg small, if_neg (by omega), if_neg (by omega)]

theorem PlacementOf.clusterStages_eq (placed : PlacementOf sequence placement)
    (stages : ∀ stageId ∈ sequence, 0 ≤ stageId) {cluster : Nat} (inside : cluster < clusterCount)
    (short : (placement.clusterProc.getD cluster []).length ≤ clusterProcCount) :
    clusterStages placement cluster = placement.clusterProc.getD cluster [] := by
  have ordinary : ∀ stageId ∈ placement.clusterProc.getD cluster [], decide (0 ≤ stageId) = true :=
    fun stageId member => decide_eq_true (stages stageId (placed.members cluster stageId member))
  rw [clusterStages, placed.clusterProcs_eq inside short, List.filter_append,
    List.filter_eq_self.mpr ordinary, List.filter_replicate]
  simp

theorem PlacementOf.holds_iff (placed : PlacementOf sequence placement) {cluster offset : Nat} {stageId : Int}
    (inside : cluster < clusterCount) (small : offset < clusterProcCount) (ordinary : 0 ≤ stageId) :
    Holds placement (cluster * clusterProcCount + offset) stageId ↔
      (placement.clusterProc.getD cluster [])[offset]? = some stageId := by
  rw [Holds, placed.cells cluster inside offset small]
  cases here : (placement.clusterProc.getD cluster [])[offset]? with
  | none =>
      simp only [Option.getD_none, Option.some.injEq, reduceCtorEq, iff_false, not_and]
      rintro rfl
      exact fun negative => absurd negative (by decide)
  | some other => simp [ordinary]

theorem PlacementOf.holds_of_mem (placed : PlacementOf sequence placement) {cluster : Nat} {stageId : Int}
    (inside : cluster < clusterCount) (ordinary : 0 ≤ stageId)
    (short : (placement.clusterProc.getD cluster []).length ≤ clusterProcCount)
    (member : stageId ∈ placement.clusterProc.getD cluster []) :
    ∃ processor, Holds placement processor stageId := by
  obtain ⟨offset, here⟩ := List.mem_iff_getElem?.mp member
  have small : offset < clusterProcCount := Nat.lt_of_lt_of_le (List.getElem?_eq_some_iff.mp here).1 short
  exact ⟨_, (placed.holds_iff inside small ordinary).mpr here⟩

end

/-! ### The whole loop -/

/-- What a placement of a sequence of stages keeps to. -/
structure NeverOvercommits (need : Int → Space) (sequence : List Int) : Prop where
  single : ∀ processor first second, Holds (placeStages need sequence) processor first →
    Holds (placeStages need sequence) processor second → first = second
  once : ∀ stageId first second, Holds (placeStages need sequence) first stageId →
    Holds (placeStages need sequence) second stageId → first = second
  listed : ∀ processor stageId, Holds (placeStages need sequence) processor stageId →
    processor < procCount ∧ stageId ∈ sequence
  unplaced : ∀ before stageId after, sequence = before ++ stageId :: after →
    (∀ processor, ¬ Holds (placeStages need sequence) processor stageId) →
    ∀ cluster < clusterCount, Lacks need (placeStages need before) stageId cluster
  contiguous : ∀ cluster < clusterCount, ∃ count ≤ clusterProcCount, ∀ offset < clusterProcCount,
    (∃ stageId, Holds (placeStages need sequence) (cluster * clusterProcCount + offset) stageId) ↔
      offset < count
  sram : ∀ cluster < clusterCount, clusterNeed Space.sram need (placeStages need sequence) cluster ≤
    clusterSramCount
  tcam : ∀ cluster < clusterCount, clusterNeed Space.tcam need (placeStages need sequence) cluster ≤
    clusterTcamCount

section

variable {need : Int → Space} {sequence : List Int}

private theorem lacks_of_not_fits {placement : Placement} (placed : PlacementOf sequence placement)
    (reserves : Reserves need placement) (stages : ∀ stageId ∈ sequence, 0 ≤ stageId)
    {cluster : Nat} (inside : cluster < clusterCount)
    (short : (placement.clusterProc.getD cluster []).length ≤ clusterProcCount) {stageId : Int}
    (unfit : fits placement (need stageId) cluster ≠ true) : Lacks need placement stageId cluster := by
  obtain ⟨_, sram⟩ := reserves.sram cluster inside
  obtain ⟨_, tcam⟩ := reserves.tcam cluster inside
  rw [Lacks, clusterNeed, clusterNeed, placed.clusterStages_eq stages inside short]
  simp only [fits, ne_eq, Bool.and_eq_true, decide_eq_true_eq, and_imp, not_and, Int.not_le] at unfit
  by_cases free : (placement.clusterProc.getD cluster []).length < clusterProcCount
  · by_cases enough : (need stageId).sram ≤ (placement.clusterSpace.getD cluster .zero).sram
    · have few := unfit free enough
      exact .inr (.inr (by omega))
    · exact .inr (.inl (by omega))
  · exact .inl (Nat.le_of_not_lt free)

private theorem held_of_fits (stages : ∀ stageId ∈ sequence, 0 ≤ stageId) (distinct : sequence.Nodup)
    {before after : List Int} {stageId : Int} (split : sequence = before ++ stageId :: after) {cluster : Nat}
    (inside : cluster < clusterCount) (room : fits (placeStages need before) (need stageId) cluster = true) :
    ∃ processor, Holds (placeStages need sequence) processor stageId := by
  subst split
  obtain ⟨target, found⟩ := Option.isSome_iff_exists.mp
    (List.find?_isSome.mpr ⟨cluster, List.mem_range.mpr inside, room⟩)
  have isTarget : target < clusterCount := List.mem_range.mp (List.mem_of_find?_eq_some found)
  have earlier := placeStages_of need (List.nodup_append.mp distinct).1
  have here : stageId ∈ (placeStage need (placeStages need before) stageId).clusterProc.getD target [] := by
    rw [placeStage, found, getD_modify _ _ _ _ _ (earlier.procs ▸ isTarget), if_pos rfl]
    exact List.mem_append_right _ (List.mem_singleton_self _)
  have kept : stageId ∈ (placeStages need (before ++ stageId :: after)).clusterProc.getD target [] := by
    rw [placeStages, List.foldl_append]
    exact mem_clusterProc_placeStages here after
  exact (placeStages_of need distinct).holds_of_mem isTarget
    (stages stageId (List.mem_append_right _ List.mem_cons_self)) (placeStages_short need _ target) kept

theorem placement_never_overcommits (stages : ∀ stageId ∈ sequence, 0 ≤ stageId) (distinct : sequence.Nodup)
    (natural : ∀ stageId ∈ sequence, (need stageId).Natural) : NeverOvercommits need sequence := by
  have placed := placeStages_of need distinct
  have reserves := placeStages_reserves natural distinct
  have short := placeStages_short need sequence
  have clusters := fun cluster inside => placed.clusterStages_eq stages inside (short cluster)
  constructor
  case single =>
    intro processor first second isFirst isSecond
    exact Option.some.inj (isFirst.1.symm.trans isSecond.1)
  case once =>
    intro stageId first second isFirst isSecond
    exact placed.once isFirst.2 isFirst.1 isSecond.1
  case listed =>
    intro processor stageId held
    have inside := (List.getElem?_eq_some_iff.mp held.1).1
    refine ⟨placed.length ▸ inside, ?_⟩
    cases placed.entries (List.mem_of_getElem? held.1) with
    | inl free =>
        have ordinary := held.2
        omega
    | inr member => exact member
  case unplaced =>
    intro before stageId after split missing cluster inside
    have earlier := placeStages_of need (List.nodup_append.mp (split ▸ distinct)).1
    have members : before ⊆ sequence := fun other member => split ▸ List.mem_append_left _ member
    have reserved := placeStages_reserves (fun other member => natural other (members member))
      (List.nodup_append.mp (split ▸ distinct)).1
    refine lacks_of_not_fits earlier reserved (fun other member =>
      stages other (members member)) inside (placeStages_short need before cluster) fun room => ?_
    obtain ⟨processor, held⟩ := held_of_fits stages distinct split inside room
    exact missing processor held
  case contiguous =>
    intro cluster inside
    refine ⟨_, short cluster, fun offset small => ?_⟩
    constructor
    · rintro ⟨stageId, held⟩
      exact (List.getElem?_eq_some_iff.mp ((placed.holds_iff inside small held.2).mp held)).1
    · intro before
      have member := List.getElem_mem before
      exact ⟨_, (placed.holds_iff inside small (stages _ (placed.members cluster _ member))).mpr
        (List.getElem?_eq_getElem before)⟩
  case sram =>
    intro cluster inside
    obtain ⟨_, total⟩ := reserves.sram cluster inside
    rw [clusterNeed, clusters cluster inside]
    omega
  case tcam =>
    intro cluster inside
    obtain ⟨_, total⟩ := reserves.tcam cluster inside
    rw [clusterNeed, clusters cluster inside]
    omega

/-- Two large stages fill a cluster, a third goes to the next one, and one that no cluster can hold
stays without a processor. -/
theorem placement_of_four_stages :
    let need : Int → Space := fun stageId => if stageId = 7 then ⟨300, 0⟩ else ⟨100, 10⟩
    (∀ stageId ∈ [3, 0, 7, 5], (0 : Int) ≤ stageId) ∧ [3, 0, 7, (5 : Int)].Nodup ∧
      (∀ stageId ∈ [3, 0, 7, (5 : Int)], (need stageId).Natural) ∧ NeverOvercommits need [3, 0, 7, 5] :=
  ⟨by decide, by decide, by decide, placement_never_overcommits (by decide) (by decide) (by decide)⟩

example : (placeStages (fun stageId => if stageId = 7 then ⟨300, 0⟩ else ⟨100, 10⟩) [3, 0, 7,
      5]).physicalProcId =
    [3, 0, -1, -1, 5, -1, -1, -1, -1, -1, -1, -1, -1, -1, -1, -1] := by
  decide

end

end Ipbm.Compiler.Memory
