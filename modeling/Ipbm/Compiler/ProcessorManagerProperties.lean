import Ipbm.Compiler.ProcessorManager
import Ipbm.Compiler.Distribution
import Ipbm.Lib.Traversal
import Mathlib.Data.List.Induction
import Mathlib.Data.List.Forall2
import Mathlib.Data.List.Nodup

/-! Numbers of the stages after `initializeStages`: the stages that stay are
numbered from zero in the order of declaration, and every reference is a number
of such a stage or the end of the pipeline. -/

set_option autoImplicit false

namespace Ipbm.Compiler
open Lib

namespace ProcessorManager
open Distribution (liveStages)

/-! ### Maps with `insert` -/

theorem insertNew_of_some {map : Int → Option Int} {key found : Int} (present : map key = some found)
    (other value : Int) : insertNew map other value key = some found := by
  unfold insertNew
  split
  · exact present
  · next missing =>
      have different : key ≠ other := by
        intro same
        subst same
        simp [present] at missing
      rw [Function.update_of_ne different, present]

theorem insertNew_self {map : Int → Option Int} {key : Int} (missing : map key = none) (value : Int) :
    insertNew map key value key = some value := by
  simp [insertNew, missing]

theorem insertNew_cases {map : Int → Option Int} {key value other found : Int}
    (present : insertNew map key value other = some found) :
    map other = some found ∨ other = key ∧ map key = none ∧ found = value := by
  unfold insertNew at present
  split at present
  · exact .inl present
  · next missing =>
      by_cases same : other = key
      · subst same
        rw [Function.update_self] at present
        cases present
        exact .inr ⟨rfl, by simpa using missing, rfl⟩
      · rw [Function.update_of_ne same] at present
        exact .inl present

/-! ### Numbering -/

/-- A stage number, or the end of the pipeline. -/
def ValidRef (count : Nat) (reference : Int) : Prop :=
  reference = -1 ∨ 0 ≤ reference ∧ reference < count

structure Renumbering (count : Nat) (map : Int → Option Int) : Prop where
  ending : map (-1) = some (-1)
  bounded : ∀ key value, map key = some value → key = -1 ∧ value = -1 ∨ 0 ≤ value ∧ value < count

theorem Renumbering.validRef {count : Nat} {map : Int → Option Int} (valid : Renumbering count map)
    (positive : 0 < count) (key : Int) : ValidRef count ((map key).getD 0) := by
  cases found : map key with
  | none => exact .inr ⟨le_rfl, Int.natCast_pos.mpr positive⟩
  | some value =>
      obtain ⟨_, rfl⟩ | bounds := valid.bounded key value found
      · exact .inl rfl
      · exact .inr bounds

private theorem liveStages_concat (stages : List Stage) (stage : Stage) :
    liveStages (stages ++ [stage]) = liveStages stages ++ if stage.removed then [] else [stage] := by
  cases removed : stage.removed <;> simp [liveStages, removed]

private theorem numberStages_concat (stages : List Stage) (stage : Stage) :
    numberStages (stages ++ [stage]) =
      if stage.removed then numberStages stages
      else (insertNew (numberStages stages).1 stage.stageId (numberStages stages).2,
        (numberStages stages).2 + 1) := by
  simp [numberStages]

/-- Counting the stages that stay. -/
structure Counted (stages : List Stage) (numbering : (Int → Option Int) × Int) : Prop where
  count : numbering.2 = (liveStages stages).length
  renumbering : Renumbering (liveStages stages).length numbering.1
  numbered : (liveStages stages).map (fun stage => numbering.1 stage.stageId) =
    (List.range (liveStages stages).length).map fun (position : Nat) => some (position : Int)
  keys : ∀ key value, numbering.1 key = some value →
    key = -1 ∨ key ∈ (liveStages stages).map Stage.stageId

private theorem counted_nil : Counted [] (numberStages []) := by
  have only : ∀ key value, (numberStages []).1 key = some value → key = -1 ∧ value = -1 := by
    intro key value found
    obtain missing | ⟨same, _, number⟩ :=
      insertNew_cases (show insertNew (fun _ => none) (-1) (-1) key = some value from found)
    · cases missing
    · exact ⟨same, number⟩
  exact ⟨rfl, ⟨rfl, fun key value found => .inl (only key value found)⟩, rfl,
    fun key value found => .inl (only key value found).1⟩

private theorem Counted.skip {stages : List Stage} {stage : Stage} {numbering : (Int → Option Int) × Int}
    (counted : Counted stages numbering) (removed : stage.removed = true) :
    Counted (stages ++ [stage]) numbering := by
  have same : liveStages (stages ++ [stage]) = liveStages stages := by
    simp [liveStages_concat, removed]
  exact ⟨same ▸ counted.count, same ▸ counted.renumbering, same ▸ counted.numbered, same ▸ counted.keys⟩

private theorem Counted.fresh {stages : List Stage} {stageId : Int} {numbering : (Int → Option Int) × Int}
    (counted : Counted stages numbering) (nonneg : 0 ≤ stageId) (new : stageId ∉ stages.map Stage.stageId) :
    numbering.1 stageId = none := by
  cases found : numbering.1 stageId with
  | none => rfl
  | some value =>
      obtain ending | member := counted.keys _ _ found
      · omega
      · obtain ⟨other, live, same⟩ := List.mem_map.mp member
        exact absurd (List.mem_map.mpr ⟨other, (List.mem_filter.mp live).1, same⟩) new

private theorem Counted.numbered_insertNew {stages : List Stage} {numbering : (Int → Option Int) × Int}
    (counted : Counted stages numbering) (stageId number : Int) :
    (liveStages stages).map (fun stage => insertNew numbering.1 stageId number stage.stageId) =
      (liveStages stages).map fun stage => numbering.1 stage.stageId := by
  apply List.map_congr_left
  intro other member
  obtain ⟨position, inside, found⟩ := List.mem_iff_getElem.mp member
  have value := congrArg (fun values => values[position]?) counted.numbered
  simp only [List.getElem?_map, List.getElem?_eq_getElem inside, found, Option.map_some,
    List.getElem?_range inside, Option.some.injEq] at value
  rw [value]
  exact insertNew_of_some value _ _

private theorem Counted.add {stages : List Stage} {stage : Stage} {numbering : (Int → Option Int) × Int}
    (counted : Counted stages numbering) (kept : stage.removed = false)
    (fresh : numbering.1 stage.stageId = none) :
    Counted (stages ++ [stage]) (insertNew numbering.1 stage.stageId numbering.2, numbering.2 + 1) := by
  have longer : (liveStages (stages ++ [stage])).length = (liveStages stages).length + 1 := by
    simp [liveStages_concat, kept]
  have count := counted.count
  refine ⟨?_, ⟨insertNew_of_some counted.renumbering.ending _ _, ?_⟩, ?_, ?_⟩
  · rw [longer, count]
    rfl
  · intro key value found
    rw [longer]
    obtain old | ⟨rfl, _, rfl⟩ := insertNew_cases found
    · obtain ending | ⟨low, high⟩ := counted.renumbering.bounded _ _ old
      · exact .inl ending
      · exact .inr ⟨low, by omega⟩
    · exact .inr ⟨by omega, by omega⟩
  · rw [longer, List.range_succ, List.map_append, liveStages_concat, kept]
    simp only [Bool.false_eq_true, if_false, List.map_append, List.map_cons, List.map_nil,
      insertNew_self fresh, counted.numbered_insertNew, counted.numbered, count]
  · intro key value found
    obtain old | ⟨rfl, _⟩ := insertNew_cases found
    · obtain ending | member := counted.keys _ _ old
      · exact .inl ending
      · exact .inr (by simp [liveStages_concat, member])
    · exact .inr (by simp [liveStages_concat, kept])

theorem numberStages_counted {stages : List Stage} (unique : (stages.map Stage.stageId).Nodup)
    (ordinary : ∀ stage ∈ stages, 0 ≤ stage.stageId) : Counted stages (numberStages stages) := by
  induction stages using List.reverseRecOn with
  | nil => exact counted_nil
  | append_singleton stages stage ih =>
      rw [List.map_append, List.nodup_append] at unique
      obtain ⟨uniqueBefore, _, separate⟩ := unique
      have counted := ih uniqueBefore fun other member => ordinary other (List.mem_append_left _ member)
      rw [numberStages_concat]
      cases removed : stage.removed with
      | true =>
          rw [if_pos rfl]
          exact counted.skip removed
      | false =>
          rw [if_neg Bool.false_ne_true]
          refine counted.add removed (counted.fresh (ordinary stage (by simp)) ?_)
          intro member
          exact separate _ member _ (by simp) rfl

/-! ### Chains of removed stages -/

/-- Stages that stay are untouched, removed ones stay removed. -/
def SameLive (before after : List Stage) : Prop :=
  List.Forall₂ (fun old new => if old.removed then new.removed = true else new = old) before after

theorem SameLive.refl (stages : List Stage) : SameLive stages stages := by
  refine List.forall₂_same.mpr fun stage _ => ?_
  split <;> simp_all

theorem SameLive.trans {first second third : List Stage} (front : SameLive first second)
    (back : SameLive second third) : SameLive first third := by
  unfold SameLive at *
  induction front generalizing third with
  | nil => exact back
  | cons head _ ih =>
      cases back with
      | cons next rest =>
          refine .cons ?_ (ih rest)
          split at head
          · simpa [*] using next
          · next stays =>
              subst head
              simpa [stays] using next

theorem SameLive.liveStages_eq {before after : List Stage} (same : SameLive before after) :
    liveStages after = liveStages before := by
  unfold SameLive at same
  induction same with
  | nil => rfl
  | @cons old new _ _ head _ ih =>
      unfold liveStages at *
      cases removed : old.removed with
      | true =>
          rw [removed, if_pos rfl] at head
          simp [head, removed, ih]
      | false =>
          rw [removed, if_neg Bool.false_ne_true] at head
          subst head
          simp [removed, ih]

private theorem sameLive_set {stages : List Stage} {position : Nat} {x y : Stage}
    (here : stages[position]? = some x) (removed : x.removed = true) (copied : y.removed = true) :
    SameLive stages (stages.set position y) := by
  induction stages generalizing position with
  | nil => cases here
  | cons stage rest ih =>
      cases position with
      | zero =>
          cases here
          refine .cons ?_ (SameLive.refl rest)
          rw [removed, if_pos rfl, copied]
      | succ position =>
          refine .cons ?_ (ih here)
          split <;> simp_all

theorem stageAt_mem {stages : List Stage} {position : Int} {stage : Stage}
    (found : stageAt stages position = some stage) : stage ∈ stages := by
  unfold stageAt at found
  split at found
  · exact List.mem_of_getElem? found
  · cases found

/-- What the loop over the removed stages leaves as it was: the stages that stay, the numbers
they have and the bounds of all numbers. -/
structure Followed (before after : List Stage × (Int → Option Int)) (count : Nat) : Prop where
  same : SameLive before.1 after.1
  copies : ∀ stage ∈ after.1, stage ∈ before.1
  extends_ : ∀ key value, before.2 key = some value → after.2 key = some value
  renumbering : Renumbering count after.2

private theorem followGoto_followed {gotoMap : GotoMap} {position fuel count : Nat}
    {state result : List Stage × (Int → Option Int)}
    (counted : ∀ stage ∈ state.1, stage.removed = false → 0 < count)
    (ordinary : ∀ stage ∈ state.1, 0 ≤ stage.stageId) (valid : Renumbering count state.2)
    (done : followGoto gotoMap position fuel state = some result) : Followed state result count := by
  induction fuel generalizing state with
  | zero => cases done
  | succ fuel ih =>
      obtain ⟨stages, map⟩ := state
      simp only [followGoto, Option.bind_eq_bind, Option.bind_eq_some_iff] at done
      obtain ⟨x, here, done⟩ := done
      split at done
      · next removed =>
          obtain ⟨y, there, done⟩ := Option.bind_eq_some_iff.mp done
          have member : y ∈ stages := stageAt_mem there
          split at done
          · next copied =>
              have old : ∀ stage ∈ stages.set position y, stage ∈ stages := by
                intro stage inSet
                obtain before | rfl := List.mem_or_eq_of_mem_set inSet
                · exact before
                · exact member
              have steps :=
                @ih (stages.set position y, map) (fun stage inSet => counted stage (old stage inSet))
                (fun stage inSet => ordinary stage (old stage inSet)) valid done
              exact ⟨(sameLive_set here removed copied).trans steps.same,
                fun stage inResult => old stage (steps.copies stage inResult), steps.extends_,
                steps.renumbering⟩
          · next live =>
            cases done
            have nonneg : 0 ≤ x.stageId := ordinary x (List.mem_of_getElem? here)
            refine ⟨SameLive.refl stages, fun _ inside => inside,
              fun key value found => insertNew_of_some found _ _,
              ⟨insertNew_of_some valid.ending _ _, ?_⟩⟩
            intro key value found
            obtain old | ⟨rfl, _, rfl⟩ := insertNew_cases found
            · exact valid.bounded key value old
            · right
              have ordinaryY : 0 ≤ y.stageId := ordinary y member
              cases known : map y.stageId with
              | none => exact ⟨le_rfl, Int.natCast_pos.mpr (counted y member (by simpa using live))⟩
              | some number =>
                  obtain ⟨ending, _⟩ | bounds := valid.bounded _ _ known
                  · omega
                  · exact bounds
      · cases done
        exact ⟨SameLive.refl stages, fun _ inside => inside,
          fun _ _ found => found, valid⟩

theorem reorderMap_followed {gotoMap : GotoMap} {stages : List Stage}
    {result : List Stage × (Int → Option Int)} (unique : (stages.map Stage.stageId).Nodup)
    (ordinary : ∀ stage ∈ stages, 0 ≤ stage.stageId) (done : reorderMap gotoMap stages = some result) :
    Followed (stages, (numberStages stages).1) result (liveStages stages).length := by
  have counted := numberStages_counted unique ordinary
  refine foldlM_preserves (fun state => Followed (stages, (numberStages stages).1) state _) ?_ done
    ⟨SameLive.refl stages, fun _ inside => inside, fun _ _ found => found, counted.renumbering⟩
  intro state position after _ before step
  have positive : ∀ stage ∈ state.1, stage.removed = false → 0 < (liveStages stages).length := by
    intro stage member live
    exact List.length_pos_of_mem (List.mem_filter.mpr ⟨before.copies stage member, by simp [live]⟩)
  have steps := followGoto_followed positive (fun stage member => ordinary stage (before.copies stage member))
    before.renumbering step
  exact ⟨before.same.trans steps.same, fun stage member => before.copies stage (steps.copies stage member),
    fun key value found => steps.extends_ key value (before.extends_ key value found), steps.renumbering⟩

/-! ### Removal keeps the stages in place -/

/-- What no removal changes. -/
def identity (stage : Stage) : Int × StageDef × List Int := (stage.stageId, stage.definition, stage.tableId)

private theorem redirectStage_identity {stageId nextStageId : Int} {actionName : String}
    {actions after : ActionManager} {conflict flag : Bool} {stage result : Stage}
    (done : redirectStage stageId nextStageId actionName actions conflict stage =
      some (result, after, flag)) :
    identity result = identity stage := by
  unfold redirectStage at done
  split at done
  · cases done
    rfl
  · obtain ⟨⟨actionProc, middle, seen⟩, _, done⟩ := Option.bind_eq_some_iff.mp done
    cases done
    rfl

theorem redirectStages_identity {stageId nextStageId : Int} {actionName : String}
    {actions after : ActionManager} {conflict flag : Bool} {stages result : List Stage}
    (done : redirectStages stageId nextStageId actionName actions conflict stages =
      some (result, after, flag)) :
    result.map identity = stages.map identity := by
  induction stages generalizing actions conflict result with
  | nil =>
      cases done
      rfl
  | cons stage rest ih =>
      rw [redirectStages] at done
      obtain ⟨⟨first, middle, seen⟩, here, done⟩ := Option.bind_eq_some_iff.mp done
      obtain ⟨⟨others, final, last⟩, later, done⟩ := Option.bind_eq_some_iff.mp done
      cases done
      rw [List.map_cons, List.map_cons, redirectStage_identity here, ih later]

theorem modify_removed_identity (stages : List Stage) (position : Nat) :
    (stages.modify position fun stage => { stage with removed := true }).map identity =
      stages.map identity := by
  induction stages generalizing position with
  | nil => simp
  | cons stage rest ih =>
      cases position with
      | zero => rfl
      | succ position => simp [ih]

theorem removeStage_identity {state result : StageState × GotoMap} {position : Nat}
    (done : removeStage state position = some result) :
    result.1.stages.logicalStages.map identity = state.1.stages.logicalStages.map identity ∧
      result.1.stages.names = state.1.stages.names := by
  obtain ⟨stage, _, done⟩ := Option.bind_eq_some_iff.mp done
  split at done
  · cases done
    exact ⟨rfl, rfl⟩
  · obtain ⟨action, _, done⟩ := Option.bind_eq_some_iff.mp done
    split at done
    · cases done
      exact ⟨rfl, rfl⟩
    · obtain ⟨⟨stages, actions, conflict⟩, redirected, done⟩ := Option.bind_eq_some_iff.mp done
      have same := redirectStages_identity redirected
      dsimp only at done
      split at done
      · cases done
        exact ⟨same, rfl⟩
      · cases done
        exact ⟨(modify_removed_identity stages position).trans same, rfl⟩

theorem removeStages_identity {state : StageState} {result : StageState × GotoMap}
    (done : removeStages state = some result) :
    result.1.stages.logicalStages.map identity = state.stages.logicalStages.map identity ∧
      result.1.stages.names = state.stages.names := by
  refine foldlM_preserves (fun after : StageState × GotoMap =>
    after.1.stages.logicalStages.map identity = state.stages.logicalStages.map identity ∧
      after.1.stages.names = state.stages.names) ?_ done ⟨rfl, rfl⟩
  intro before position after _ same step
  obtain ⟨stages, names⟩ := removeStage_identity step
  exact ⟨stages.trans same.1, names.trans same.2⟩

/-! ### Stages after the pass -/

theorem addStage_positions {stages : StageManager} (stageDef : StageDef)
    (positions : stages.logicalStages.map Stage.stageId =
      (List.range stages.logicalStages.length).map fun (position : Nat) => (position : Int)) :
    (stages.addStage stageDef).logicalStages.map Stage.stageId =
      (List.range (stages.addStage stageDef).logicalStages.length).map fun (position : Nat) =>
        (position : Int) := by
  unfold StageManager.addStage
  split
  · exact positions
  · simp [List.range_succ, positions]

theorem load_positions (ast : Ast) :
    (StageManager.load ast).logicalStages.map Stage.stageId =
      (List.range (StageManager.load ast).logicalStages.length).map fun (position : Nat) =>
        (position : Int) := by
  unfold StageManager.load
  induction ast.ingress ++ ast.egress using List.reverseRecOn with
  | nil => rfl
  | append_singleton stageDefs stageDef ih =>
      rw [List.foldl_append]
      exact addStage_positions stageDef ih

/-- The numbers of the stages that stay, and the references to them. -/
structure Numbered (stages : List Stage) : Prop where
  live : (liveStages stages).map Stage.stageId =
    (List.range (liveStages stages).length).map fun (position : Nat) => (position : Int)
  ids : 0 < (liveStages stages).length →
    ∀ stage ∈ stages, 0 ≤ stage.stageId ∧ stage.stageId < (liveStages stages).length
  references : 0 < (liveStages stages).length →
    ∀ stage ∈ stages, ∀ pair ∈ stage.actionProc, ValidRef (liveStages stages).length pair.2

/-- What the numbering is about. -/
def numberView (stage : Stage) : Int × Bool × List (Int × Int) :=
  (stage.stageId, stage.removed, stage.actionProc)

private theorem liveStages_view (stages : List Stage) :
    (liveStages stages).map numberView = (stages.map numberView).filter fun view => !view.2.1 := by
  rw [List.filter_map]
  rfl

theorem liveStages_length_congr {first second : List Stage}
    (same : second.map numberView = first.map numberView) :
    (liveStages second).length = (liveStages first).length := by
  have views : (liveStages second).map numberView = (liveStages first).map numberView := by
    rw [liveStages_view, liveStages_view, same]
  simpa using congrArg List.length views

theorem Numbered.congr {first second : List Stage} (same : second.map numberView = first.map numberView)
    (numbered : Numbered first) : Numbered second := by
  have views : (liveStages second).map numberView = (liveStages first).map numberView := by
    rw [liveStages_view, liveStages_view, same]
  have length := liveStages_length_congr same
  have old : ∀ stage ∈ second, ∃ source ∈ first, numberView source = numberView stage := by
    intro stage member
    have inViews : numberView stage ∈ first.map numberView := same ▸ List.mem_map_of_mem member
    exact List.mem_map.mp inViews
  refine ⟨?_, ?_, ?_⟩
  · rw [length, ← numbered.live]
    simpa [Function.comp_def, numberView] using congrArg (List.map Prod.fst) views
  · intro positive stage member
    obtain ⟨source, inFirst, equal⟩ := old stage member
    rw [length] at positive ⊢
    have number : source.stageId = stage.stageId := congrArg Prod.fst equal
    exact number ▸ numbered.ids positive source inFirst
  · intro positive stage member pair inside
    obtain ⟨source, inFirst, equal⟩ := old stage member
    rw [length] at positive ⊢
    have pairs : source.actionProc = stage.actionProc := congrArg (fun view => view.2.2) equal
    exact numbered.references positive source inFirst pair (pairs ▸ inside)

theorem liveStages_reorder (stages : List Stage) (procProc : Int → Option Int) :
    liveStages (reorderStages stages procProc) = reorderStages (liveStages stages) procProc := by
  unfold liveStages reorderStages
  rw [List.filter_map]
  rfl

private theorem generateTables_view {tables : TableManager} {stages result : List Stage}
    (done : generateTables tables stages = some result) : result.map numberView = stages.map numberView := by
  unfold generateTables at done
  induction stages generalizing result with
  | nil =>
      cases done
      rfl
  | cons stage rest ih =>
      obtain ⟨first, others, here, later, rfl⟩ := mapM_cons_some done
      obtain ⟨ids, _, here⟩ := Option.bind_eq_some_iff.mp here
      cases here
      rw [List.map_cons, List.map_cons, ih later]
      rfl

theorem reordered_numbered {stages after : List Stage} {map : Int → Option Int}
    (unique : (stages.map Stage.stageId).Nodup) (ordinary : ∀ stage ∈ stages, 0 ≤ stage.stageId)
    (followed : Followed (stages, (numberStages stages).1) (after, map) (liveStages stages).length) :
    Numbered (reorderStages after map) := by
  have counted := numberStages_counted unique ordinary
  have live : liveStages (reorderStages after map) = reorderStages (liveStages stages) map := by
    rw [liveStages_reorder, followed.same.liveStages_eq]
  have length : (liveStages (reorderStages after map)).length = (liveStages stages).length := by
    rw [live, reorderStages, List.length_map]
  refine ⟨?_, ?_, ?_⟩
  · rw [length, live, reorderStages, List.map_map]
    have numbers : ∀ stage ∈ liveStages stages, ∃ number, (numberStages stages).1 stage.stageId =
        some number := by
      intro stage member
      have inside : (numberStages stages).1 stage.stageId ∈ (List.range (liveStages stages).length).map
          fun (position : Nat) => some (position : Int) := by
        rw [← counted.numbered]
        exact List.mem_map_of_mem (f := fun stage : Stage => (numberStages stages).1 stage.stageId) member
      obtain ⟨position, _, number⟩ := List.mem_map.mp inside
      exact ⟨position, number.symm⟩
    have unwrapped := congrArg (List.map fun number : Option Int => number.getD 0) counted.numbered
    rw [List.map_map, List.map_map] at unwrapped
    refine Eq.trans (List.map_congr_left ?_) unwrapped
    intro stage member
    obtain ⟨number, found⟩ := numbers stage member
    have extended : map stage.stageId = some number := followed.extends_ _ _ found
    simp [found, extended]
  · intro positive stage member
    rw [length] at positive ⊢
    obtain ⟨source, inside, rfl⟩ := List.mem_map.mp member
    have nonneg := ordinary source (followed.copies source inside)
    obtain ending | bounds := followed.renumbering.validRef positive source.stageId
    · change (map source.stageId).getD 0 = -1 at ending
      cases found : map source.stageId with
      | none => simp [found] at ending
      | some value =>
          obtain ⟨minus, _⟩ | ⟨low, _⟩ := followed.renumbering.bounded _ _ found
          · omega
          · rw [found, Option.getD_some] at ending
            omega
    · exact bounds
  · intro positive stage member pair inside
    rw [length] at positive ⊢
    obtain ⟨source, _, rfl⟩ := List.mem_map.mp member
    obtain ⟨before, _, rfl⟩ := List.mem_map.mp inside
    exact followed.renumbering.validRef positive before.2

/-- Removal leaves every stage with its position as id. -/
theorem removed_positions {state : StageState} {result : StageState × GotoMap}
    (positions : state.stages.logicalStages.map Stage.stageId =
      (List.range state.stages.logicalStages.length).map fun (position : Nat) => (position : Int))
    (removed : removeStages (fillActionProc state) = some result) :
    (result.1.stages.logicalStages.map Stage.stageId).Nodup ∧
      ∀ stage ∈ result.1.stages.logicalStages, 0 ≤ stage.stageId := by
  have ids : result.1.stages.logicalStages.map Stage.stageId =
      (List.range state.stages.logicalStages.length).map fun (position : Nat) => (position : Int) := by
    have same := congrArg (List.map Prod.fst) (removeStages_identity removed).1
    rw [List.map_map, List.map_map] at same
    rw [← positions]
    simpa [Function.comp_def, identity, fillActionProc] using same
  refine ⟨?_, ?_⟩
  · rw [ids]
    exact List.nodup_range.map fun _ _ equal => Int.ofNat.inj equal
  · intro stage member
    have inside : stage.stageId ∈ result.1.stages.logicalStages.map Stage.stageId :=
      List.mem_map_of_mem member
    rw [ids] at inside
    obtain ⟨position, _, equal⟩ := List.mem_map.mp inside
    exact equal ▸ Int.natCast_nonneg position

theorem initializeStages_numbered {tables : TableManager} {state result : StageState}
    (positions : state.stages.logicalStages.map Stage.stageId =
      (List.range state.stages.logicalStages.length).map fun (position : Nat) => (position : Int))
    (done : initializeStages tables state = some result) : Numbered result.stages.logicalStages := by
  obtain ⟨⟨removedState, gotoMap⟩, removed, done⟩ := Option.bind_eq_some_iff.mp done
  obtain ⟨⟨stages, map⟩, reordered, done⟩ := Option.bind_eq_some_iff.mp done
  obtain ⟨final, generated, done⟩ := Option.bind_eq_some_iff.mp done
  cases done
  obtain ⟨unique, ordinary⟩ := removed_positions positions removed
  exact (reordered_numbered unique ordinary (reorderMap_followed unique ordinary reordered)).congr
    (generateTables_view generated)

end ProcessorManager

end Ipbm.Compiler
