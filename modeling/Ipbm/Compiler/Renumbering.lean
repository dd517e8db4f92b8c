import Ipbm.Compiler.ProcessorManagerProperties
import Ipbm.Lib.PointerChain

/-! What becomes of the numbers that led to removed stages. The loop behind a removed stage
overwrites the stage with its removed successor, so that only the last removed stage of a chain
is given the number of the stage behind it. -/

set_option autoImplicit false

namespace Ipbm.Compiler
open Lib

namespace ProcessorManager
open Distribution (liveStages)

/-- Where a removed stage leads on to. -/
def gotoNext (gotoMap : GotoMap) (stages : List Stage) (target : Int) : Option Int :=
  if (stageAt stages target).any Stage.removed then gotoMap target else none

abbrev GotoChain (gotoMap : GotoMap) (stages : List Stage) : Int → List Int → Int → Prop :=
  PointerChain (gotoNext gotoMap stages)

abbrev GotoPath (gotoMap : GotoMap) (stages : List Stage) : Int → Int → Prop :=
  Relation.ReflTransGen fun first second => gotoNext gotoMap stages first = some second

/-- Logical stages some of which are removed, with the goto entries of these. -/
structure Removal (gotoMap : GotoMap) (stages : List Stage) : Prop where
  positions : stages.map Stage.stageId = (List.range stages.length).map fun (position : Nat) =>
    (position : Int)
  leads : ∀ stage ∈ stages, stage.removed = true →
    ∃ next, gotoMap stage.stageId = some next ∧ ValidRef stages.length next
  targets : ∀ stage ∈ stages, ∀ pair ∈ stage.actionProc, ValidRef stages.length pair.2

section Positions

variable {gotoMap : GotoMap} {stages : List Stage}

theorem Removal.stageId (removal : Removal gotoMap stages) {position : Nat} {stage : Stage}
    (found : stages[position]? = some stage) : stage.stageId = position := by
  have here := congrArg (fun ids => ids[position]?) removal.positions
  obtain ⟨inside, _⟩ := List.getElem?_eq_some_iff.mp found
  simp only [List.getElem?_map, found, Option.map_some, List.getElem?_range inside, Option.some.injEq] at here
  exact here

theorem Removal.stageAt_self (removal : Removal gotoMap stages) {stage : Stage} (member : stage ∈ stages) :
    stageAt stages stage.stageId = some stage := by
  obtain ⟨position, found⟩ := List.mem_iff_getElem?.mp member
  rw [removal.stageId found, stageAt, if_pos (Int.natCast_nonneg position)]
  simpa using found

theorem Removal.nodup (removal : Removal gotoMap stages) : (stages.map Stage.stageId).Nodup := by
  rw [removal.positions]
  exact List.nodup_range.map fun _ _ equal => Int.ofNat.inj equal

theorem Removal.nonneg (removal : Removal gotoMap stages) {stage : Stage}
    (member : stage ∈ stages) : 0 ≤ stage.stageId := by
  obtain ⟨position, found⟩ := List.mem_iff_getElem?.mp member
  rw [removal.stageId found]
  exact Int.natCast_nonneg position

theorem Removal.gotoNext_removed (removal : Removal gotoMap stages) {stage : Stage} (member : stage ∈ stages)
    (removed : stage.removed = true) : gotoNext gotoMap stages stage.stageId = gotoMap stage.stageId := by
  rw [gotoNext, removal.stageAt_self member, Option.any_some, if_pos removed]

theorem Removal.gotoNext_live (removal : Removal gotoMap stages) {stage : Stage} (member : stage ∈ stages)
    (live : stage.removed = false) : gotoNext gotoMap stages stage.stageId = none := by
  rw [gotoNext, removal.stageAt_self member, Option.any_some, live]
  rfl

/-- A number that leads on is the number of a removed stage. -/
theorem Removal.gotoNext_some (removal : Removal gotoMap stages) {target next : Int}
    (leads : gotoNext gotoMap stages target = some next) :
    ∃ stage ∈ stages, stage.stageId = target ∧ stage.removed = true ∧ gotoMap target = some next ∧
      ValidRef stages.length next := by
  unfold gotoNext at leads
  split at leads
  · next removed =>
      cases found : stageAt stages target with
      | none => simp [found] at removed
      | some stage =>
          simp only [found, Option.any_some] at removed
          have member : stage ∈ stages := stageAt_mem found
          have number : stage.stageId = target := by
            unfold stageAt at found
            split at found
            · rw [removal.stageId found]
              omega
            · cases found
          obtain ⟨other, there, valid⟩ := removal.leads stage member removed
          rw [number, leads] at there
          cases there
          exact ⟨stage, member, number, removed, leads, valid⟩
  · cases leads

/-- A number that ends a chain is that of a stage that stays, or the end of the pipeline. -/
theorem Removal.ending (removal : Removal gotoMap stages) {target last : Int} {visited : List Int}
    (valid : ValidRef stages.length target) (chain : GotoChain gotoMap stages target visited last) :
    last = -1 ∨ ∃ stage ∈ stages, stage.stageId = last ∧ stage.removed = false := by
  induction chain with
  | @stop item ends =>
      rcases valid with rfl | ⟨low, high⟩
      · exact .inl rfl
      · obtain ⟨stage, found⟩ : ∃ stage, stages[item.toNat]? = some stage :=
          ⟨_, List.getElem?_eq_getElem (show item.toNat < stages.length by omega)⟩
        have number := removal.stageId found
        rw [Int.toNat_of_nonneg low] at number
        have member := List.mem_of_getElem? found
        refine .inr ⟨stage, member, number, ?_⟩
        by_contra removed
        rw [Bool.not_eq_false] at removed
        obtain ⟨next, leads, _⟩ := removal.leads stage member removed
        rw [← number, removal.gotoNext_removed member removed, leads] at ends
        cases ends
  | step points _ ih =>
      obtain ⟨_, _, _, _, _, valid⟩ := removal.gotoNext_some points
      exact ih valid

theorem Removal.length_visited (removal : Removal gotoMap stages) {target last : Int} {visited : List Int}
    (chain : GotoChain gotoMap stages target visited last) : visited.length ≤ stages.length := by
  have inside : visited ⊆ stages.map Stage.stageId := by
    intro number member
    obtain ⟨after, points⟩ := chain.next_of_mem member
    obtain ⟨stage, inside, rfl, _⟩ := removal.gotoNext_some points
    exact List.mem_map_of_mem inside
  simpa using chain.nodup.length_le_of_subset inside

end Positions

/-! ### One run of the loop -/

/-- Every position holds the stage itself or, once the loop has passed it, a removed stage that its
chain leads to. -/
structure Copied (gotoMap : GotoMap) (stages after : List Stage) : Prop where
  length : after.length = stages.length
  along : ∀ (position : Nat) (current : Stage), after[position]? = some current → current ∈ stages ∧
    ∃ stage, stages[position]? = some stage ∧ current.removed = stage.removed ∧
      GotoPath gotoMap stages stage.stageId current.stageId

section Loop

variable {gotoMap : GotoMap} {stages after : List Stage}

theorem Copied.refl (gotoMap : GotoMap) (stages : List Stage) : Copied gotoMap stages stages :=
  ⟨rfl, fun _ current found => ⟨List.mem_of_getElem? found, current, found, rfl, .refl⟩⟩

theorem Copied.set (copied : Copied gotoMap stages after) {position : Nat} {x y : Stage}
    (here : after[position]? = some x) (member : y ∈ stages) (same : y.removed = x.removed)
    (path : GotoPath gotoMap stages x.stageId y.stageId) : Copied gotoMap stages (after.set position y) := by
  refine ⟨by simpa using copied.length, ?_⟩
  intro other current found
  by_cases equal : position = other
  · subst equal
    obtain ⟨inside, _⟩ := List.getElem?_eq_some_iff.mp here
    rw [List.getElem?_set_self inside] at found
    cases found
    obtain ⟨_, stage, source, removed, before⟩ := copied.along position x here
    exact ⟨member, stage, source, same.trans removed, before.trans path⟩
  · rw [List.getElem?_set_ne equal] at found
    exact copied.along other current found

/-- What stands at the position of a stage that an entry leads to. -/
theorem Copied.source (copied : Copied gotoMap stages after) (removal : Removal gotoMap stages) {target : Int}
    {y : Stage} (found : stageAt after target = some y) : y ∈ stages ∧ 0 ≤ target ∧
      ∃ stage ∈ stages, stage.stageId = target ∧ y.removed = stage.removed ∧
        GotoPath gotoMap stages target y.stageId := by
  unfold stageAt at found
  split at found
  · next low =>
      obtain ⟨member, stage, source, removed, path⟩ := copied.along _ y found
      have number := removal.stageId source
      rw [Int.toNat_of_nonneg low] at number
      exact ⟨member, low, stage, List.mem_of_getElem? source, number, removed, number ▸ path⟩
  · cases found

theorem Copied.found_of_lt (copied : Copied gotoMap stages after) {target : Int} (low : 0 ≤ target)
    (high : target < stages.length) : ∃ y, stageAt after target = some y := by
  have inside : target.toNat < after.length := by
    have := copied.length
    omega
  exact ⟨_, by rw [stageAt, if_pos low, List.getElem?_eq_getElem inside]⟩

private theorem set_self {position : Nat} {x : Stage} (here : after[position]? = some x) :
    after.set position x = after := by
  obtain ⟨inside, rfl⟩ := List.getElem?_eq_some_iff.mp here
  exact List.set_getElem_self inside

/-- The loop ends only if the chain ends at a stage. -/
theorem chain_of_followGoto (removal : Removal gotoMap stages) (copied : Copied gotoMap stages after)
    {position fuel : Nat} {map : Int → Option Int} {result : List Stage × (Int → Option Int)} {x : Stage}
    (here : after[position]? = some x) (removed : x.removed = true)
    (done : followGoto gotoMap position fuel (after, map) = some result) :
    ∃ visited last, GotoChain gotoMap stages x.stageId visited last ∧ 0 ≤ last := by
  induction fuel generalizing after x with
  | zero => cases done
  | succ fuel ih =>
      have member := (copied.along position x here).1
      obtain ⟨next, leads, _⟩ := removal.leads x member removed
      have points : gotoNext gotoMap stages x.stageId = some next :=
        (removal.gotoNext_removed member removed).trans leads
      simp only [followGoto, here, Option.bind_eq_bind, Option.bind_some, removed, if_true, leads,
        Option.getD_some] at done
      obtain ⟨y, there, done⟩ := Option.bind_eq_some_iff.mp done
      obtain ⟨inside, low, stage, listed, number, same, path⟩ := copied.source removal there
      cases copy : y.removed with
      | true =>
          rw [if_pos copy] at done
          obtain ⟨inPosition, _⟩ := List.getElem?_eq_some_iff.mp here
          obtain ⟨visited, last, chain, arrives⟩ :=
            ih (copied.set here inside (copy.trans removed.symm) (.head points path))
              (List.getElem?_set_self inPosition) copy done
          obtain ⟨front, chain⟩ := chain.of_points (.head points path)
          exact ⟨_, last, chain, arrives⟩
      | false =>
          have ends := removal.gotoNext_live listed (same.symm.trans copy)
          rw [number] at ends
          exact ⟨_, next, .step points (.stop ends), low⟩

/-- Along a chain that ends at a stage the loop ends, with an entry for the last removed stage. -/
theorem followGoto_of_chain (removal : Removal gotoMap stages) (copied : Copied gotoMap stages after)
    {position fuel : Nat} {map : Int → Option Int} {x : Stage} {visited : List Int} {last : Int}
    (here : after[position]? = some x) (removed : x.removed = true)
    (chain : GotoChain gotoMap stages x.stageId visited last) (low : 0 ≤ last)
    (enough : visited.length ≤ fuel) :
    ∃ stage ∈ stages, stage.removed = true ∧ stage.stageId ∈ visited ∧
      GotoChain gotoMap stages stage.stageId [stage.stageId] last ∧
      GotoPath gotoMap stages x.stageId stage.stageId ∧
      followGoto gotoMap position fuel (after, map) =
        some (after.set position stage, insertNew map stage.stageId ((map last).getD 0)) := by
  induction fuel generalizing after x visited with
  | zero =>
      have member := (copied.along position x here).1
      obtain ⟨next, leads, _⟩ := removal.leads x member removed
      rw [← removal.gotoNext_removed member removed] at leads
      cases chain with
      | stop ends => simp [ends] at leads
      | step _ _ => simp at enough
  | succ fuel ih =>
      have member := (copied.along position x here).1
      obtain ⟨next, leads, valid⟩ := removal.leads x member removed
      have points : gotoNext gotoMap stages x.stageId = some next :=
        (removal.gotoNext_removed member removed).trans leads
      obtain ⟨inPosition, _⟩ := List.getElem?_eq_some_iff.mp here
      cases chain with
      | stop ends => simp [ends] at points
      | @step _ other _ visited points' rest =>
          rw [points] at points'
          cases points'
          have high : 0 ≤ next ∧ next < stages.length := by
            rcases valid with rfl | bounds
            · -- the end of the pipeline is no stage
              cases rest with
              | stop _ => omega
              | step leads _ =>
                  obtain ⟨stage, inside, number, _⟩ := removal.gotoNext_some leads
                  have := removal.nonneg inside
                  omega
            · exact bounds
          obtain ⟨y, there⟩ := copied.found_of_lt high.1 high.2
          obtain ⟨inside, _, stage, listed, number, same, path⟩ := copied.source removal there
          have way : GotoPath gotoMap stages x.stageId y.stageId := .head points path
          obtain ⟨back, chain, shorter⟩ := rest.along path
          have length := shorter.length_le
          rw [List.length_cons] at enough
          cases copy : y.removed with
          | true =>
              obtain ⟨found, listed, gone, among, own, behind, done⟩ :=
                ih (copied.set here inside (copy.trans removed.symm) way)
                  (List.getElem?_set_self inPosition) copy chain (by omega)
              refine ⟨found, listed, gone, List.mem_cons_of_mem _ (shorter.subset among), own,
                way.trans behind, ?_⟩
              simp only [followGoto, here, Option.bind_eq_bind, Option.bind_some, removed, if_true, leads,
                Option.getD_some, there, copy, done, List.set_set]
          | false =>
              have ends := removal.gotoNext_live inside copy
              have stopped := removal.gotoNext_live listed (same.symm.trans copy)
              rw [number] at stopped
              obtain ⟨rfl, rfl⟩ := rest.unique (.stop stopped)
              obtain ⟨_, rfl⟩ := chain.unique (.stop ends)
              refine ⟨x, member, removed, List.mem_cons_self, .step points (.stop stopped), .refl, ?_⟩
              simp only [followGoto, here, Option.bind_eq_bind, Option.bind_some, removed, if_true, leads,
                Option.getD_some, there, copy, Bool.false_eq_true, if_false]
              rw [set_self here]
              rfl

end Loop

/-! ### The numbers -/

/-- As many as stay in front. The end of the pipeline has none. -/
def newNumber (stages : List Stage) (target : Int) : Int :=
  if target = -1 then -1 else (liveStages (stages.take target.toNat)).length

/-- The number of the stage that a chain ends at. -/
def NumberOf (gotoMap : GotoMap) (stages : List Stage) (target number : Int) : Prop :=
  ∃ visited last, GotoChain gotoMap stages target visited last ∧ number = newNumber stages last

section Numbers

variable {gotoMap : GotoMap} {stages : List Stage}

theorem Removal.counted (removal : Removal gotoMap stages) : Counted stages (numberStages stages) :=
  numberStages_counted removal.nodup fun _ member => removal.nonneg member

theorem Removal.number_live (removal : Removal gotoMap stages) {stage : Stage} (member : stage ∈ stages)
    (live : stage.removed = false) :
    (numberStages stages).1 stage.stageId = some (newNumber stages stage.stageId) := by
  obtain ⟨position, found⟩ := List.mem_iff_getElem?.mp member
  obtain ⟨inside, here⟩ := List.getElem?_eq_some_iff.mp found
  have split : liveStages stages = liveStages (stages.take position) ++ stage :: liveStages
      (stages.drop (position + 1)) := by
    conv_lhs => rw [← List.take_append_drop position stages, List.drop_eq_getElem_cons inside, here]
    simp [liveStages, live]
  have value :=
    congrArg (fun values => values[(liveStages (stages.take position)).length]?) removal.counted.numbered
  simp only [List.getElem?_map] at value
  rw [List.getElem?_range (by rw [split]; simp), split] at value
  simp only [List.getElem?_append_right le_rfl, Nat.sub_self, List.getElem?_cons_zero, Option.map_some,
    Option.some.injEq] at value
  rw [value, newNumber, removal.stageId found, if_neg (by omega), Int.toNat_natCast]

theorem Removal.number_some (removal : Removal gotoMap stages) {target value : Int}
    (found : (numberStages stages).1 target = some value) :
    gotoNext gotoMap stages target = none ∧ value = newNumber stages target := by
  rcases removal.counted.keys _ _ found with rfl | live
  · rw [removal.counted.renumbering.ending] at found
    cases found
    refine ⟨?_, rfl⟩
    cases leads : gotoNext gotoMap stages (-1) with
    | none => rfl
    | some next =>
        obtain ⟨stage, member, number, _⟩ := removal.gotoNext_some leads
        have := removal.nonneg member
        omega
  · obtain ⟨stage, listed, rfl⟩ := List.mem_map.mp live
    obtain ⟨member, live⟩ := List.mem_filter.mp listed
    have stays : stage.removed = false := by simpa using live
    rw [removal.number_live member stays] at found
    cases found
    exact ⟨removal.gotoNext_live member stays, rfl⟩

/-- The map after some positions: only the last removed stage of a chain has an entry. -/
structure Mapped (gotoMap : GotoMap) (stages : List Stage) (bound : Nat) (map : Int → Option Int) : Prop where
  ended : ∀ target value, (numberStages stages).1 target = some value → map target = some value
  known : ∀ target value, map target = some value → (numberStages stages).1 target = some value ∨
    ∃ last, GotoChain gotoMap stages target [target] last ∧ value = newNumber stages last
  short : ∀ position < bound, ∀ last, GotoChain gotoMap stages
    (position : Nat) [((position : Nat) : Int)] last →
    (map (position : Nat)).isSome

/-- All chains end at stages. -/
def Arrives (gotoMap : GotoMap) (stages : List Stage) : Prop :=
  ∀ stage ∈ stages, stage.removed = true →
    ∃ visited last, GotoChain gotoMap stages stage.stageId visited last ∧ 0 ≤ last

private theorem insertNew_isSome {map : Int → Option Int} {key other : Int} (value : Int)
    (present : other = key ∨ (map other).isSome) : (insertNew map key value other).isSome := by
  cases known : map other with
  | some found =>
      rw [insertNew_of_some known]
      rfl
  | none =>
      rcases present with rfl | present
      · rw [insertNew_self known]
        rfl
      · simp [known] at present

private theorem mapped_step (removal : Removal gotoMap stages)
    (arrives : Arrives gotoMap stages) {bound : Nat}
    (inside : bound < stages.length) {state : List Stage × (Int → Option Int)}
    (copied : Copied gotoMap stages state.1) (mapped : Mapped gotoMap stages bound state.2) :
    ∃ result, followGoto gotoMap bound (stages.length + 1) state = some result ∧
      Copied gotoMap stages result.1 ∧ Mapped gotoMap stages (bound + 1) result.2 := by
  obtain ⟨after, map⟩ := state
  obtain ⟨x, here⟩ : ∃ x, after[bound]? = some x := ⟨_, List.getElem?_eq_getElem (copied.length ▸ inside)⟩
  obtain ⟨_, stage, source, same, path⟩ := copied.along bound x here
  have member := List.mem_of_getElem? source
  have number := removal.stageId source
  cases removed : x.removed with
  | false =>
      have stays := removal.gotoNext_live member (same.symm.trans removed)
      rw [number] at stays
      refine ⟨(after, map), by simp [followGoto, here, removed], copied, mapped.ended, mapped.known, ?_⟩
      intro position below last chain
      rcases Nat.lt_succ_iff_lt_or_eq.mp below with before | rfl
      · exact mapped.short position before last chain
      · obtain ⟨next, leads⟩ := chain.next_of_mem List.mem_cons_self
        rw [stays] at leads
        cases leads
  | true =>
      obtain ⟨visited, last, chain, low⟩ := arrives stage member (same.symm.trans removed)
      obtain ⟨back, rest, shorter⟩ := chain.along path
      have enough : back.length ≤ stages.length + 1 := (removal.length_visited rest).trans (Nat.le_succ _)
      obtain ⟨found, listed, gone, among, own, behind, done⟩ :=
        @followGoto_of_chain gotoMap stages after removal copied bound _ map x _ _ here
          removed rest low enough
      have reached : map last = some (newNumber stages last) := by
        have valid : ValidRef stages.length stage.stageId := .inr (by omega)
        obtain ending | ⟨live, inStages, rfl, stays⟩ := removal.ending valid chain
        · omega
        · exact mapped.ended _ _ (removal.number_live inStages stays)
      refine ⟨_, done, copied.set here listed (gone.trans removed.symm) behind, ?_, ?_, ?_⟩
      · intro target value known
        exact insertNew_of_some (mapped.ended target value known) _ _
      · intro target value known
        obtain old | ⟨rfl, _, rfl⟩ := insertNew_cases known
        · exact mapped.known target value old
        · exact .inr ⟨last, own, by rw [reached, Option.getD_some]⟩
      · intro position below last' chain'
        rcases Nat.lt_succ_iff_lt_or_eq.mp below with before | rfl
        · exact insertNew_isSome _ (.inr (mapped.short position before last' chain'))
        · rw [number] at chain
          obtain ⟨rfl, rfl⟩ := chain.unique chain'
          have only : found.stageId = (position : Int) := List.mem_singleton.mp (shorter.subset among)
          exact insertNew_isSome _ (.inl only.symm)

/-- When all chains end at stages, the loop ends with a map that misses exactly the removed stages
that lead to removed stages. -/
theorem reorderMap_of_arrives (removal : Removal gotoMap stages) (arrives : Arrives gotoMap stages) :
    ∃ result, reorderMap gotoMap stages = some result ∧ Mapped gotoMap stages stages.length result.2 := by
  have start : Mapped gotoMap stages 0 (numberStages stages).1 :=
    ⟨fun _ _ known => known, fun _ _ known => .inl known, fun _ below => absurd below (Nat.not_lt_zero _)⟩
  obtain ⟨result, done, _, mapped⟩ := @foldlM_range_runs _ stages.length _ (stages, (numberStages stages).1)
    (fun index state => Copied gotoMap stages state.1 ∧ Mapped gotoMap stages index state.2)
    (fun index state inside ⟨copied, mapped⟩ => mapped_step removal arrives inside copied mapped)
    ⟨.refl gotoMap stages, start⟩
  exact ⟨result, done, mapped⟩

theorem arrives_of_reorderMap (removal : Removal gotoMap stages) {result : List Stage × (Int → Option Int)}
    (done : reorderMap gotoMap stages = some result) : Arrives gotoMap stages := by
  have all := foldlM_range
    (fun index (state : List Stage × (Int → Option Int)) => Copied gotoMap stages state.1 ∧
      ∀ position < index, ∀ stage, stages[position]? = some stage → stage.removed = true →
        ∃ visited last, GotoChain gotoMap stages stage.stageId visited last ∧ 0 ≤ last)
    ?_ done ⟨.refl gotoMap stages, fun _ below => absurd below (Nat.not_lt_zero _)⟩
  · intro stage member removed
    obtain ⟨position, found⟩ := List.mem_iff_getElem?.mp member
    obtain ⟨inside, _⟩ := List.getElem?_eq_some_iff.mp found
    exact all.2 position inside stage found removed
  · intro index state after inside ⟨copied, before⟩ step
    obtain ⟨x, here⟩ : ∃ x, state.1[index]? = some x := ⟨_, List.getElem?_eq_getElem (copied.length ▸ inside)⟩
    obtain ⟨_, own, source, same, path⟩ := copied.along index x here
    cases removed : x.removed with
    | false =>
        simp [followGoto, here, removed] at step
        subst step
        refine ⟨copied, fun position below stage found gone => ?_⟩
        rcases Nat.lt_succ_iff_lt_or_eq.mp below with earlier | rfl
        · exact before position earlier stage found gone
        · rw [source] at found
          cases found
          simp [← same, removed] at gone
    | true =>
        obtain ⟨visited, last, chain, low⟩ := chain_of_followGoto removal copied here removed step
        have enough : visited.length ≤ stages.length + 1 :=
          (removal.length_visited chain).trans (Nat.le_succ _)
        obtain ⟨found, listed, gone, _, _, behind, ran⟩ :=
          @followGoto_of_chain gotoMap stages state.1 removal copied index _ state.2 x _ _ here
            removed chain low enough
        cases ran.symm.trans step
        refine ⟨copied.set here listed (gone.trans removed.symm) behind,
          fun position below stage place gone => ?_⟩
        rcases Nat.lt_succ_iff_lt_or_eq.mp below with earlier | rfl
        · exact before position earlier stage place gone
        · rw [source] at place
          cases place
          obtain ⟨front, whole⟩ := chain.of_points path
          exact ⟨_, last, whole, low⟩

/-- What the loop leaves at the position of a removed stage: the last removed stage of its chain. -/
theorem reorderMap_copies (removal : Removal gotoMap stages) {result : List Stage × (Int → Option Int)}
    (done : reorderMap gotoMap stages = some result) : Copied gotoMap stages result.1 ∧
      ∀ position < stages.length, ∀ current, result.1[position]? = some current → current.removed = true →
        ∃ last, GotoChain gotoMap stages current.stageId [current.stageId] last := by
  have arrives := arrives_of_reorderMap removal done
  refine foldlM_range (fun index (state : List Stage × (Int → Option Int)) => Copied gotoMap stages state.1 ∧
      ∀ position < index, ∀ current, state.1[position]? = some current → current.removed = true →
        ∃ last, GotoChain gotoMap stages current.stageId [current.stageId] last)
    ?_ done ⟨.refl gotoMap stages, fun _ below => absurd below (Nat.not_lt_zero _)⟩
  intro index state after inside ⟨copied, before⟩ step
  obtain ⟨x, here⟩ : ∃ x, state.1[index]? = some x := ⟨_, List.getElem?_eq_getElem (copied.length ▸ inside)⟩
  obtain ⟨_, own, source, same, path⟩ := copied.along index x here
  cases removed : x.removed with
  | false =>
      simp [followGoto, here, removed] at step
      subst step
      refine ⟨copied, fun position below current found gone => ?_⟩
      rcases Nat.lt_succ_iff_lt_or_eq.mp below with earlier | rfl
      · exact before position earlier current found gone
      · rw [here] at found
        cases found
        rw [removed] at gone
        cases gone
  | true =>
      obtain ⟨visited, last, chain, low⟩ :=
        arrives own (List.mem_of_getElem? source) (same.symm.trans removed)
      obtain ⟨back, rest, _⟩ := chain.along path
      have enough : back.length ≤ stages.length + 1 := (removal.length_visited rest).trans (Nat.le_succ _)
      obtain ⟨found, listed, gone, _, short, behind, ran⟩ :=
        @followGoto_of_chain gotoMap stages state.1 removal copied index _ state.2 x _ _ here
          removed rest low enough
      cases ran.symm.trans step
      refine ⟨copied.set here listed (gone.trans removed.symm) behind,
        fun position below current place isRemoved => ?_⟩
      rcases Nat.lt_succ_iff_lt_or_eq.mp below with earlier | rfl
      · rw [List.getElem?_set_ne (by omega)] at place
        exact before position earlier current place isRemoved
      · rw [List.getElem?_set_self (List.getElem?_eq_some_iff.mp here).1] at place
        cases place
        exact ⟨last, short⟩

end Numbers

/-! ### The renumbering -/

/-- What the renumbering is for: it ends, the stages that stay are numbered in order with their
definitions, tables and actions, and every target gets the number of the stage its chain ends at. -/
def Renumbers (gotoMap : GotoMap) (stages : List Stage) : Prop :=
  ∃ after map, reorderMap gotoMap stages = some (after, map) ∧
    (liveStages (reorderStages after map)).map Stage.stageId =
      (List.range (liveStages stages).length).map (fun (position : Nat) => (position : Int)) ∧
    List.Forall₂ (fun old new => new.definition = old.definition ∧ new.tableId = old.tableId ∧
        List.Forall₂ (fun before now => now.1 = before.1 ∧ NumberOf gotoMap stages before.2 now.2)
          old.actionProc new.actionProc)
      (liveStages stages) (liveStages (reorderStages after map)) ∧
    ∀ stage ∈ stages, ∀ pair ∈ stage.actionProc, NumberOf gotoMap stages pair.2 ((map pair.2).getD 0)

section Renumbers

variable {gotoMap : GotoMap} {stages : List Stage}

theorem Mapped.target {map : Int → Option Int} (mapped : Mapped gotoMap stages stages.length map)
    (removal : Removal gotoMap stages) {target last : Int} {visited : List Int}
    (valid : ValidRef stages.length target) (chain : GotoChain gotoMap stages target visited last) :
    (map target).getD 0 = if 2 ≤ visited.length then 0 else newNumber stages last := by
  have live : ∀ number, (numberStages stages).1 target = some number →
      gotoNext gotoMap stages target = none :=
    fun number found => (removal.number_some found).1
  cases chain with
  | stop ends =>
      have number : (numberStages stages).1 target = some (newNumber stages target) := by
        obtain rfl | ⟨stage, member, rfl, stays⟩ := removal.ending valid (.stop ends)
        · exact removal.counted.renumbering.ending
        · exact removal.number_live member stays
      rw [mapped.ended _ _ number]
      rfl
  | step points rest =>
      cases rest with
      | stop ends =>
          obtain ⟨stage, member, rfl, _⟩ := removal.gotoNext_some points
          obtain ⟨position, found⟩ := List.mem_iff_getElem?.mp member
          obtain ⟨inside, _⟩ := List.getElem?_eq_some_iff.mp found
          rw [removal.stageId found] at points live ⊢
          have own : GotoChain gotoMap stages position [(position : Int)] last := .step points (.stop ends)
          obtain ⟨value, known⟩ := Option.isSome_iff_exists.mp (mapped.short position inside last own)
          obtain number | ⟨last', chain, rfl⟩ := mapped.known _ _ known
          · rw [live value number] at points
            cases points
          · obtain ⟨_, rfl⟩ := chain.unique own
            rw [known]
            rfl
      | @step _ _ _ visited points' rest =>
          have missing : map target = none := by
            by_contra present
            obtain ⟨value, known⟩ := Option.ne_none_iff_exists'.mp present
            obtain number | ⟨last', chain, _⟩ := mapped.known _ _ known
            · rw [live value number] at points
              cases points
            · have same := (chain.unique (.step points (.step points' rest))).1
              simp at same
          rw [missing, if_pos (by simp), Option.getD_none]

/-- The renumbering is right exactly when every chain of removed stages ends at a stage, and those of
two or more that are a target end at the first stage that stays. -/
theorem renumbers_iff (removal : Removal gotoMap stages) :
    Renumbers gotoMap stages ↔ Arrives gotoMap stages ∧
      ∀ stage ∈ stages, ∀ pair ∈ stage.actionProc, ∀ visited last,
        GotoChain gotoMap stages pair.2 visited last →
        2 ≤ visited.length → newNumber stages last = 0 := by
  constructor
  · rintro ⟨after, map, done, _, _, targets⟩
    have arrives := arrives_of_reorderMap removal done
    obtain ⟨result, done', mapped⟩ := reorderMap_of_arrives removal arrives
    cases done'.symm.trans done
    refine ⟨arrives, fun stage member pair listed visited last chain long => ?_⟩
    obtain ⟨visited', last', chain', number⟩ := targets stage member pair listed
    obtain ⟨rfl, rfl⟩ := chain.unique chain'
    rw [mapped.target removal (removal.targets stage member pair listed) chain, if_pos long] at number
    exact number.symm
  · rintro ⟨arrives, toFirst⟩
    obtain ⟨⟨after, map⟩, done, mapped⟩ := reorderMap_of_arrives removal arrives
    have followed := reorderMap_followed removal.nodup (fun _ member => removal.nonneg member) done
    have numbered := reordered_numbered removal.nodup (fun _ member => removal.nonneg member) followed
    have targets : ∀ stage ∈ stages, ∀ pair ∈ stage.actionProc,
        NumberOf gotoMap stages pair.2 ((map pair.2).getD 0) := by
      intro stage member pair listed
      have valid := removal.targets stage member pair listed
      obtain ⟨visited, last, chain⟩ : ∃ visited last, GotoChain gotoMap stages pair.2 visited last := by
        cases points : gotoNext gotoMap stages pair.2 with
        | none => exact ⟨_, _, .stop points⟩
        | some next =>
            obtain ⟨source, inside, number, removed, _⟩ := removal.gotoNext_some points
            obtain ⟨visited, last, chain, _⟩ := arrives source inside removed
            exact ⟨visited, last, number ▸ chain⟩
      refine ⟨visited, last, chain, ?_⟩
      rw [mapped.target removal valid chain]
      split
      · next long => exact (toFirst stage member pair listed visited last chain long).symm
      · rfl
    have live : liveStages (reorderStages after map) = reorderStages (liveStages stages) map := by
      rw [liveStages_reorder, followed.same.liveStages_eq]
    refine ⟨after, map, done, ?_, ?_, targets⟩
    · rw [numbered.live, live, reorderStages, List.length_map]
    · rw [live, reorderStages, List.forall₂_map_right_iff, List.forall₂_same]
      intro stage member
      refine ⟨rfl, rfl, ?_⟩
      rw [List.forall₂_map_right_iff, List.forall₂_same]
      exact fun pair listed => ⟨rfl, targets stage (List.mem_filter.mp member).1 pair listed⟩

end Renumbers

/-- The stage between two others is removed. -/
def betweenStages : List Stage :=
  [{ stageId := 0, actionProc := [(1, 1)], definition := ⟨"a", [], ⟨[], []⟩, [⟨"permit", "b"⟩]⟩ },
   { stageId := 1, removed := true, actionProc := [(2, 2)],
     definition := ⟨"b", [], ⟨[], []⟩, [⟨"mark", "c"⟩]⟩ },
   { stageId := 2, definition := ⟨"c", [], ⟨[], []⟩, []⟩ }]

def betweenGoto : GotoMap := fun stageId => if stageId = 1 then some 2 else none

theorem renumbers_between : Renumbers betweenGoto betweenStages := by
  have removal : Removal betweenGoto betweenStages := by
    refine ⟨by decide, ?_, ?_⟩
    · intro stage member removed
      simp only [betweenStages, List.mem_cons, List.not_mem_nil, or_false] at member
      rcases member with rfl | rfl | rfl
      · cases removed
      · exact ⟨2, rfl, .inr (by decide)⟩
      · cases removed
    · simp [betweenStages, ValidRef]
  have short : GotoChain betweenGoto betweenStages 1 [1] 2 := .step rfl (.stop rfl)
  refine (renumbers_iff removal).mpr ⟨?_, ?_⟩
  · intro stage member removed
    simp only [betweenStages, List.mem_cons, List.not_mem_nil, or_false] at member
    rcases member with rfl | rfl | rfl
    · cases removed
    · exact ⟨[1], 2, short, by decide⟩
    · cases removed
  · intro stage member pair listed visited last chain long
    have target : pair.2 = 1 ∨ pair.2 = 2 := by
      simp only [betweenStages, List.mem_cons, List.not_mem_nil, or_false] at member
      rcases member with rfl | rfl | rfl <;> simp_all
    rcases target with one | two
    · rw [one] at chain
      obtain ⟨rfl, _⟩ := chain.unique short
      simp at long
    · rw [two] at chain
      obtain ⟨rfl, _⟩ := chain.unique (.stop rfl)
      simp at long

/-- A stage that is removed and leads to no stage. -/
theorem not_renumbers_ending :
    ¬ ∀ (gotoMap : GotoMap) (stages : List Stage), Removal gotoMap stages → Renumbers gotoMap stages := by
  intro all
  let lone : Stage :=
    { stageId := 0, removed := true, actionProc := [(1, -1)],
      definition := ⟨"s", [], ⟨[], []⟩, [⟨"mark", ""⟩]⟩ }
  obtain ⟨after, map, done, _⟩ := all (fun _ => some (-1)) [lone] (by
    refine ⟨rfl, ?_, ?_⟩
    · exact fun _ _ _ => ⟨-1, rfl, .inl rfl⟩
    · simp [lone, ValidRef])
  cases done

/-! ### What the removal leaves -/

private theorem redirectEntries_targets {stageId nextStageId : Int} {actionName : String}
    {actions after : ActionManager} {conflict flag : Bool} {entries result : List (Int × Int)}
    (done : redirectEntries stageId nextStageId actionName actions conflict entries =
      some (result, after, flag)) :
    ∀ pair ∈ result, pair ∈ entries ∨ pair.2 = nextStageId := by
  induction entries generalizing actions conflict result with
  | nil =>
      cases done
      exact fun _ member => .inl member
  | cons entry rest ih =>
      obtain ⟨⟨first, middle, seen⟩, here, done⟩ := Option.bind_eq_some_iff.mp done
      obtain ⟨⟨others, final, last⟩, later, done⟩ := Option.bind_eq_some_iff.mp done
      cases done
      have moved : first = entry ∨ first.2 = nextStageId := by
        unfold redirectEntry at here
        split at here
        · obtain ⟨next, _, here⟩ := Option.bind_eq_some_iff.mp here
          split at here <;> cases here
          · exact .inr rfl
          · exact .inl rfl
        · cases here
          exact .inl rfl
      intro pair member
      rcases List.mem_cons.mp member with rfl | member
      · exact moved.imp_left fun same => by simp [same]
      · exact (ih later pair member).imp_left (List.mem_cons_of_mem _)

private theorem redirectStages_targets {stageId nextStageId : Int} {actionName : String}
    {actions after : ActionManager} {conflict flag : Bool} {stages result : List Stage}
    (done : redirectStages stageId nextStageId actionName actions conflict stages =
      some (result, after, flag)) :
    ∀ stage ∈ result, ∃ source ∈ stages, stage.stageId = source.stageId ∧ stage.removed = source.removed ∧
      ∀ pair ∈ stage.actionProc, pair ∈ source.actionProc ∨ pair.2 = nextStageId := by
  induction stages generalizing actions conflict result with
  | nil =>
      cases done
      exact fun _ member => absurd member List.not_mem_nil
  | cons source rest ih =>
      obtain ⟨⟨first, middle, seen⟩, here, done⟩ := Option.bind_eq_some_iff.mp done
      obtain ⟨⟨others, final, last⟩, later, done⟩ := Option.bind_eq_some_iff.mp done
      cases done
      intro stage member
      rcases List.mem_cons.mp member with rfl | member
      · refine ⟨source, List.mem_cons_self, ?_⟩
        unfold redirectStage at here
        split at here
        · cases here
          exact ⟨rfl, rfl, fun _ listed => .inl listed⟩
        · obtain ⟨⟨actionProc, _, _⟩, entries, here⟩ := Option.bind_eq_some_iff.mp here
          cases here
          exact ⟨rfl, rfl, redirectEntries_targets entries⟩
      · obtain ⟨other, inside, same⟩ := ih later stage member
        exact ⟨other, List.mem_cons_of_mem _ inside, same⟩

theorem Removal.redirect {gotoMap : GotoMap} {stages result : List Stage} (removal : Removal gotoMap stages)
    {stageId nextStageId : Int} {actionName : String} {actions after : ActionManager} {flag : Bool}
    (valid : ValidRef stages.length nextStageId)
    (done : redirectStages stageId nextStageId actionName actions false stages = some (result, after, flag)) :
    Removal gotoMap result := by
  have ids : result.map Stage.stageId = stages.map Stage.stageId := by
    simpa [Function.comp_def, identity] using congrArg (List.map Prod.fst) (redirectStages_identity done)
  have length : result.length = stages.length := by simpa using congrArg List.length ids
  refine ⟨by rw [ids, length, removal.positions], ?_, ?_⟩
  · intro stage member removed
    obtain ⟨source, inside, number, same, _⟩ := redirectStages_targets done stage member
    rw [number, length]
    exact removal.leads source inside (same.symm.trans removed)
  · intro stage member pair listed
    obtain ⟨source, inside, _, _, targets⟩ := redirectStages_targets done stage member
    rw [length]
    rcases targets pair listed with kept | moved
    · exact removal.targets source inside pair kept
    · exact moved ▸ valid

theorem Removal.remove {gotoMap : GotoMap} {stages : List Stage} (removal : Removal gotoMap stages)
    {position : Nat} {stageId nextStageId : Int} (number : stageId = position)
    (valid : ValidRef stages.length nextStageId) :
    Removal (Function.update gotoMap stageId (some nextStageId))
      (stages.modify position fun stage => { stage with removed := true }) := by
  have source : ∀ stage ∈ stages.modify position fun stage => { stage with removed := true },
      ∃ old ∈ stages, stage.stageId = old.stageId ∧ stage.actionProc = old.actionProc ∧
        (stage.removed = true → old.removed = true ∨ old.stageId = stageId) := by
    intro stage member
    obtain ⟨index, found⟩ := List.mem_iff_getElem?.mp member
    rw [List.getElem?_modify] at found
    obtain ⟨old, here, changed⟩ := Option.map_eq_some_iff.mp found
    refine ⟨old, List.mem_of_getElem? here, ?_⟩
    split at changed
    · next same =>
        subst same changed
        exact ⟨rfl, rfl, fun _ => .inr ((removal.stageId here).trans number.symm)⟩
    · subst changed
      exact ⟨rfl, rfl, .inl⟩
  refine ⟨?_, ?_, ?_⟩
  · have same := congrArg (List.map Prod.fst) (modify_removed_identity stages position)
    rw [List.length_modify, ← removal.positions]
    simpa [Function.comp_def, identity] using same
  · intro stage member removed
    obtain ⟨old, inside, same, _, was⟩ := source stage member
    rw [List.length_modify, same]
    by_cases here : old.stageId = stageId
    · exact ⟨nextStageId, by rw [here, Function.update_self], valid⟩
    · rw [Function.update_of_ne here]
      exact removal.leads old inside ((was removed).resolve_right here)
  · intro stage member pair listed
    obtain ⟨old, inside, _, same, _⟩ := source stage member
    rw [List.length_modify]
    exact removal.targets old inside pair (same ▸ listed)

theorem stageIdOf_valid {stages : StageManager} (positions : stages.logicalStages.map Stage.stageId =
      (List.range stages.logicalStages.length).map fun (position : Nat) => (position : Int)) (name : String) :
    ValidRef stages.logicalStages.length (stageIdOf stages name) := by
  unfold stageIdOf
  cases found : stages.lookupName name with
  | none => exact .inl rfl
  | some stage =>
      obtain ⟨position, _, here⟩ := Option.bind_eq_some_iff.mp found
      have inside : stage.stageId ∈ stages.logicalStages.map Stage.stageId :=
        List.mem_map_of_mem (List.mem_of_getElem? here)
      rw [positions] at inside
      obtain ⟨index, below, number⟩ := List.mem_map.mp inside
      have := List.mem_range.mp below
      exact .inr ⟨by simp [← number], by simp [← number, this]⟩

/-- The removal leaves stages of this kind. -/
theorem removeStages_removal {state : StageState} {result : StageState × GotoMap}
    (positions : state.stages.logicalStages.map Stage.stageId =
      (List.range state.stages.logicalStages.length).map fun (position : Nat) => (position : Int))
    (fresh : ∀ stage ∈ state.stages.logicalStages, stage.removed = false)
    (done : removeStages (fillActionProc state) = some result) :
    Removal result.2 result.1.stages.logicalStages := by
  have ids : (fillActionProc state).stages.logicalStages.map Stage.stageId =
      state.stages.logicalStages.map Stage.stageId := by
    simp [fillActionProc, Function.comp_def]
  have length : (fillActionProc state).stages.logicalStages.length = state.stages.logicalStages.length := by
    simp [fillActionProc]
  refine foldlM_preserves (fun after : StageState × GotoMap =>
    Removal after.2 after.1.stages.logicalStages) ?_ done ?_
  · intro before position after _ removal step
    obtain ⟨stage, here, step⟩ := Option.bind_eq_some_iff.mp step
    split at step
    · cases step
      exact removal
    · next entry _ =>
        obtain ⟨action, _, step⟩ := Option.bind_eq_some_iff.mp step
        split at step
        · cases step
          exact removal
        · obtain ⟨⟨stages, actions, conflict⟩, redirected, step⟩ := Option.bind_eq_some_iff.mp step
          have valid := stageIdOf_valid removal.positions entry.stageName
          have moved := removal.redirect valid redirected
          have same : stages.length = before.1.stages.logicalStages.length := by
            simpa using congrArg List.length (redirectStages_identity redirected)
          dsimp only at step
          split at step <;> cases step
          · exact moved
          · exact moved.remove (removal.stageId here) (same ▸ valid)
  · refine ⟨by rw [ids, length, positions], ?_, ?_⟩
    · intro stage member removed
      obtain ⟨source, inside, rfl⟩ := List.mem_map.mp member
      simp [fresh source inside] at removed
    · intro stage member pair listed
      obtain ⟨source, inside, rfl⟩ := List.mem_map.mp member
      obtain ⟨entry, _, rfl⟩ := List.mem_map.mp listed
      rw [length]
      exact stageIdOf_valid positions entry.stageName

end ProcessorManager

end Ipbm.Compiler
