import Ipbm.Compiler.ProcessorManagerProperties
import Ipbm.Lib.Pointwise
import Mathlib.Data.List.Pairwise

/-! Removal of single-action stages. What the loop of `initializeStages` does to the actions and to
the targets of the declared entries, and when this is what a packet meets on the way that is
declared. -/

set_option autoImplicit false

namespace Ipbm.Compiler
open Lib

/-! ### Actions -/

namespace ActionManager

def primitives (actions : ActionManager) (actionId : Int) : List Assign :=
  ((actions.lookupId actionId).map Action.primitives).getD []

/-- What `concatAction` leaves as it is. -/
def signature (actions : ActionManager) : List (String × Int × Nat) :=
  actions.map fun entry => (entry.1, entry.2.id, entry.2.parameterNum)

theorem concatAction_some {actions after : ActionManager} {id : Int} {next : List Assign}
    (done : actions.concatAction id next = some after) :
    canConcat (actions.primitives id) next = true ∧ after.primitives id = actions.primitives id ++ next ∧
      (∀ other, other ≠ id → after.primitives other = actions.primitives other) ∧
      after.signature = actions.signature := by
  obtain ⟨action, found, done⟩ := Option.bind_eq_some_iff.mp done
  split at done
  · next fits =>
    cases done
    have lookup : ∀ other, ActionManager.lookupId (actions.map fun entry =>
        if entry.2.id = id then (entry.1, { entry.2 with primitives := entry.2.primitives ++ next })
          else entry) other = (actions.lookupId other).map fun action =>
            if action.id = id then { action with primitives := action.primitives ++ next } else action := by
      intro other
      unfold ActionManager.lookupId
      rw [List.find?_map, Option.map_map, Option.map_map]
      have same : ((fun entry : String × Action => decide (entry.2.id = other)) ∘ fun entry =>
          if entry.2.id = id then (entry.1, { entry.2 with primitives := entry.2.primitives ++ next })
            else entry) = fun entry => decide (entry.2.id = other) := by
        funext entry
        by_cases here : entry.2.id = id <;> simp [here]
      rw [same]
      refine Option.map_congr fun entry _ => ?_
      by_cases here : entry.2.id = id <;> simp [here]
    refine ⟨?_, ?_, ?_, ?_⟩
    · simpa [primitives, found] using fits
    · have isId : action.id = id := by
        obtain ⟨entry, first, rfl⟩ := Option.map_eq_some_iff.mp found
        simpa using List.find?_some first
      simp [primitives, lookup, found, isId]
    · intro other different
      simp only [primitives, lookup, Option.map_map]
      congr 1
      refine Option.map_congr fun action isAction => ?_
      obtain ⟨entry, first, rfl⟩ := Option.map_eq_some_iff.mp isAction
      have isOther : entry.2.id = other := by simpa using List.find?_some first
      simp [isOther, different]
    · simp only [signature, List.map_map]
      refine List.map_congr_left fun entry _ => ?_
      by_cases here : entry.2.id = id <;> simp [here]
  · cases done

theorem lookupId_isSome_iff {actions : ActionManager} {id : Int} :
    (actions.lookupId id).isSome ↔ ∃ entry ∈ actions.signature, entry.2.1 = id := by
  simp [lookupId, signature, List.find?_isSome]

theorem concatAction_none {actions : ActionManager} {id : Int} {next : List Assign}
    (listed : ∃ entry ∈ actions.signature, entry.2.1 = id) (refused : actions.concatAction id next = none) :
    canConcat (actions.primitives id) next = false := by
  obtain ⟨action, found⟩ := Option.isSome_iff_exists.mp (lookupId_isSome_iff.mpr listed)
  simpa [concatAction, primitives, found] using refused

/-- An action that assigns anything is not continued by itself. -/
theorem canConcat_self {assigns : List Assign} (fits : canConcat assigns assigns = true) : assigns = [] := by
  cases assigns with
  | nil => rfl
  | cons assign rest => simp [canConcat] at fits

/-- An action found by its name is found by its id, and has the id the name had. -/
theorem lookupName_signature {before after : ActionManager}
    (same : after.signature = before.signature) (name : String) :
    (after.lookupName name).map (fun action => (action.id, action.parameterNum)) =
      (before.lookupName name).map fun action => (action.id, action.parameterNum) := by
  have lookup : ∀ actions : ActionManager,
      (actions.lookupName name).map (fun action => (action.id, action.parameterNum)) =
        ((actions.signature.find? fun entry => entry.1 = name).map Prod.snd) := by
    intro actions
    simp only [ActionManager.lookupName, signature, List.find?_map, Option.map_map]
    rfl
  rw [lookup, lookup, same]

theorem lookupId_of_lookupName {actions : ActionManager}
    (unique : (actions.map fun entry => entry.2.id).Nodup)
    {name : String} {action : Action} (found : actions.lookupName name = some action) :
    actions.lookupId action.id = some action := by
  obtain ⟨entry, first, rfl⟩ := Option.map_eq_some_iff.mp found
  rw [ActionManager.lookupId, Lib.find?_of_key unique (List.mem_of_find?_eq_some first), Option.map_some]

end ActionManager

namespace ProcessorManager
open ActionManager (signature canConcat)
open Distribution (liveStages)

/-! ### One removal -/

/-- The entry leads to the stage, and the action of the stage can be appended to its own. -/
def TakesUp (stageId : Int) (extra : List Assign) (actions : ActionManager) (entry : Int × Int) : Prop :=
  entry.2 = stageId ∧ canConcat (actions.primitives entry.1) extra = true

instance (stageId : Int) (extra : List Assign) (actions : ActionManager) (entry : Int × Int) :
    Decidable (TakesUp stageId extra actions entry) := inferInstanceAs (Decidable (_ ∧ _))

/-- What becomes of an entry. -/
def redirected (stageId nextStageId : Int) (extra : List Assign) (actions : ActionManager)
    (entry : Int × Int) : Int × Int :=
  if TakesUp stageId extra actions entry then (entry.1, nextStageId) else entry

/-- An action that is continued is listed once. -/
def Once (stageId : Int) (extra : List Assign) (actions : ActionManager)
    (entries : List (Int × Int)) : Prop :=
  extra ≠ [] → entries.Pairwise fun first second =>
    TakesUp stageId extra actions first ∨ TakesUp stageId extra actions second → first.1 ≠ second.1

/-- What becomes of the actions, and when an entry cannot take up the action. -/
structure Continues (stageId : Int) (extra : List Assign) (before after : ActionManager)
    (conflict flag : Bool) (entries : List (Int × Int)) : Prop where
  taken : ∀ entry ∈ entries, TakesUp stageId extra before entry →
    after.primitives entry.1 = before.primitives entry.1 ++ extra
  frame : ∀ actionId, (∀ entry ∈ entries, TakesUp stageId extra before entry → entry.1 ≠ actionId) →
    after.primitives actionId = before.primitives actionId
  signature : after.signature = before.signature
  flag : flag = true ↔ conflict = true ∨ ∃ entry ∈ entries, entry.2 = stageId ∧
      ¬TakesUp stageId extra before entry

section

variable {stageId nextStageId : Int} {extra : List Assign}

theorem takesUp_congr {before after : ActionManager} {entry : Int × Int}
    (same : after.primitives entry.1 = before.primitives entry.1) :
    TakesUp stageId extra after entry ↔ TakesUp stageId extra before entry := by
  rw [TakesUp, TakesUp, same]

theorem redirected_congr {before after : ActionManager} {entry : Int × Int}
    (same : after.primitives entry.1 = before.primitives entry.1) :
    redirected stageId nextStageId extra after entry = redirected stageId nextStageId extra before entry := by
  simp only [redirected, takesUp_congr same]

theorem Continues.refl (actions : ActionManager) (conflict : Bool) :
    Continues stageId extra actions actions conflict conflict [] :=
  ⟨by simp, fun _ _ => rfl, rfl, by simp⟩

theorem Continues.kept {before after : ActionManager} {conflict flag : Bool} {entries : List (Int × Int)}
    (continues : Continues stageId extra before after conflict flag entries) {actionId : Int}
    (apart : extra ≠ [] → ∀ entry ∈ entries, TakesUp stageId extra before entry → entry.1 ≠ actionId) :
    after.primitives actionId = before.primitives actionId := by
  by_cases others : ∀ entry ∈ entries, TakesUp stageId extra before entry → entry.1 ≠ actionId
  · exact continues.frame actionId others
  · push Not at others
    obtain ⟨entry, member, takes, rfl⟩ := others
    by_cases empty : extra = []
    · rw [continues.taken entry member takes, empty, List.append_nil]
    · exact absurd rfl (apart empty entry member takes)

private theorem Continues.earlier {first second : ActionManager} {conflict seen : Bool}
    {old more : List (Int × Int)} (front : Continues stageId extra first second conflict seen old)
    (once : Once stageId extra first (old ++ more))
    {entry : Int × Int} (member : entry ∈ more) : second.primitives entry.1 = first.primitives entry.1 := by
  refine front.kept fun some other inside takes => ?_
  exact (List.pairwise_append.mp (once some)).2.2 other inside entry member (.inl takes)

theorem Continues.append {first second third : ActionManager} {conflict seen flag : Bool}
    {old more : List (Int × Int)} (front : Continues stageId extra first second conflict seen old)
    (back : Continues stageId extra second third seen flag more)
    (once : Once stageId extra first (old ++ more)) :
    Continues stageId extra first third conflict flag (old ++ more) := by
  have same : ∀ entry ∈ more, (TakesUp stageId extra second entry ↔ TakesUp stageId extra first entry) :=
    fun entry member => takesUp_congr (front.earlier once member)
  refine ⟨?_, ?_, back.signature.trans front.signature, ?_⟩
  · intro entry member takes
    rcases List.mem_append.mp member with inOld | inMore
    · rw [back.kept fun some other inside takes => ?_, front.taken entry inOld takes]
      exact ((List.pairwise_append.mp (once some)).2.2 entry inOld other inside
        (.inr ((same other inside).mp takes))).symm
    · rw [back.taken entry inMore ((same entry inMore).mpr takes), front.earlier once inMore]
  · intro actionId absent
    rw [back.frame actionId fun entry member takes =>
        absent entry (List.mem_append_right _ member) ((same entry member).mp takes),
      front.frame actionId fun entry member => absent entry (List.mem_append_left _ member)]
  · rw [back.flag, front.flag, or_assoc]
    simp only [List.mem_append, or_and_right, exists_or]
    refine or_congr_right (or_congr_right (exists_congr fun entry => and_congr_right fun member => ?_))
    rw [same entry member]

/-- The action that is appended. -/
structure Appends (actions : ActionManager) (actionName : String) (actionId : Int)
    (extra : List Assign) : Prop where
  unique : (actions.map fun entry => entry.2.id).Nodup
  id : (actions.lookupName actionName).map Action.id = some actionId
  primitives : actions.primitives actionId = extra

theorem Appends.congr {before after : ActionManager} {actionName : String} {actionId : Int}
    (appends : Appends before actionName actionId extra) (same : after.signature = before.signature)
    (kept : after.primitives actionId = before.primitives actionId) :
    Appends after actionName actionId extra := by
  refine ⟨?_, ?_, kept.trans appends.primitives⟩
  · have ids := congrArg (List.map fun entry => entry.2.1) same
    simp only [ActionManager.signature, List.map_map] at ids
    exact (congrArg List.Nodup ids).mpr appends.unique
  · have names := congrArg (Option.map Prod.fst) (ActionManager.lookupName_signature same actionName)
    rw [Option.map_map, Option.map_map] at names
    exact names.trans appends.id

theorem Appends.next {actions : ActionManager} {actionName : String} {actionId : Int}
    (appends : Appends actions actionName actionId extra) {next : Action}
    (found : actions.lookupName actionName = some next) : next.primitives = extra := by
  have isId : next.id = actionId := by
    have id := appends.id
    rw [found] at id
    exact Option.some.inj id
  rw [← appends.primitives, ← isId, ActionManager.primitives,
    ActionManager.lookupId_of_lookupName appends.unique found]
  rfl

/-- The stages that entries lead to have actions, and the one that is appended is not continued itself. -/
structure Apart (stageId : Int) (extra : List Assign) (actions : ActionManager) (actionId : Int)
    (entries : List (Int × Int)) : Prop where
  listed : ∀ entry ∈ entries, ∃ action ∈ actions.signature, action.2.1 = entry.1
  other : extra ≠ [] → ∀ entry ∈ entries, TakesUp stageId extra actions entry → entry.1 ≠ actionId
  once : Once stageId extra actions entries

theorem Apart.left {actions : ActionManager} {actionId : Int} {old more : List (Int × Int)}
    (apart : Apart stageId extra actions actionId (old ++ more)) : Apart stageId extra actions actionId old :=
  ⟨fun entry member => apart.listed entry (List.mem_append_left _ member),
    fun some entry member => apart.other some entry (List.mem_append_left _ member),
    fun some => (List.pairwise_append.mp (apart.once some)).1⟩

theorem Apart.right {first second : ActionManager} {actionId : Int} {conflict seen : Bool}
    {old more : List (Int × Int)} (apart : Apart stageId extra first actionId (old ++ more))
    (front : Continues stageId extra first second conflict seen old) :
    Apart stageId extra second actionId more := by
  have same : ∀ entry ∈ more, (TakesUp stageId extra second entry ↔ TakesUp stageId extra first entry) :=
    fun entry member => takesUp_congr (front.earlier apart.once member)
  refine ⟨?_, ?_, ?_⟩
  · intro entry member
    rw [front.signature]
    exact apart.listed entry (List.mem_append_right _ member)
  · intro some entry member takes
    exact apart.other some entry (List.mem_append_right _ member) ((same entry member).mp takes)
  · intro some
    refine (List.pairwise_append.mp (apart.once some)).2.1.imp_of_mem
      fun left right unequal takes => unequal ?_
    exact takes.imp (same _ left).mp (same _ right).mp

private theorem redirectEntry_continues {actionName : String} {actionId : Int} {before after : ActionManager}
    {conflict flag : Bool} {entry result : Int × Int} (appends : Appends before actionName actionId extra)
    (apart : Apart stageId extra before actionId [entry])
    (done : redirectEntry stageId nextStageId actionName before conflict entry = some (result, after, flag)) :
    result = redirected stageId nextStageId extra before entry ∧
      Continues stageId extra before after conflict flag [entry] := by
  unfold redirectEntry at done
  split at done
  · next leads =>
      obtain ⟨next, found, done⟩ := Option.bind_eq_some_iff.mp done
      rw [appends.next found] at done
      split at done
      · next actions joined =>
          cases done
          obtain ⟨fits, own, others, same⟩ := ActionManager.concatAction_some joined
          have takes : TakesUp stageId extra before entry := ⟨leads, fits⟩
          refine ⟨by rw [redirected, if_pos takes], by simpa using fun _ => own, ?_, same, by simp [takes]⟩
          exact fun changed absent => others changed (absent entry List.mem_cons_self takes).symm
      · next refused =>
          cases done
          have fits := ActionManager.concatAction_none (apart.listed entry List.mem_cons_self) refused
          have leaves : ¬TakesUp stageId extra before entry := fun takes => absurd takes.2 (by simp [fits])
          exact ⟨by rw [redirected, if_neg leaves], by simp [leaves], fun _ _ => rfl,
            rfl, by simp [leads, leaves]⟩
  · next away =>
      cases done
      have leaves : ¬TakesUp stageId extra before entry := fun takes => away takes.1
      exact ⟨by rw [redirected, if_neg leaves], by simp [leaves], fun _ _ => rfl, rfl, by simp [away]⟩

private theorem redirectEntries_continues {actionName : String} {actionId : Int}
    {before after : ActionManager} {conflict flag : Bool} {entries result : List (Int × Int)}
    (appends : Appends before actionName actionId extra)
    (apart : Apart stageId extra before actionId entries)
    (done : redirectEntries stageId nextStageId actionName before conflict entries =
      some (result, after, flag)) :
    result = entries.map (redirected stageId nextStageId extra before) ∧
      Continues stageId extra before after conflict flag entries := by
  induction entries generalizing before conflict result with
  | nil =>
      cases done
      exact ⟨rfl, .refl _ _⟩
  | cons entry rest ih =>
      rw [redirectEntries] at done
      obtain ⟨⟨first, middle, seen⟩, here, done⟩ := Option.bind_eq_some_iff.mp done
      obtain ⟨⟨later, final, last⟩, run, done⟩ := Option.bind_eq_some_iff.mp done
      cases done
      rw [← List.singleton_append] at apart ⊢
      obtain ⟨rfl, front⟩ := redirectEntry_continues appends apart.left here
      have appendsMiddle := appends.congr front.signature (front.kept apart.left.other)
      obtain ⟨rfl, back⟩ := ih appendsMiddle (apart.right front) run
      refine ⟨congrArg (List.cons _) (List.map_congr_left fun other member => ?_),
        front.append back apart.once⟩
      exact redirected_congr (front.earlier apart.once member)

def redirectedStage (stageId nextStageId : Int) (extra : List Assign) (actions : ActionManager)
    (stage : Stage) : Stage :=
  if stage.removed then stage
  else { stage with actionProc := stage.actionProc.map (redirected stageId nextStageId extra actions) }

theorem redirectStages_continues {actionName : String} {actionId : Int} {before after : ActionManager}
    {conflict flag : Bool} {stages result : List Stage} (appends : Appends before actionName actionId extra)
    (apart : Apart stageId extra before actionId ((liveStages stages).flatMap Stage.actionProc))
    (done : redirectStages stageId nextStageId actionName before conflict stages =
      some (result, after, flag)) :
    result = stages.map (redirectedStage stageId nextStageId extra before) ∧
      Continues stageId extra before after conflict flag ((liveStages stages).flatMap Stage.actionProc) := by
  induction stages generalizing before conflict result with
  | nil =>
      cases done
      exact ⟨rfl, .refl _ _⟩
  | cons stage rest ih =>
      rw [redirectStages] at done
      obtain ⟨⟨first, middle, seen⟩, here, done⟩ := Option.bind_eq_some_iff.mp done
      obtain ⟨⟨later, final, last⟩, run, done⟩ := Option.bind_eq_some_iff.mp done
      cases done
      unfold redirectStage at here
      cases removed : stage.removed with
      | true =>
          rw [if_pos removed] at here
          cases here
          have live : liveStages (stage :: rest) = liveStages rest := by simp [liveStages, removed]
          rw [live] at apart ⊢
          obtain ⟨rfl, back⟩ := ih appends apart run
          exact ⟨by rw [List.map_cons, redirectedStage, if_pos removed], back⟩
      | false =>
          rw [if_neg (by simp [removed])] at here
          obtain ⟨⟨entries, _, _⟩, moved, here⟩ := Option.bind_eq_some_iff.mp here
          cases here
          have live : (liveStages (stage :: rest)).flatMap Stage.actionProc =
              stage.actionProc ++ (liveStages rest).flatMap Stage.actionProc := by
            simp [liveStages, removed]
          rw [live] at apart ⊢
          obtain ⟨rfl, front⟩ := redirectEntries_continues appends apart.left moved
          have appendsMiddle := appends.congr front.signature (front.kept apart.left.other)
          obtain ⟨rfl, back⟩ := ih appendsMiddle (apart.right front) run
          refine ⟨?_, front.append back apart.once⟩
          rw [List.map_cons, redirectedStage, if_neg (by simp [removed])]
          refine congrArg _ (List.map_congr_left fun other member => ?_)
          unfold redirectedStage
          split
          · rfl
          · next stays =>
              have inside : ∀ entry ∈ other.actionProc, entry ∈ (liveStages rest).flatMap Stage.actionProc :=
                fun entry listed => List.mem_flatMap.mpr
                  ⟨other, List.mem_filter.mpr ⟨member, by simpa using stays⟩, listed⟩
              rw [List.map_congr_left fun entry listed =>
                redirected_congr (front.earlier apart.once (inside entry listed))]

end

/-! ### The declared stages -/

/-- The action of a stage that runs nothing else, which takes no parameters, and the stage it leads on to. -/
def single (state : StageState) (position : Nat) : Option (Int × Int) := do
  let stage ← state.stages.logicalStages[position]?
  let entry ← stage.definition.getVirtualAction
  let action ← state.actions.lookupName entry.actionName
  if action.parameterNum = 0 then some (action.id, stageIdOf state.stages entry.stageName) else none

/-- Where an entry leads once the stages before a bound were looked at, and what its action was
continued by. An entry that leads to a single stage takes up the action of that stage, unless both
assign one field, and leads on. -/
def course (state : StageState) : Nat → Int × Int → Int × List Assign
  | 0, entry => (entry.2, [])
  | bound + 1, entry =>
      match single state bound with
      | none => course state bound entry
      | some own =>
          let continued entry := state.actions.primitives entry.1 ++ (course state bound entry).2
          if (course state bound entry).1 = bound ∧ canConcat (continued entry) (continued own) = true then
            (own.2, (course state bound entry).2 ++ continued own)
          else course state bound entry

/-- What the action of an entry has come to assign. -/
def continued (state : StageState) (bound : Nat) (entry : Int × Int) : List Assign :=
  state.actions.primitives entry.1 ++ (course state bound entry).2

def Fits (state : StageState) (position : Nat) (own entry : Int × Int) : Prop :=
  canConcat (continued state position entry) (continued state position own) = true

instance (state : StageState) (position : Nat) (own entry : Int × Int) :
    Decidable (Fits state position own entry) :=
  inferInstanceAs (Decidable (_ = _))

/-- An entry takes up the action of the stage at a position. -/
def Absorbs (state : StageState) (position : Nat) (own entry : Int × Int) : Prop :=
  (course state position entry).1 = position ∧ Fits state position own entry

instance (state : StageState) (position : Nat) (own entry : Int × Int) :
    Decidable (Absorbs state position own entry) :=
  inferInstanceAs (Decidable (_ ∧ _))

def entriesOutside (state : StageState) (removed : List Nat) : List (Int × Int) :=
  ((fillActionProc state).stages.logicalStages.zipIdx.filter fun item => item.2 ∉ removed).flatMap fun item =>
    item.1.actionProc

/-- The single stages before a bound whose action every entry takes up that leads to them. These are
removed. -/
def removedBefore (state : StageState) : Nat → List Nat
  | 0 => []
  | bound + 1 =>
      if (single state bound).any fun own => ∀ entry ∈ entriesOutside state (removedBefore state bound),
          (course state bound entry).1 = bound → Fits state bound own entry then
        bound :: removedBefore state bound
      else removedBefore state bound

def removedStages (state : StageState) : List Nat := removedBefore state state.stages.logicalStages.length

/-- The entries of the stages that are still there. -/
def stayingEntries (state : StageState) (bound : Nat) : List (Int × Int) :=
  entriesOutside state (removedBefore state bound)

/-- The stage that takes the place of a removed one. -/
def settle (state : StageState) : Nat → Int → Int
  | 0, target => target
  | bound + 1, target =>
      match single state bound with
      | none => settle state bound target
      | some own =>
          if bound ∈ removedBefore state (bound + 1) ∧
            settle state bound target = bound then settle state bound own.2
          else settle state bound target

/-- A way through single stages, with what their actions assign. -/
inductive Through (state : StageState) : Int → List Assign → Int → Prop
  | stop (target : Int) : Through state target [] target
  | pass {position : Nat} {own : Int × Int} {target : Int} {extra : List Assign}
      (here : single state position = some own)
      (rest : Through state own.2 extra target) :
      Through state position (state.actions.primitives own.1 ++ extra) target

/-- From a removed stage to the one that has taken its place nothing is assigned. -/
def Idle (state : StageState) (position : Nat) : Prop :=
  Through state position [] (settle state state.stages.logicalStages.length position)

/-- No stage before it stays. -/
def FirstStaying (state : StageState) (stageId : Int) : Prop :=
  ∀ position : Nat, position < stageId → position ∈ removedStages state

/-- When the entries of the stages that stay are led on right. An action is not listed in two
entries one of which takes up assignments; what leads on to the stage behind a single one arrives
where the single one itself leads by then; and no entry is left behind at a removed stage, or before
another removed one unless the first stage is behind that. -/
structure EntriesFollow (state : StageState) : Prop where
  once : ∀ position own, single state position = some own → continued state position own ≠ [] →
    (stayingEntries state position).Pairwise fun first second =>
      Absorbs state position own first ∨ Absorbs state position own second → first.1 ≠ second.1
  onward : ∀ position own, single state position = some own → ∀ entry ∈ stayingEntries state position,
    Absorbs state position own entry →
      settle state position own.2 = settle state position (course state position own).1
  behind : ∀ position ∈ removedStages state, ∀ entry ∈ stayingEntries state (position + 1),
    settle state position (course state position entry).1 = position →
      (course state position entry).1 = position
  chains : ∀ entry ∈ stayingEntries state state.stages.logicalStages.length, ∀ position ∈ removedStages state,
    (course state state.stages.logicalStages.length entry).1 = position →
      ∀ own, single state position = some own →
      ∀ next ∈ removedStages state, own.2 = next →
        FirstStaying state (settle state state.stages.logicalStages.length own.2)

/-- When what the removal does is right. The entries are led on right, and removed stages that the
pipeline starts at or that a gateway leads to are idle. -/
structure Untangled (state : StageState) : Prop extends EntriesFollow state where
  first : 0 ∈ removedStages state → Idle state 0 ∧
    FirstStaying state (settle state state.stages.logicalStages.length 0)
  gateways : ∀ stage ∈ state.stages.logicalStages, ∀ entry ∈ stage.definition.matcher.switchEntries, ∀ name,
    entry.value = .stage name → ∀ position ∈ removedStages state, stageIdOf state.stages name = position →
      Idle state position

/-- The state the pass starts with: every stage has its position as id, and no two actions have one id. -/
structure Unprocessed (state : StageState) : Prop where
  positions : state.stages.logicalStages.map Stage.stageId =
    (List.range state.stages.logicalStages.length).map fun (position : Nat) => (position : Int)
  stays : ∀ stage ∈ state.stages.logicalStages, stage.removed = false
  actionIds : (state.actions.map fun entry => entry.2.id).Nodup
  listed : state.actions ≠ [] → ∃ entry ∈ state.actions.signature, entry.2.1 = 0

section

variable {state : StageState} {bound : Nat}

theorem filled_stage {position : Nat} {stage : Stage}
    (here : (fillActionProc state).stages.logicalStages[position]? = some stage) :
    ∃ before, state.stages.logicalStages[position]? = some before ∧
      stage = { before with actionProc := before.definition.executor.map (actionProcEntry state) } := by
  rw [fillActionProc, List.getElem?_map] at here
  obtain ⟨before, there, rfl⟩ := Option.map_eq_some_iff.mp here
  exact ⟨before, there, rfl⟩

theorem length_filled : (fillActionProc state).stages.logicalStages.length =
      state.stages.logicalStages.length := by
  rw [fillActionProc, List.length_map]

theorem Unprocessed.stageId (unprocessed : Unprocessed state) {position : Nat} {stage : Stage}
    (here : state.stages.logicalStages[position]? = some stage) : stage.stageId = position := by
  have ids := congrArg (fun ids : List Int => ids[position]?) unprocessed.positions
  have inside := (List.getElem?_eq_some_iff.mp here).1
  simp only [List.getElem?_map, here, Option.map_some, List.getElem?_range inside, Option.some.injEq] at ids
  exact ids

theorem getVirtualAction_some {stage : StageDef} {entry : ExecutorEntry}
    (virtual : stage.getVirtualAction = some entry) :
    stage.executor = [entry] ∧ stage.matcher.switchEntries.all (·.value.isTableStmt) = true := by
  unfold StageDef.getVirtualAction at virtual
  split at virtual
  · next tables =>
      split at virtual
      · next only =>
          cases virtual
          exact ⟨only, tables⟩
      · cases virtual
  · cases virtual

theorem single_iff {position : Nat} {own : Int × Int} :
    single state position = some own ↔ ∃ stage entry action,
    state.stages.logicalStages[position]? = some stage ∧ stage.definition.getVirtualAction = some entry ∧
      state.actions.lookupName entry.actionName = some action ∧ action.parameterNum = 0 ∧
        own = (action.id, stageIdOf state.stages entry.stageName) := by
  constructor
  · intro isSingle
    obtain ⟨stage, here, isSingle⟩ := Option.bind_eq_some_iff.mp isSingle
    obtain ⟨entry, virtual, isSingle⟩ := Option.bind_eq_some_iff.mp isSingle
    obtain ⟨action, found, isSingle⟩ := Option.bind_eq_some_iff.mp isSingle
    split at isSingle
    · next noParameters => exact ⟨stage, entry, action, here, virtual, found, noParameters,
        (Option.some.inj isSingle).symm⟩
    · cases isSingle
  · rintro ⟨stage, entry, action, here, virtual, found, noParameters, rfl⟩
    simp [single, here, virtual, found, noParameters]

/-- A single stage lists its own entry. -/
theorem single_entries {position : Nat} {own : Int × Int} (isSingle : single state position = some own) :
    ∃ stage, (fillActionProc state).stages.logicalStages[position]? = some stage ∧
      stage.actionProc = [own] := by
  obtain ⟨stage, entry, action, here, virtual, found, _, rfl⟩ := single_iff.mp isSingle
  refine ⟨{ stage with actionProc := stage.definition.executor.map (actionProcEntry state) }, ?_, ?_⟩
  · rw [fillActionProc, List.getElem?_map, here, Option.map_some]
  · rw [(getVirtualAction_some virtual).1, List.map_singleton, actionProcEntry, found,
      Option.map_some, Option.getD_some]

theorem single_inside {position : Nat} {own : Int × Int} (isSingle : single state position = some own) :
    position < state.stages.logicalStages.length := by
  obtain ⟨stage, _, _, here, _⟩ := single_iff.mp isSingle
  exact (List.getElem?_eq_some_iff.mp here).1

/-! ### The course of an entry -/

theorem course_none (none : single state bound = none) (entry : Int × Int) :
    course state (bound + 1) entry = course state bound entry := by
  rw [course, none]

theorem course_some {own : Int × Int} (isSingle : single state bound = some own) (entry : Int × Int) :
    course state (bound + 1) entry = if Absorbs state bound own entry then
      (own.2, (course state bound entry).2 ++ continued state bound own) else course state bound entry := by
  rw [course, isSingle]
  rfl

theorem continued_absorbed {own entry : Int × Int} (isSingle : single state bound = some own)
    (absorbs : Absorbs state bound own entry) :
    continued state (bound + 1) entry = continued state bound entry ++ continued state bound own := by
  rw [continued, course_some isSingle, if_pos absorbs, ← List.append_assoc]
  rfl

theorem continued_left {own entry : Int × Int} (isSingle : single state bound = some own)
    (leaves : ¬Absorbs state bound own entry) :
    continued state (bound + 1) entry = continued state bound entry := by
  rw [continued, course_some isSingle, if_neg leaves]
  rfl

/-! ### The removed stages -/

/-- A stage is removed when every entry that leads to it takes up its action. -/
theorem mem_removedBefore_succ {position : Nat} : position ∈ removedBefore state (bound + 1) ↔
    position ∈ removedBefore state bound ∨ position = bound ∧ ∃ own, single state bound = some own ∧
      ∀ entry ∈ stayingEntries state bound, (course state bound entry).1 = bound →
        Fits state bound own entry := by
  rw [removedBefore]
  split
  · next removed =>
      simp only [Option.any_eq_true, decide_eq_true_eq] at removed
      simp only [List.mem_cons, or_comm (a := position = bound)]
      exact or_congr_right (iff_self_and.mpr fun _ => removed)
  · next stays =>
      simp only [Option.any_eq_true, decide_eq_true_eq] at stays
      exact (or_iff_left fun both => stays both.2).symm

theorem removedBefore_below {position : Nat} (removed : position ∈ removedBefore state bound) :
    position < bound := by
  induction bound with
  | zero => cases removed
  | succ bound ih =>
      rcases mem_removedBefore_succ.mp removed with before | ⟨rfl, _⟩
      · exact Nat.lt_succ_of_lt (ih before)
      · exact Nat.lt_succ_self _

theorem removedBefore_single {position : Nat} (removed : position ∈ removedBefore state bound) :
    ∃ own, single state position = some own := by
  induction bound with
  | zero => cases removed
  | succ bound ih =>
      rcases mem_removedBefore_succ.mp removed with before | ⟨rfl, own, isSingle, _⟩
      · exact ih before
      · exact ⟨own, isSingle⟩

theorem mem_removedBefore_of_le {position later : Nat} (le : bound ≤ later) (below : position < bound) :
    position ∈ removedBefore state later ↔ position ∈ removedBefore state bound := by
  induction le with
  | refl => rfl
  | @step later le ih =>
      rw [mem_removedBefore_succ, ← ih]
      exact or_iff_left fun both => (both.1 ▸ lt_of_lt_of_le below le).false

theorem removedBefore_mono {position later : Nat} (le : bound ≤ later)
    (removed : position ∈ removedBefore state bound) :
    position ∈ removedBefore state later :=
  (mem_removedBefore_of_le le (removedBefore_below removed)).mpr removed

theorem mem_stayingEntries {entry : Int × Int} :
    entry ∈ stayingEntries state bound ↔ ∃ (position : Nat) (stage : Stage),
    (fillActionProc state).stages.logicalStages[position]? = some stage ∧
      position ∉ removedBefore state bound ∧ entry ∈ stage.actionProc := by
  simp only [stayingEntries, entriesOutside, List.mem_flatMap, List.mem_filter, Prod.exists,
    List.mem_zipIdx_iff_getElem?, decide_eq_true_eq]
  constructor
  · rintro ⟨stage, position, ⟨here, stays⟩, member⟩
    exact ⟨position, stage, here, stays, member⟩
  · rintro ⟨position, stage, here, stays, member⟩
    exact ⟨stage, position, ⟨here, stays⟩, member⟩

theorem stayingEntries_succ {entry : Int × Int} (member : entry ∈ stayingEntries state (bound + 1)) :
    entry ∈ stayingEntries state bound := by
  obtain ⟨position, stage, here, stays, inside⟩ := mem_stayingEntries.mp member
  exact mem_stayingEntries.mpr ⟨position, stage, here,
    fun before => stays (mem_removedBefore_succ.mpr (.inl before)), inside⟩

theorem own_staying {own : Int × Int} (isSingle : single state bound = some own) :
    own ∈ stayingEntries state bound := by
  obtain ⟨stage, here, only⟩ := single_entries isSingle
  refine mem_stayingEntries.mpr ⟨bound, stage, here, fun removed => ?_, only ▸ List.mem_singleton_self own⟩
  exact (removedBefore_below removed).false

/-! ### The places of removed stages -/

theorem settle_none (none : single state bound = none) (target : Int) :
    settle state (bound + 1) target = settle state bound target := by
  rw [settle, none]

theorem settle_some {own : Int × Int} (isSingle : single state bound = some own) (target : Int) :
    settle state (bound + 1) target = if bound ∈ removedBefore state (bound + 1) ∧
      settle state bound target = bound then
      settle state bound own.2 else settle state bound target := by
  rw [settle, isSingle]

theorem settle_kept {target : Int} (stays : ∀ position ∈ removedBefore state bound, target ≠ position) :
    settle state bound target = target := by
  induction bound with
  | zero => rfl
  | succ bound ih =>
      have before := ih fun position removed => stays position (mem_removedBefore_succ.mpr (.inl removed))
      cases isSingle : single state bound with
      | none => rw [settle_none isSingle, before]
      | some own =>
          rw [settle_some isSingle, before, if_neg]
          exact fun both => stays bound both.1 both.2

theorem settle_next {own : Int × Int} (isSingle : single state bound = some own) :
    settle state (bound + 1) own.2 = settle state bound own.2 := by
  rw [settle_some isSingle]
  split <;> rfl

/-- A removed stage gives its place to the stage it leads on to. -/
theorem settle_removed {position : Nat} {own : Int × Int} (isSingle : single state position = some own)
    (removed : position ∈ removedBefore state bound) :
    settle state bound position = settle state bound own.2 := by
  induction bound with
  | zero => cases removed
  | succ bound ih =>
      rcases mem_removedBefore_succ.mp removed with before | ⟨rfl, _⟩
      · have same := ih before
        cases here : single state bound with
        | none => rw [settle_none here, settle_none here, same]
        | some other => rw [settle_some here, settle_some here, same]
      · have own_place : settle state position position = position :=
          settle_kept fun other before => by
            have := removedBefore_below before
            omega
        rw [settle_next isSingle, settle_some isSingle, if_pos ⟨removed, own_place⟩]

/-! ### What a packet meets -/

theorem Through.append {target middle last : Int} {front back : List Assign}
    (first : Through state target front middle)
    (second : Through state middle back last) : Through state target (front ++ back) last := by
  induction first with
  | stop => exact second
  | pass here _ ih =>
      rw [List.append_assoc]
      exact .pass here (ih second)

/-- Of two ways from one place, one continues the other. -/
theorem Through.compare {target first second : Int} {front back : List Assign}
    (one : Through state target front first) (two : Through state target back second) :
    (∃ rest, Through state first rest second ∧ back = front ++ rest) ∨
      ∃ rest, Through state second rest first ∧ front = back ++ rest := by
  induction one generalizing back with
  | stop => exact .inl ⟨back, two, rfl⟩
  | @pass position own target extra here rest ih =>
      generalize start : (position : Int) = place at two
      cases two with
      | stop =>
          subst start
          exact .inr ⟨_, .pass here rest, rfl⟩
      | @pass other another _ more there later =>
          obtain rfl : position = other := Int.ofNat.inj start
          cases here.symm.trans there
          rcases ih later with ⟨behind, way, rfl⟩ | ⟨behind, way, rfl⟩
          · exact .inl ⟨behind, way, (List.append_assoc ..).symm⟩
          · exact .inr ⟨behind, way, (List.append_assoc ..).symm⟩

/-- If every single stage leads downwards, no way comes back to where it starts. -/
theorem Through.down {rank : Int → Nat}
    (down : ∀ position own, single state position = some own → rank own.2 < rank position)
    {target last : Int} {extra : List Assign} (through : Through state target extra last) :
    last = target ∧ extra = [] ∨ rank last < rank target := by
  induction through with
  | stop => exact .inl ⟨rfl, rfl⟩
  | pass here _ ih =>
      have below := down _ _ here
      rcases ih with ⟨rfl, _⟩ | lower
      · exact .inr below
      · exact .inr (lower.trans below)

/-- Then only one thing is assigned on the way from one place to another. -/
theorem Through.unique {rank : Int → Nat}
    (down : ∀ position own, single state position = some own → rank own.2 < rank position)
    {target last : Int} {front back : List Assign} (one : Through state target front last)
    (two : Through state target back last) : front = back := by
  have none {rest : List Assign} (way : Through state last rest last) : rest = [] :=
    (way.down down).elim And.right fun lower => absurd lower (lt_irrefl _)
  rcases one.compare two with ⟨rest, way, rfl⟩ | ⟨rest, way, rfl⟩
  · rw [none way, List.append_nil]
  · rw [none way, List.append_nil]

/-- An entry has taken up what is assigned on its way to where it leads by then. -/
theorem through_course (follow : EntriesFollow state) {entry : Int × Int}
    (member : entry ∈ stayingEntries state bound) :
    Through state entry.2 (course state bound entry).2 (settle state bound (course state bound entry).1) := by
  induction bound generalizing entry with
  | zero => exact .stop _
  | succ bound ih =>
      have before := stayingEntries_succ member
      have through := ih before
      cases isSingle : single state bound with
      | none => rwa [course_none isSingle, settle_none isSingle]
      | some own =>
          rw [course_some isSingle]
          by_cases absorbs : Absorbs state bound own entry
          · have place : settle state bound bound = bound :=
              settle_kept fun position removed => by
                have := removedBefore_below removed
                omega
            rw [absorbs.1, place] at through
            have onward := ih (own_staying isSingle)
            rw [← follow.onward bound own isSingle entry before absorbs] at onward
            rw [if_pos absorbs, settle_next isSingle]
            exact through.append (.pass isSingle onward)
          · rw [if_neg absorbs, settle_some isSingle, if_neg]
            · exact through
            · -- an entry that leads to a removed stage takes up its action
              rintro ⟨removed, arrives⟩
              have inside := single_inside isSingle
              have leads := follow.behind bound (removedBefore_mono inside removed) entry member arrives
              rcases mem_removedBefore_succ.mp removed with earlier | ⟨_, other, isOther, all⟩
              · exact (removedBefore_below earlier).false
              · cases isSingle.symm.trans isOther
                exact absorbs ⟨leads, all entry before leads⟩

/-! ### The loop -/

/-- An entry with the stage it leads to by then. -/
def moved (state : StageState) (bound : Nat) (entry : Int × Int) : Int × Int :=
  (entry.1, (course state bound entry).1)

/-- The state after the stages before a bound were looked at. -/
structure Removing (state : StageState) (bound : Nat) (after : StageState × GotoMap) : Prop where
  length : after.1.stages.logicalStages.length = state.stages.logicalStages.length
  stages : ∀ (position : Nat) stage kept, (fillActionProc state).stages.logicalStages[position]? =
    some stage → after.1.stages.logicalStages[position]? = some kept → kept.stageId = position ∧
      kept.definition = stage.definition ∧
      (kept.removed = true ↔ position ∈ removedBefore state bound) ∧
      (kept.removed = false → kept.actionProc = stage.actionProc.map (moved state bound))
  names : after.1.stages.names = state.stages.names
  signature : after.1.actions.signature = state.actions.signature
  primitives : ∀ entry ∈ stayingEntries state bound, after.1.actions.primitives entry.1 =
    continued state bound entry
  goto : ∀ position ∈ removedBefore state bound, after.2 position = (single state position).map Prod.snd

private theorem live_entries {items : List (Stage × Nat)} {kept : List Stage} {removed : List Nat}
    {move : Int × Int → Int × Int}
    (related : List.Forall₂ (fun item stage => (stage.removed = true ↔ item.2 ∈ removed) ∧
      (stage.removed = false → stage.actionProc = item.1.actionProc.map move)) items kept) :
    (liveStages kept).flatMap Stage.actionProc =
      ((items.filter fun item => item.2 ∉ removed).flatMap fun item => item.1.actionProc).map move := by
  induction related with
  | nil => rfl
  | @cons item stage _ _ head _ ih =>
      obtain ⟨gone, entries⟩ := head
      rw [liveStages] at ih ⊢
      cases isRemoved : stage.removed with
      | true => simp [isRemoved, gone.mp isRemoved, ih]
      | false =>
          have stays : item.2 ∉ removed := fun inside => by simp [gone.mpr inside] at isRemoved
          simp [isRemoved, stays, ih, entries isRemoved]

namespace Removing

variable {after : StageState × GotoMap}

private theorem start (unprocessed : Unprocessed state) :
    Removing state 0 (fillActionProc state, fun _ => none) := by
  refine ⟨length_filled, ?_, rfl, rfl, ?_, fun _ removed => by cases removed⟩
  · intro position stage kept here there
    cases here.symm.trans there
    obtain ⟨before, first, rfl⟩ := filled_stage here
    have number := unprocessed.stageId first
    refine ⟨number, rfl, ?_, fun _ => (List.map_id'' (fun _ => rfl) _).symm⟩
    simp [unprocessed.stays before (List.mem_of_getElem? first), removedBefore]
  · intro entry _
    exact (List.append_nil _).symm

private theorem entries (removing : Removing state bound after) :
    (liveStages after.1.stages.logicalStages).flatMap Stage.actionProc =
      (stayingEntries state bound).map (moved state bound) := by
  refine live_entries (List.forall₂_iff_get.mpr ⟨?_, fun index left right => ?_⟩)
  · rw [List.length_zipIdx, length_filled, removing.length]
  · rw [List.length_zipIdx] at left
    have both := removing.stages index _ _ (List.getElem?_eq_getElem left) (List.getElem?_eq_getElem right)
    simpa using both.2.2

private theorem none (removing : Removing state bound after) (none : single state bound = none) :
    Removing state (bound + 1) after := by
  have removed : removedBefore state (bound + 1) = removedBefore state bound := by
    rw [removedBefore, none]
    rfl
  have same : moved state (bound + 1) = moved state bound :=
    funext fun entry => by rw [moved, moved, course_none none]
  refine ⟨removing.length, ?_, removing.names, removing.signature, ?_, ?_⟩
  · rw [removed, same]
    exact removing.stages
  · intro entry member
    rw [continued, course_none none]
    exact removing.primitives entry (stayingEntries_succ member)
  · rw [removed]
    exact removing.goto

/-- Names stand for the same stages all along. -/
theorem stageIdOf_eq (unprocessed : Unprocessed state) (removing : Removing state bound after)
    (name : String) :
    stageIdOf after.1.stages name = stageIdOf state.stages name := by
  unfold stageIdOf StageManager.lookupName
  rw [removing.names]
  cases state.stages.names.idxOf? name with
  | none => rfl
  | some position =>
      have ids : after.1.stages.logicalStages[position]?.map Stage.stageId =
          state.stages.logicalStages[position]?.map Stage.stageId := by
        cases here : after.1.stages.logicalStages[position]? with
        | none =>
            rw [List.getElem?_eq_none_iff, removing.length, ← List.getElem?_eq_none_iff] at here
            rw [here]
        | some kept =>
            obtain ⟨before, first⟩ : ∃ before, state.stages.logicalStages[position]? = some before :=
              ⟨_, List.getElem?_eq_getElem (removing.length ▸ (List.getElem?_eq_some_iff.mp here).1)⟩
            have filled : (fillActionProc state).stages.logicalStages[position]? =
                some { before with
                         actionProc := before.definition.executor.map (actionProcEntry state) } := by
              rw [fillActionProc, List.getElem?_map, first, Option.map_some]
            rw [first, Option.map_some, Option.map_some, (removing.stages position _ kept filled here).1,
              unprocessed.stageId first]
      exact congrArg (Option.getD · (-1)) ids

section

variable {own : Int × Int} (removing : Removing state bound after) (isSingle : single state bound = some own)
include removing isSingle

omit isSingle in
private theorem takesUp_iff {entry : Int × Int} (member : entry ∈ stayingEntries state bound) :
    TakesUp bound (continued state bound own) after.1.actions (moved state bound entry) ↔
      Absorbs state bound own entry := by
  rw [TakesUp, moved, removing.primitives entry member]
  rfl

private theorem redirected_eq {entry : Int × Int} (member : entry ∈ stayingEntries state bound) :
    redirected bound own.2 (continued state bound own) after.1.actions (moved state bound entry) =
      moved state (bound + 1) entry := by
  by_cases absorbs : Absorbs state bound own entry
  · rw [redirected, if_pos ((removing.takesUp_iff member).mpr absorbs), moved, moved,
      course_some isSingle, if_pos absorbs]
  · rw [redirected, if_neg fun takes => absorbs ((removing.takesUp_iff member).mp takes), moved, moved,
      course_some isSingle, if_neg absorbs]

private theorem apart (unprocessed : Unprocessed state) (follow : EntriesFollow state) :
    Apart bound (continued state bound own) after.1.actions own.1
      ((liveStages after.1.stages.logicalStages).flatMap Stage.actionProc) := by
  rw [removing.entries]
  refine ⟨?_, ?_, ?_⟩
  · intro entry member
    obtain ⟨declared, inside, rfl⟩ := List.mem_map.mp member
    obtain ⟨position, stage, here, _, listed⟩ := mem_stayingEntries.mp inside
    obtain ⟨before, _, rfl⟩ := filled_stage here
    obtain ⟨executor, _, rfl⟩ := List.mem_map.mp listed
    rw [removing.signature, moved, actionProcEntry]
    cases found : state.actions.lookupName executor.actionName with
    | none =>
        obtain ⟨_, _, action, _, _, named, _⟩ := single_iff.mp isSingle
        exact unprocessed.listed fun empty => by simp [empty, ActionManager.lookupName] at named
    | some action =>
        obtain ⟨item, first, rfl⟩ := Option.map_eq_some_iff.mp found
        exact ⟨_, List.mem_map_of_mem (List.mem_of_find?_eq_some first), rfl⟩
  · intro some entry member takes
    obtain ⟨declared, inside, rfl⟩ := List.mem_map.mp member
    have absorbs := (removing.takesUp_iff inside).mp takes
    have symmetric : Std.Symm fun first second : Int × Int =>
        Absorbs state bound own first ∨ Absorbs state bound own second → first.1 ≠ second.1 :=
      ⟨fun first second unequal either => (unequal either.symm).symm⟩
    refine (follow.once bound own isSingle some).forall inside (own_staying isSingle) ?_ (.inl absorbs)
    rintro rfl
    exact some (ActionManager.canConcat_self absorbs.2)
  · intro some
    refine List.pairwise_map.mpr
      ((follow.once bound own isSingle some).imp_of_mem fun left right unequal takes => ?_)
    exact unequal (takes.imp (removing.takesUp_iff left).mp (removing.takesUp_iff right).mp)

variable {actions : ActionManager} {flag : Bool}
  (continues : Continues bound (continued state bound own) after.1.actions
  actions false flag ((liveStages after.1.stages.logicalStages).flatMap Stage.actionProc))
include continues

private theorem continued_eq (follow : EntriesFollow state) {entry : Int × Int}
    (member : entry ∈ stayingEntries state bound) :
    actions.primitives entry.1 = continued state (bound + 1) entry := by
  rw [removing.entries] at continues
  by_cases absorbs : Absorbs state bound own entry
  · have takes := (removing.takesUp_iff member).mpr absorbs
    rw [continued_absorbed isSingle absorbs, ← removing.primitives entry member]
    exact continues.taken (moved state bound entry) (List.mem_map_of_mem member) takes
  · rw [continued_left isSingle absorbs, ← removing.primitives entry member]
    refine continues.kept fun some other inside takes => ?_
    obtain ⟨declared, listed, rfl⟩ := List.mem_map.mp inside
    have symmetric : Std.Symm fun first second : Int × Int =>
        Absorbs state bound own first ∨ Absorbs state bound own second → first.1 ≠ second.1 :=
      ⟨fun first second unequal either => (unequal either.symm).symm⟩
    have taken := (removing.takesUp_iff listed).mp takes
    refine (follow.once bound own isSingle some).forall listed member ?_ (.inl taken)
    rintro rfl
    exact absorbs taken

private theorem flag_iff : flag = false ↔ bound ∈ removedBefore state (bound + 1) := by
  rw [removing.entries] at continues
  rw [mem_removedBefore_succ, or_iff_right fun removed => (removedBefore_below removed).false,
    ← Bool.not_eq_true, continues.flag]
  constructor
  · intro none
    refine ⟨rfl, own, isSingle, fun entry member leads => ?_⟩
    by_contra clashes
    refine none (.inr ⟨moved state bound entry, List.mem_map_of_mem member, leads, fun takes => clashes ?_⟩)
    exact ((removing.takesUp_iff member).mp takes).2
  · rintro ⟨_, other, isOther, all⟩ (conflict | ⟨entry, member, leads, leaves⟩)
    · cases conflict
    · cases isSingle.symm.trans isOther
      obtain ⟨declared, inside, rfl⟩ := List.mem_map.mp member
      exact leaves ((removing.takesUp_iff inside).mpr ⟨leads, all declared inside leads⟩)

omit continues in
private theorem stage {position : Nat} {filled kept : Stage}
    (here : (fillActionProc state).stages.logicalStages[position]? = some filled)
    (there : after.1.stages.logicalStages[position]? = some kept) :
    let result := redirectedStage bound own.2 (continued state bound own) after.1.actions kept
    result.stageId = position ∧ result.definition = filled.definition ∧
      (result.removed = true ↔ position ∈ removedBefore state bound) ∧
      (result.removed = false → result.actionProc = filled.actionProc.map (moved state (bound + 1))) := by
  obtain ⟨number, definition, gone, actionProc⟩ := removing.stages position filled kept here there
  unfold redirectedStage
  split
  · next removed => exact ⟨number, definition, gone, fun stays => by rw [removed] at stays; cases stays⟩
  · next stays =>
      refine ⟨number, definition, gone, fun removed => ?_⟩
      rw [actionProc (by simpa using stays), List.map_map]
      refine List.map_congr_left fun entry member => removing.redirected_eq isSingle ?_
      exact mem_stayingEntries.mpr ⟨position, filled, here, fun before => stays (gone.mpr before), member⟩

private theorem keep (follow : EntriesFollow state) (conflict : flag = true) : Removing state (bound + 1)
    ({ stages := { after.1.stages with
         logicalStages := after.1.stages.logicalStages.map
           (redirectedStage bound own.2 (continued state bound own) after.1.actions) }
       actions }, after.2) := by
  have stays : bound ∉ removedBefore state (bound + 1) := fun removed => by
    rw [(removing.flag_iff isSingle continues).mpr removed] at conflict
    cases conflict
  have same : ∀ position, position ∈ removedBefore state (bound + 1) ↔
      position ∈ removedBefore state bound := by
    intro position
    rw [mem_removedBefore_succ]
    exact or_iff_left fun both => stays (mem_removedBefore_succ.mpr (.inr ⟨rfl, both.2⟩))
  refine ⟨(List.length_map _).trans removing.length, ?_, removing.names,
    continues.signature.trans removing.signature, ?_, ?_⟩
  · intro position filled kept here there
    rw [List.getElem?_map] at there
    obtain ⟨before, isBefore, rfl⟩ := Option.map_eq_some_iff.mp there
    rw [same]
    exact removing.stage isSingle here isBefore
  · exact fun entry member => removing.continued_eq isSingle continues follow (stayingEntries_succ member)
  · exact fun position removed => removing.goto position ((same position).mp removed)

private theorem remove (follow : EntriesFollow state) (noConflict : flag = false) : Removing state (bound + 1)
    ({ stages := { after.1.stages with
         logicalStages := (after.1.stages.logicalStages.map
           (redirectedStage bound own.2 (continued state bound own) after.1.actions)).modify
             bound fun stage =>
             { stage with removed := true } }
       actions }, Function.update after.2 bound (some own.2)) := by
  have removed := (removing.flag_iff isSingle continues).mp noConflict
  have behind : ∀ position, position ≠ bound →
      (position ∈ removedBefore state (bound + 1) ↔ position ∈ removedBefore state bound) := by
    intro position different
    rw [mem_removedBefore_succ]
    exact or_iff_left fun both => different both.1
  refine ⟨?_, ?_, removing.names, continues.signature.trans removing.signature, ?_, ?_⟩
  · rw [List.length_modify, List.length_map, removing.length]
  · intro position filled kept here there
    rw [List.getElem?_modify] at there
    obtain ⟨middle, isMiddle, rfl⟩ := Option.map_eq_some_iff.mp there
    rw [List.getElem?_map] at isMiddle
    obtain ⟨before, isBefore, rfl⟩ := Option.map_eq_some_iff.mp isMiddle
    have stage := removing.stage isSingle here isBefore
    by_cases isBound : bound = position
    · subst isBound
      rw [if_pos rfl]
      exact ⟨stage.1, stage.2.1, by simp [removed], fun stays => by cases stays⟩
    · rw [if_neg isBound, behind position (Ne.symm isBound)]
      exact stage
  · exact fun entry member => removing.continued_eq isSingle continues follow (stayingEntries_succ member)
  · intro position gone
    by_cases isBound : position = bound
    · rw [isBound, isSingle]
      exact Function.update_self ..
    · refine (Function.update_of_ne (fun same => isBound (Int.ofNat.inj same)) _ _).trans ?_
      exact removing.goto position ((behind position isBound).mp gone)

end

end Removing

private theorem removing_step (unprocessed : Unprocessed state) (follow : EntriesFollow state)
    {after result : StageState × GotoMap} (removing : Removing state bound after)
    (done : removeStage after bound = some result) : Removing state (bound + 1) result := by
  obtain ⟨stage, here, done⟩ := Option.bind_eq_some_iff.mp done
  obtain ⟨before, first⟩ : ∃ before, state.stages.logicalStages[bound]? = some before :=
    ⟨_, List.getElem?_eq_getElem (removing.length ▸ (List.getElem?_eq_some_iff.mp here).1)⟩
  have filled : (fillActionProc state).stages.logicalStages[bound]? =
      some { before with actionProc := before.definition.executor.map (actionProcEntry state) } := by
    rw [fillActionProc, List.getElem?_map, first, Option.map_some]
  obtain ⟨number, definition, _⟩ := removing.stages bound _ stage filled here
  change stage.definition = before.definition at definition
  split at done
  · next virtual =>
      cases done
      exact removing.none (by simp [single, first, ← definition, virtual])
  next entry virtual =>
  obtain ⟨action, found, done⟩ := Option.bind_eq_some_iff.mp done
  obtain ⟨original, isOriginal, same⟩ : ∃ original, state.actions.lookupName entry.actionName =
    some original ∧
      (original.id, original.parameterNum) = (action.id, action.parameterNum) := by
    have names := ActionManager.lookupName_signature removing.signature entry.actionName
    rw [found] at names
    exact Option.map_eq_some_iff.mp names.symm
  obtain ⟨sameId, sameNum⟩ := Prod.mk.inj same
  split at done
  · next parameters =>
      cases done
      refine removing.none ?_
      simp only [single, first, Option.bind_eq_bind, Option.bind_some, ← definition, virtual,
        isOriginal, sameNum]
      rw [if_neg (by omega)]
  next noParameters =>
  obtain ⟨⟨stages, actions, conflict⟩, redirect, done⟩ := Option.bind_eq_some_iff.mp done
  have isSingle : single state bound = some (original.id, stageIdOf state.stages entry.stageName) :=
    single_iff.mpr ⟨before, entry, original, first, definition ▸ virtual, isOriginal, by omega, rfl⟩
  rw [number, removing.stageIdOf_eq unprocessed] at redirect done
  have appends : Appends after.1.actions entry.actionName original.id
      (continued state bound (original.id, stageIdOf state.stages entry.stageName)) := by
    refine ⟨?_, by rw [found, Option.map_some, sameId], removing.primitives _ (own_staying isSingle)⟩
    have ids := congrArg (List.map fun entry => entry.2.1) removing.signature
    simp only [ActionManager.signature, List.map_map] at ids
    exact (congrArg List.Nodup ids).mpr unprocessed.actionIds
  obtain ⟨rfl, continues⟩ :=
    redirectStages_continues appends (removing.apart isSingle unprocessed follow) redirect
  dsimp only at done
  split at done
  · next conflicts =>
      cases done
      exact removing.keep isSingle continues follow conflicts
  · next noConflict =>
      cases done
      exact removing.remove isSingle continues follow (by simpa using noConflict)

/-- The loop over all stages, from the state the pass starts with. -/
theorem removeStages_removing (unprocessed : Unprocessed state) (follow : EntriesFollow state)
    {result : StageState × GotoMap} (done : removeStages (fillActionProc state) = some result) :
    Removing state state.stages.logicalStages.length result := by
  rw [removeStages, length_filled] at done
  exact foldlM_range (fun index after => Removing state index after)
    (fun index after next _ removing step => removing_step unprocessed follow removing step) done
    (Removing.start unprocessed)

end

end ProcessorManager

end Ipbm.Compiler
