import Ipbm.Compiler.Builder
import Ipbm.Lib.Traversal
import Mathlib.Data.List.Nodup
import Mathlib.Tactic.Ring

/-! The processors `allocateProcessors` builds: which processor every stage and
every parser-only run of levels is given. -/

set_option autoImplicit false

namespace Ipbm.Compiler
open Lib IpsaConfiguration

namespace Builder

/-! ### Free processors -/

def isOpen (physicalProcId : List Int) (processors : Processors) (index : Nat) : Bool :=
  decide ((processors.getD index none).isNone ∧ physicalProcId.getD index 0 < 0)

/-- The processors a run of levels can still be given, in the order they are taken. -/
def openSlots (physicalProcId : List Int) (processors : Processors) : List Nat :=
  (List.range procCount).filter (isOpen physicalProcId processors)

/-- The processors no stage is placed on. -/
def freeSlots (physicalProcId : List Int) : List Nat :=
  (List.range procCount).filter fun index => decide (physicalProcId.getD index 0 < 0)

theorem freeProcessor_eq (physicalProcId : List Int) (processors : Processors) :
    freeProcessor physicalProcId processors = (openSlots physicalProcId processors).head? := by
  rw [openSlots, List.head?_filter]
  rfl

theorem openSlots_none (physicalProcId : List Int) :
    openSlots physicalProcId (List.replicate procCount none) = freeSlots physicalProcId := by
  refine List.filter_congr fun index member => ?_
  have inside : index < procCount := List.mem_range.mp member
  simp [isOpen, List.getD_eq_getElem?_getD, inside]

theorem nodup_openSlots (physicalProcId : List Int) (processors : Processors) :
    (openSlots physicalProcId processors).Nodup :=
  List.nodup_range.filter _

private theorem mem_openSlots {physicalProcId : List Int} {processors : Processors} {index : Nat}
    (member : index ∈ openSlots physicalProcId processors) :
    index < procCount ∧ processors.getD index none = none ∧ physicalProcId.getD index 0 < 0 := by
  obtain ⟨inside, isFree⟩ := List.mem_filter.mp member
  simp only [isOpen, Option.isNone_iff_eq_none, decide_eq_true_eq] at isFree
  exact ⟨List.mem_range.mp inside, isFree⟩

private theorem openSlots_congr {physicalProcId : List Int} {first second : Processors}
    (same : ∀ index, (second.getD index none).isNone = (first.getD index none).isNone) :
    openSlots physicalProcId second = openSlots physicalProcId first := by
  refine List.filter_congr fun index _ => ?_
  simp only [isOpen, same]

private theorem pushLevels_getElem? (processors : Processors) (own index : Nat) (levels : List Level) :
    (pushLevels processors own levels)[index]? = (processors[index]?).map fun processor =>
      if own = index then processor.map fun processor =>
        { processor with levels := processor.levels ++ levels }
      else processor := by
  rw [pushLevels, List.getElem?_modify]
  split <;> rfl

private theorem openSlots_pushLevels (physicalProcId : List Int) (processors : Processors) (own : Nat)
    (levels : List Level) :
    openSlots physicalProcId (pushLevels processors own levels) = openSlots physicalProcId processors := by
  refine openSlots_congr fun index => ?_
  rw [List.getD_eq_getElem?_getD, List.getD_eq_getElem?_getD, pushLevels_getElem?]
  cases processors[index]? with
  | none => rfl
  | some processor =>
      simp only [Option.map_some, Option.getD_some]
      split <;> simp

private theorem openSlots_set {physicalProcId : List Int} {processors : Processors} {target : Nat}
    {rest : List Nat} (length : processors.length = procCount)
    (slots : openSlots physicalProcId processors = target :: rest) (extra : Processor) :
    openSlots physicalProcId (processors.set target (some extra)) = rest := by
  have inside : target < processors.length := by
    rw [length]
    exact (mem_openSlots (slots ▸ List.mem_cons_self)).1
  have nodup : (target :: rest).Nodup := slots ▸ nodup_openSlots physicalProcId processors
  have step : openSlots physicalProcId (processors.set target (some extra)) =
      (openSlots physicalProcId processors).filter fun index => decide (index ≠ target) := by
    rw [openSlots, openSlots, List.filter_filter]
    refine List.filter_congr fun index _ => ?_
    by_cases same : index = target
    · subst same
      simp [isOpen, List.getD_eq_getElem?_getD, inside]
    · simp [isOpen, List.getD_eq_getElem?_getD, List.getElem?_set_ne (Ne.symm same), same]
  obtain ⟨fresh, _⟩ := List.nodup_cons.mp nodup
  rw [step, slots, List.filter_cons_of_neg (by simp)]
  refine List.filter_eq_self.mpr fun index member => ?_
  simp only [ne_eq, decide_eq_true_eq]
  rintro rfl
  exact fresh member

/-! ### Runs of levels -/

/-- A parser-only processor: the run behind it is on the processor `extraId + 1`, or with the
stage itself. -/
def extraProcessor (stageId extraId : Int) (levels : List Level) (last : Bool) : Processor where
  id := extraId
  levels := levels
  gateway := some (.own (.stage (if last then stageId else extraId + 1)))

/-- The effect of `placeChunks`: as many runs as there are free processors are moved to them. -/
structure ChunksPlaced (physicalProcId : List Int) (own : Nat) (stageId : Int) (runs : List (List Level))
    (slots : List Nat) (before after : Processors × Int) : Prop where
  length : after.1.length = before.1.length
  ownLevels : after.1[own]? = (before.1[own]?).map fun processor => processor.map fun processor =>
    { processor with levels := processor.levels ++ (runs.drop (min (runs.length - 1) slots.length)).flatten }
  extras : ∀ (position : Nat) (run : List Level) (slot : Nat), runs[position]? = some run →
    position + 1 < runs.length → slots[position]? = some slot →
    after.1[slot]? = some (some
      (extraProcessor stageId (before.2 + position) run (position + 2 == runs.length)))
  others : ∀ index, index ≠ own → index ∉ slots.take (runs.length - 1) →
    after.1[index]? = before.1[index]?
  slotsLeft : openSlots physicalProcId after.1 = slots.drop (runs.length - 1)
  count : after.2 = before.2 + (min (runs.length - 1) slots.length : Nat)

section Runs

variable {physicalProcId : List Int} {own : Nat} {stageId extraId : Int} {processors : Processors}
  {after : Processors × Int} {run next : List Level} {rest : List (List Level)} {slots others :
    List Nat} {target : Nat}

private theorem ChunksPlaced.last (run : List Level) (extraId : Int)
    (available : openSlots physicalProcId processors = slots) :
    ChunksPlaced physicalProcId own stageId [run] slots (processors,
      extraId) (pushLevels processors own run, extraId) where
  length := by simp [pushLevels]
  ownLevels := by
    rw [pushLevels_getElem?]
    simp
  extras := by
    intro position _ _ _ inside
    simp at inside
  others := by
    intro index different _
    rw [pushLevels_getElem?]
    simp [Ne.symm different]
  slotsLeft := by
    rw [openSlots_pushLevels]
    simpa using available
  count := by simp

private theorem ChunksPlaced.keep (placed : ChunksPlaced physicalProcId own stageId (next :: rest) []
      (pushLevels processors own run, extraId) after) :
    ChunksPlaced physicalProcId own stageId (run :: next :: rest) [] (processors, extraId) after where
  length := placed.length.trans (by simp [pushLevels])
  ownLevels := by
    refine placed.ownLevels.trans ?_
    rw [pushLevels_getElem?]
    cases processors[own]? with
    | none => rfl
    | some processor => cases processor <;> simp
  extras := fun _ _ _ _ _ found => by simp at found
  others := by
    intro index different _
    refine (placed.others index different (by simp)).trans ?_
    rw [pushLevels_getElem?]
    simp [Ne.symm different]
  slotsLeft := by simpa using placed.slotsLeft
  count := by simpa using placed.count

private theorem ChunksPlaced.move (inside : target < processors.length) (notOwn : target ≠ own)
    (fresh : target ∉ others) (placed : ChunksPlaced physicalProcId own stageId (next :: rest) others
      (processors.set target (some (extraProcessor stageId extraId run (rest == []))), extraId + 1) after) :
    ChunksPlaced physicalProcId own stageId (run :: next :: rest) (target :: others) (processors,
      extraId) after where
  length := placed.length.trans (by simp)
  ownLevels := by
    refine placed.ownLevels.trans ?_
    rw [List.getElem?_set_ne notOwn]
    have shift : min ((run :: next :: rest).length - 1) (target :: others).length =
        min ((next :: rest).length - 1) others.length + 1 := by
      simp only [List.length_cons]
      omega
    rw [shift, List.drop_succ_cons]
  extras := by
    intro position chunk slot found bound slotAt
    cases position with
    | zero =>
        cases found
        cases slotAt
        refine (placed.others _ notOwn fun member => fresh (List.mem_of_mem_take member)).trans ?_
        rw [List.getElem?_set_self inside]
        cases rest <;> simp
    | succ position =>
        have later := placed.extras position chunk slot found (Nat.lt_of_succ_lt_succ bound) slotAt
        rw [later]
        congr 3
        · push_cast
          ring
        · rw [Bool.eq_iff_iff, beq_iff_eq, beq_iff_eq, List.length_cons, List.length_cons, List.length_cons]
          omega
  others := by
    intro index different absent
    rw [placed.others index different]
    · refine List.getElem?_set_ne ?_
      rintro rfl
      exact absent (by simp)
    · intro member
      exact absent (by simpa using .inr member)
  slotsLeft := by
    rw [placed.slotsLeft]
    simp
  count := by
    rw [placed.count]
    simp only [List.length_cons]
    push_cast
    omega

theorem placeChunks_placed (runs : List (List Level)) {state : Processors × Int}
    (length : state.1.length = procCount) (isOwn : ¬ physicalProcId.getD own 0 < 0)
    (available : openSlots physicalProcId state.1 = slots) :
    ChunksPlaced physicalProcId own stageId runs slots state
      (placeChunks physicalProcId own stageId runs state) := by
  -- along the runs: each one but the last takes the first slot, or stays when there is none
  induction runs generalizing state slots with
  | nil =>
      refine ⟨rfl, ?_,
        fun _ _ _ found => by simp at found, fun _ _ _ =>
          rfl, by simpa [placeChunks] using available, by simp [placeChunks]⟩
      simp only [placeChunks, List.drop_nil, List.flatten_nil, List.append_nil]
      cases state.1[own]? <;> simp
  | cons run rest ih =>
      obtain ⟨processors, extraId⟩ := state
      cases rest with
      | nil => exact .last run extraId available
      | cons next rest =>
          have choose := freeProcessor_eq physicalProcId processors
          rw [available] at choose
          cases slots with
          | nil =>
              rw [placeChunks, choose]
              exact .keep (ih (by simpa [pushLevels] using length)
                ((openSlots_pushLevels physicalProcId processors own run).trans available))
          | cons target others =>
              obtain ⟨small, empty, unplaced⟩ := mem_openSlots (available ▸ List.mem_cons_self)
              have notOwn : target ≠ own := by
                rintro rfl
                exact isOwn unplaced
              obtain ⟨fresh, _⟩ := List.nodup_cons.mp (available ▸ nodup_openSlots physicalProcId processors)
              have steps : placeChunks physicalProcId own stageId (run :: next :: rest)
                (processors, extraId) =
                  placeChunks physicalProcId own stageId (next :: rest)
                    (processors.set target (some (extraProcessor stageId extraId run (rest == []))),
                        extraId + 1) := by
                rw [placeChunks, choose]
                cases rest <;> rfl
              rw [steps]
              exact .move (length ▸ small) notOwn fresh
                (ih (by simpa using length) (openSlots_set length available _))

end Runs

/-! ### All processors -/

/-- The levels of a stage, as the pass emits them. -/
def stageLevels (program : Program) (distributedLevels : IdTable) (stageId : Int) : Option (List Level) :=
  ((distributedLevels.find stageId).getD []).mapM fun levelId =>
    if 0 ≤ levelId then program.levels[levelId.toNat]? else none

/-- The runs of the stage on a processor. -/
def runsAt (program : Program) (distributedLevels : IdTable) (physicalProcId : List Int) (index : Nat) :
    List (List Level) :=
  match physicalProcId[index]? with
  | some stageId =>
      if 0 ≤ stageId then chunks ((stageLevels program distributedLevels stageId).getD []) else []
  | none => []

/-- Runs in front of the last one, on all processors before `index`. -/
def runsBefore (program : Program) (distributedLevels : IdTable) (physicalProcId : List Int)
    (index : Nat) : Nat :=
  ((List.range index).map fun position =>
    (runsAt program distributedLevels physicalProcId position).length - 1).sum

section

variable (program : Program) (distribution : DistributionResult) (physicalProcId : List Int)

/-- Free processors taken before the stage on `index` is built. -/
def taken (index : Nat) : Nat :=
  min (runsBefore program distribution.distributedLevels physicalProcId index)
    (freeSlots physicalProcId).length

/-- The processor of a stage. -/
def stageProcessor (stage : Stage) (stageId : Int) (levels : List Level) : Processor where
  id := stageId
  levels := levels
  gateway := some (.stage stage.gatewayId)
  matcher := stage.tableId
  executor := stage.actionProc.map Prod.fst

/-- The processors after the stages on the processors before `bound` are built. -/
structure Built (bound : Nat) (state : Processors × Int) : Prop where
  length : state.1.length = procCount
  stages : ∀ index < bound, ∀ stageId, physicalProcId[index]? = some stageId → 0 ≤ stageId →
    ∃ stage levels, program.stages.lookupId stageId = some stage ∧
      stageLevels program distribution.distributedLevels stageId = some levels ∧
      state.1[index]? = some (some (stageProcessor stage stageId
        ((chunks levels).drop (taken program distribution physicalProcId (index + 1) -
          taken program distribution physicalProcId index)).flatten))
  open_ : ∀ index, bound ≤ index → ∀ stageId, physicalProcId[index]? = some stageId → 0 ≤ stageId →
    state.1[index]? = some none
  slots : openSlots physicalProcId state.1 =
    (freeSlots physicalProcId).drop (taken program distribution physicalProcId bound)
  count : state.2 = extraProcessorId distribution.topoSequence +
    taken program distribution physicalProcId bound
  extras : ∀ index < bound, ∀ stageId, physicalProcId[index]? = some stageId → 0 ≤ stageId →
    ∀ position run slot, (runsAt program distribution.distributedLevels physicalProcId
      index)[position]? = some run →
      position + 1 < (runsAt program distribution.distributedLevels physicalProcId index).length →
      (freeSlots physicalProcId)[taken program distribution physicalProcId index + position]? = some slot →
      state.1[slot]? = some (some (extraProcessor stageId
        (extraProcessorId distribution.topoSequence +
          (taken program distribution physicalProcId index + position : Nat))
        run (position + 2 == (runsAt program distribution.distributedLevels physicalProcId index).length)))
  filled : ∀ position slot, (freeSlots physicalProcId)[position]? = some slot →
    position < taken program distribution physicalProcId bound →
    ∃ stageId run last, state.1[slot]? = some (some (extraProcessor stageId
      (extraProcessorId distribution.topoSequence + position) run last))
  empty : ∀ position slot, (freeSlots physicalProcId)[position]? = some slot →
    taken program distribution physicalProcId bound ≤ position → state.1[slot]? = some none

end

variable {program : Program} {distribution : DistributionResult} {physicalProcId : List Int}

private theorem openSlots_at_stage {first second : Processors} {index : Nat}
    (placed : ¬ physicalProcId.getD index 0 < 0)
    (same : ∀ other, other ≠ index → second[other]? = first[other]?) :
    openSlots physicalProcId second = openSlots physicalProcId first := by
  refine List.filter_congr fun other _ => ?_
  by_cases here : other = index
  · subst here
    rw [isOpen, isOpen, decide_eq_decide]
    exact ⟨fun both => absurd both.2 placed, fun both => absurd both.2 placed⟩
  · simp only [isOpen, List.getD_eq_getElem?_getD, same other here]

theorem runsBefore_succ (index : Nat) :
    runsBefore program distribution.distributedLevels physicalProcId (index + 1) =
      runsBefore program distribution.distributedLevels physicalProcId index +
        ((runsAt program distribution.distributedLevels physicalProcId index).length - 1) := by
  simp [runsBefore, List.range_succ]

theorem runsBefore_mono {first second : Nat} (le : first ≤ second) :
    runsBefore program distribution.distributedLevels physicalProcId first ≤
      runsBefore program distribution.distributedLevels physicalProcId second := by
  induction second, le using Nat.le_induction with
  | base => exact le_rfl
  | succ second _ ih =>
      rw [runsBefore_succ]
      omega

private theorem not_mem_drop {items : List Nat} (nodup : items.Nodup) {position count : Nat} {item : Nat}
    (found : items[position]? = some item) (before : position < count) : item ∉ items.drop count := by
  intro member
  obtain ⟨offset, bound, same⟩ := List.mem_iff_getElem.mp member
  obtain ⟨inside, here⟩ := List.getElem?_eq_some_iff.mp found
  rw [List.getElem_drop] at same
  have equal := (nodup.getElem_inj_iff (i := count + offset) (j := position)).mp (same.trans here.symm)
  omega

private theorem not_mem_take {items : List Nat} (nodup : items.Nodup)
    {position start count : Nat} {item : Nat}
    (found : items[position]? = some item) (behind : start + count ≤ position) :
    item ∉ (items.drop start).take count := by
  intro member
  obtain ⟨offset, bound, same⟩ := List.mem_iff_getElem.mp member
  obtain ⟨inside, here⟩ := List.getElem?_eq_some_iff.mp found
  rw [List.getElem_take, List.getElem_drop] at same
  have equal := (nodup.getElem_inj_iff (i := start + offset) (j := position)).mp (same.trans here.symm)
  have small : offset < count := by
    rw [List.length_take] at bound
    omega
  omega

theorem nodup_freeSlots (physicalProcId : List Int) : (freeSlots physicalProcId).Nodup :=
  List.nodup_range.filter _

theorem mem_freeSlots {index : Nat} (member : index ∈ freeSlots physicalProcId) :
    index < procCount ∧ physicalProcId.getD index 0 < 0 := by
  obtain ⟨inside, free⟩ := List.mem_filter.mp member
  exact ⟨List.mem_range.mp inside, by simpa using free⟩

/-- The effect of the stage on a processor. -/
private structure StageBuilt (physicalProcId : List Int) (stage : Stage) (stageId : Int)
    (levels : List Level) (index : Nat) (slots : List Nat) (before after : Processors × Int) : Prop where
  length : after.1.length = before.1.length
  own : after.1[index]? = some (some (stageProcessor stage stageId
    ((chunks levels).drop (min ((chunks levels).length - 1) slots.length)).flatten))
  extras : ∀ (position : Nat) (run : List Level) (slot : Nat), (chunks levels)[position]? = some run →
    position + 1 < (chunks levels).length → slots[position]? = some slot → slot ≠ index →
    after.1[slot]? = some (some
      (extraProcessor stageId (before.2 + position) run (position + 2 == (chunks levels).length)))
  others : ∀ other, other ≠ index → other ∉ slots.take ((chunks levels).length - 1) →
      after.1[other]? = before.1[other]?
  slotsLeft : openSlots physicalProcId after.1 = slots.drop ((chunks levels).length - 1)
  count : after.2 = before.2 + (min ((chunks levels).length - 1) slots.length : Nat)

private theorem buildProcessor_stage {index : Nat} {state after : Processors × Int}
    {slots : List Nat} {stageId : Int} (small : index < procCount) (length : state.1.length = procCount)
    (available : openSlots physicalProcId state.1 = slots) (here : physicalProcId[index]? = some stageId)
    (placed : ¬ stageId < 0)
    (done : buildProcessor program distribution.distributedLevels physicalProcId state index = some after) :
    ∃ stage levels, program.stages.lookupId stageId = some stage ∧
      Builder.stageLevels program distribution.distributedLevels stageId = some levels ∧
      StageBuilt physicalProcId stage stageId levels index slots state after := by
  rw [buildProcessor, here, Option.bind_eq_bind, Option.bind_some, if_neg placed] at done
  obtain ⟨stage, found, done⟩ := Option.bind_eq_some_iff.mp done
  obtain ⟨levels, looked, done⟩ := Option.bind_eq_some_iff.mp done
  refine ⟨stage, levels, found, looked, ?_⟩
  have isPlaced : ¬ physicalProcId.getD index 0 < 0 := by
    rw [List.getD_eq_getElem?_getD, here]
    exact placed
  have room : index < state.1.length := length ▸ small
  generalize firstState : (state.1.set index (some { id := stageId : Processor }), state.2) = start at done
  have started : ∀ other, other ≠ index → start.1[other]? = state.1[other]? := by
    intro other different
    rw [← firstState]
    exact List.getElem?_set_ne (Ne.symm different)
  have firstLength : start.1.length = state.1.length := by
    rw [← firstState]
    exact List.length_set
  have moved : ChunksPlaced physicalProcId index stageId (chunks levels) slots start _ :=
    placeChunks_placed (chunks levels) (firstLength.trans length) isPlaced
      ((openSlots_at_stage isPlaced started).trans available)
  generalize placeChunks physicalProcId index stageId (chunks levels) start = result at moved done
  cases done
  -- away from the stage's own processor the last update is the identity
  have away : ∀ other, other ≠ index →
      (result.1.modify index fun processor => processor.map fun processor => { processor with
        gateway := some (.stage stage.gatewayId)
        matcher := stage.tableId
        executor := stage.actionProc.map Prod.fst })[other]? = result.1[other]? := by
    intro other different
    rw [List.getElem?_modify]
    simp [Ne.symm different]
  refine ⟨by simpa using moved.length.trans firstLength, ?_, ?_, ?_, ?_, ?_⟩
  · have ownLevels := moved.ownLevels
    rw [← firstState, List.getElem?_set_self room] at ownLevels
    rw [List.getElem?_modify, ownLevels]
    simp [stageProcessor]
  · intro position run slot runAt inside slotAt different
    rw [away slot different, moved.extras position run slot runAt inside slotAt, ← firstState]
  · intro other different absent
    rw [away other different, moved.others other different absent, started other different]
  · rw [openSlots_at_stage isPlaced away, moved.slotsLeft]
  · exact moved.count.trans (by rw [← firstState])

section Next

variable {index : Nat} {state after : Processors × Int} {stageId : Int}

private theorem Built.skip (built : Built program distribution physicalProcId index state)
    (here : physicalProcId[index]? = some stageId) (unplaced : stageId < 0) :
    Built program distribution physicalProcId (index + 1) state := by
  have grown := @runsBefore_succ program distribution physicalProcId index
  have none : runsAt program distribution.distributedLevels physicalProcId index = [] := by
    simp only [runsAt, here]
    rw [if_neg (by omega)]
  have same : taken program distribution physicalProcId
      (index + 1) = taken program distribution physicalProcId index := by
    rw [taken, grown, none]
    rfl
  have earlier : ∀ other < index + 1, ∀ otherId, physicalProcId[other]? = some otherId → 0 ≤ otherId →
      other < index := by
    intro other bound otherId found nonneg
    rcases Nat.lt_succ_iff_lt_or_eq.mp bound with less | rfl
    · exact less
    · rw [here] at found
      cases found
      omega
  refine ⟨built.length, ?_, ?_, same ▸ built.slots, same ▸ built.count, ?_, same ▸ built.filled,
    same ▸ built.empty⟩
  · intro other bound otherId found nonneg
    exact built.stages other (earlier other bound otherId found nonneg) otherId found nonneg
  · intro other bound
    exact built.open_ other (Nat.le_of_succ_le bound)
  · intro other bound otherId found nonneg
    exact built.extras other (earlier other bound otherId found nonneg) otherId found nonneg

private theorem not_mem_freeSlots {other : Nat} {otherId : Int}
    (found : physicalProcId[other]? = some otherId)
    (nonneg : 0 ≤ otherId) : other ∉ freeSlots physicalProcId := by
  intro member
  have below := (mem_freeSlots member).2
  rw [List.getD_eq_getElem?_getD, found, Option.getD_some] at below
  omega

private theorem runsAt_stage {levels : List Level} (here : physicalProcId[index]? = some stageId)
    (placed : ¬ stageId < 0)
    (known : Builder.stageLevels program distribution.distributedLevels stageId = some levels) :
    runsAt program distribution.distributedLevels physicalProcId index = chunks levels := by
  simp only [runsAt, here, known, Option.getD_some]
  rw [if_pos (by omega)]

private theorem taken_stage {levels : List Level}
    (runs : runsAt program distribution.distributedLevels physicalProcId index = chunks levels) :
    taken program distribution physicalProcId (index + 1) =
      taken program distribution physicalProcId index +
        min ((chunks levels).length - 1) ((freeSlots physicalProcId).length -
          taken program distribution physicalProcId index) := by
  have grown := @runsBefore_succ program distribution physicalProcId index
  rw [runs] at grown
  simp only [taken, grown]
  omega

private theorem ne_of_mem_freeSlots (here : physicalProcId[index]? = some stageId)
    (placed : ¬ stageId < 0) {slot : Nat} (free : slot ∈ freeSlots physicalProcId) : slot ≠ index := by
  rintro rfl
  exact not_mem_freeSlots here (by omega) free

private theorem Built.takes {stage : Stage} {levels : List Level}
    (built : Built program distribution physicalProcId index state)
    (here : physicalProcId[index]? = some stageId) (placed : ¬ stageId < 0)
    (effect : StageBuilt physicalProcId stage stageId levels index
      ((freeSlots physicalProcId).drop (taken program distribution physicalProcId index)) state after)
    {position slot : Nat} {run : List Level} (runAt : (chunks levels)[position]? = some run)
    (inside : position + 1 < (chunks levels).length)
    (slotAt : (freeSlots physicalProcId)[taken program distribution physicalProcId index +
      position]? = some slot) :
    after.1[slot]? = some (some (extraProcessor stageId
      (extraProcessorId distribution.topoSequence +
        (taken program distribution physicalProcId index + position : Nat))
      run (position + 2 == (chunks levels).length))) := by
  rw [effect.extras position run slot runAt inside (by rw [List.getElem?_drop]; exact slotAt)
    (ne_of_mem_freeSlots here placed (List.mem_of_getElem? slotAt)), built.count]
  congr 3
  push_cast
  ring

private theorem StageBuilt.keeps {stage : Stage} {levels : List Level} {used other : Nat} {otherId : Int}
    (effect : StageBuilt physicalProcId stage stageId levels index
      ((freeSlots physicalProcId).drop used) state after)
    (different : other ≠ index) (found : physicalProcId[other]? = some otherId) (nonneg : 0 ≤ otherId) :
    after.1[other]? = state.1[other]? := by
  refine effect.others other different fun member => ?_
  exact not_mem_freeSlots found nonneg (List.mem_of_mem_drop (List.mem_of_mem_take member))

private theorem Built.next {stage : Stage} {levels : List Level} (small : index < procCount)
    (built : Built program distribution physicalProcId index state)
    (here : physicalProcId[index]? = some stageId) (placed : ¬ stageId < 0)
    (found : program.stages.lookupId stageId = some stage)
    (known : Builder.stageLevels program distribution.distributedLevels stageId = some levels)
    (effect : StageBuilt physicalProcId stage stageId levels index
      ((freeSlots physicalProcId).drop (taken program distribution physicalProcId index)) state after) :
    Built program distribution physicalProcId (index + 1) after := by
  have runs : runsAt program distribution.distributedLevels physicalProcId index = chunks levels :=
    runsAt_stage here placed known
  have step := taken_stage runs
  have length : ((freeSlots physicalProcId).drop (taken program distribution physicalProcId index)).length =
      (freeSlots physicalProcId).length - taken program distribution physicalProcId index :=
    List.length_drop
  have nodup := nodup_freeSlots physicalProcId
  have freeNotOwn : ∀ slot ∈ freeSlots physicalProcId, slot ≠ index :=
    fun _ free => ne_of_mem_freeSlots here placed free
  refine ⟨effect.length.trans built.length, ?_, ?_, ?_, ?_, ?_, ?_, ?_⟩
  · intro other bound otherId at_ nonneg
    by_cases same : other = index
    · subst same
      rw [here] at at_
      cases at_
      refine ⟨stage, levels, found, known, ?_⟩
      rw [effect.own, length, step, Nat.add_sub_cancel_left]
    · rw [effect.keeps same at_ nonneg]
      exact built.stages other (by omega) otherId at_ nonneg
  · intro other bound otherId at_ nonneg
    rw [effect.keeps (by omega) at_ nonneg]
    exact built.open_ other (by omega) otherId at_ nonneg
  · rw [effect.slotsLeft, List.drop_drop, step]
    by_cases fits : (chunks levels).length - 1 ≤ (freeSlots physicalProcId).length -
        taken program distribution physicalProcId index
    · rw [min_eq_left fits]
    · rw [min_eq_right (by omega), List.drop_of_length_le (by omega), List.drop_of_length_le (by omega)]
  · rw [effect.count, length, built.count, step]
    push_cast
    ring
  · intro other bound otherId at_ nonneg position run slot runAt inside slotAt
    by_cases same : other = index
    · subst same
      rw [here] at at_
      cases at_
      rw [runs] at runAt inside ⊢
      exact built.takes here placed effect runAt inside slotAt
    · have earlier : other < index := by omega
      rw [effect.others slot (freeNotOwn slot (List.mem_of_getElem? slotAt)),
        built.extras other earlier otherId at_ nonneg position run slot runAt inside slotAt]
      intro member
      refine not_mem_drop nodup slotAt ?_ (List.mem_of_mem_take member)
      have limit : taken program distribution physicalProcId other + position <
          (freeSlots physicalProcId).length := (List.getElem?_eq_some_iff.mp slotAt).1
      have next := @runsBefore_succ program distribution physicalProcId other
      have mono := @runsBefore_mono program distribution physicalProcId (other + 1) index earlier
      simp only [taken] at limit ⊢
      omega
  · intro position slot slotAt bound
    by_cases old : position < taken program distribution physicalProcId index
    · rw [effect.others slot (freeNotOwn slot (List.mem_of_getElem? slotAt))]
      · exact built.filled position slot slotAt old
      · exact fun member => not_mem_drop nodup slotAt old (List.mem_of_mem_take member)
    · obtain ⟨offset, rfl⟩ := Nat.exists_eq_add_of_le (Nat.le_of_not_lt old)
      obtain ⟨run, runAt⟩ : ∃ run, (chunks levels)[offset]? = some run :=
        ⟨_, List.getElem?_eq_getElem (by omega)⟩
      exact ⟨stageId, run, _, built.takes here placed effect runAt (by omega) slotAt⟩
  · intro position slot slotAt behind
    have limit : position < (freeSlots physicalProcId).length := (List.getElem?_eq_some_iff.mp slotAt).1
    rw [effect.others slot (freeNotOwn slot (List.mem_of_getElem? slotAt))]
    · exact built.empty position slot slotAt (by omega)
    · exact not_mem_take nodup slotAt (by omega)

end Next

theorem buildProcessor_built {index : Nat} {state after : Processors × Int} (small : index < procCount)
    (built : Built program distribution physicalProcId index state)
    (done : buildProcessor program distribution.distributedLevels physicalProcId state index = some after) :
    Built program distribution physicalProcId (index + 1) after := by
  obtain ⟨stageId, here, step⟩ := Option.bind_eq_some_iff.mp done
  by_cases unplaced : stageId < 0
  · rw [if_pos unplaced] at step
    cases step
    exact built.skip here unplaced
  · obtain ⟨stage, levels, found, known, effect⟩ :=
      buildProcessor_stage small built.length built.slots here unplaced done
    exact built.next small here unplaced found known effect

theorem buildProcessors_built {processors : Processors} (length : physicalProcId.length = procCount)
    (done : buildProcessors program distribution physicalProcId = some processors) :
    ∃ extraId, Built program distribution physicalProcId procCount (processors, extraId) := by
  obtain ⟨⟨_, extraId⟩, loop, done⟩ := Option.bind_eq_some_iff.mp done
  cases done
  refine ⟨extraId, foldlM_range (Built program distribution physicalProcId)
    (fun index state after small built step => buildProcessor_built small built step) loop ?_⟩
  have zero : taken program distribution physicalProcId 0 = 0 := by
    simp [taken, runsBefore]
  refine ⟨by simp, fun _ small => absurd small (Nat.not_lt_zero _), ?_, ?_, ?_,
    fun _ small => absurd small (Nat.not_lt_zero _), ?_, ?_⟩
  · intro index _ stageId found _
    have inside : index < procCount := length ▸ (List.getElem?_eq_some_iff.mp found).1
    rw [List.getElem?_replicate, if_pos inside]
  · rw [zero, openSlots_none, List.drop_zero]
  · rw [zero]
    simp
  · intro position slot _ small
    rw [zero] at small
    exact absurd small (Nat.not_lt_zero _)
  · intro position slot found _
    have inside := (mem_freeSlots (List.mem_of_getElem? found)).1
    rw [List.getElem?_replicate, if_pos inside]

end Builder

end Ipbm.Compiler
