import Ipbm.Dataplane.RunProperties
import Ipbm.Dataplane.Targets

/-! Termination of `Pipeline::execute`. A processor hands a packet to a target it
stores, or, after a lookup whose action the table does not list, to processor zero. -/

set_option autoImplicit false

namespace Ipbm.Dataplane
open Lib

/-! ### One processor -/

/-- The table a packet is looked up in and the action this gives. -/
def Processor.lookup (memory : Memory) (scratch : Nat → UInt8) (processor : Processor) (phv : Phv) :
    Option (MatcherThread × Int) := do
  let phv ← processor.parser.parse phv
  if phv.nextProcId = -1 then
    none
  else
    let phv ← processor.gateway.execute phv
    match phv.nextOp.type with
    | .stage => none
    | .table => do
        let phv ← processor.matcher.execute memory scratch phv.nextOp.val phv
        let thread ← processor.matcher.thread phv.nextOp.val
        return (thread, phv.nextActionId)

theorem Gateway.execute_stores {gateway : Gateway} {phv after : Phv}
    (run : gateway.execute phv = some after) :
    gateway.Stores after.nextOp := by
  obtain ⟨bits, _, run⟩ := Option.bind_eq_some_iff.mp run
  split at run
  · next entry found =>
      cases run
      exact .inl ⟨bits, found⟩
  · obtain ⟨entry, found, run⟩ := Option.bind_eq_some_iff.mp run
    cases run
    exact .inr found

theorem Executor.execute_nextProcId {executor : Executor} {phv after : Phv}
    (run : executor.execute phv = some after) : after.nextProcId = phv.nextProcId := by
  obtain ⟨packet, rfl⟩ := execute_eq run
  rfl

theorem Matcher.thread_mem {matcher : Matcher} {matcherId : Int} {thread : MatcherThread}
    (found : matcher.thread matcherId = some thread) : thread ∈ matcher := by
  unfold Matcher.thread at found
  split at found
  · cases found
  · exact List.mem_of_getElem? found

/-- Where a packet goes from a processor. -/
theorem Processor.processPacket_target {memory : Memory} {scratch : Nat → UInt8} {processor : Processor}
    {phv after : Phv} (run : processor.processPacket memory scratch phv = some after) :
    after.nextProcId = -1 ∨
      (∃ entry, processor.gateway.Stores entry ∧ entry.type = .stage ∧ entry.val = after.nextProcId) ∨
      ∃ thread actionId, processor.lookup memory scratch phv = some (thread, actionId) ∧
        thread ∈ processor.matcher ∧ after.nextProcId = thread.nextProc actionId := by
  unfold lookup
  obtain ⟨parsed, parse, run⟩ := Option.bind_eq_some_iff.mp run
  rw [parse, Option.bind_eq_bind, Option.bind_some]
  split at run
  · next ended =>
      cases run
      exact .inl ended
  · next goes =>
      obtain ⟨gated, gate, run⟩ := Option.bind_eq_some_iff.mp run
      rw [if_neg goes, gate, Option.bind_eq_bind, Option.bind_some]
      have stores := Gateway.execute_stores gate
      split at run
      · next isStage =>
          cases run
          exact .inr (.inl ⟨gated.nextOp, stores, isStage, rfl⟩)
      · next isTable =>
          obtain ⟨matched, look, run⟩ := Option.bind_eq_some_iff.mp run
          obtain ⟨thread, found, run⟩ := Option.bind_eq_some_iff.mp run
          refine .inr (.inr ⟨thread, matched.nextActionId, ?_, Matcher.thread_mem found,
            Executor.execute_nextProcId run⟩)
          simp only [isTable, look, found, Option.bind_some]
          rfl

namespace Pipeline

/-- The turns of the loop. -/
inductive Reaches (pipeline : Pipeline) (start : Phv) : Phv → Prop where
  | start : Reaches pipeline start start
  | turn {phv next : Phv} {scratch : Nat → UInt8} (before : Reaches pipeline start phv)
      (goes : phv.nextProcId ≠ -1)
      (step : pipeline.step scratch phv = some next) : Reaches pipeline start next

/-- The action that a packet's lookup gives is listed by its table. -/
def ListedStep (pipeline : Pipeline) (phv : Phv) : Prop :=
  ∀ processor scratch thread actionId, pipeline.proc phv.nextProcId = some processor →
    processor.lookup pipeline.memory scratch phv = some (thread, actionId) →
    (thread.actionProcMap actionId).isSome

def ListedRun (pipeline : Pipeline) (start : Phv) : Prop :=
  ∀ phv, pipeline.Reaches start phv → pipeline.ListedStep phv

/-- The targets of a processor rank above it. -/
def Ranked (pipeline : Pipeline) (rank : Int → Nat) : Prop :=
  ∀ (index : Nat) processor, pipeline.procs[index]? = some processor →
    ∀ target, processor.Leads target → target = -1 ∨ rank index < rank target

/-- A turn that meets the condition goes on to a target of the processor. -/
theorem step_leads {pipeline : Pipeline} {scratch : Nat → UInt8} {phv next : Phv}
    (listed : pipeline.ListedStep phv) (step : pipeline.step scratch phv = some next) :
    ∃ (index : Nat) (processor : Processor), phv.nextProcId = index ∧
      pipeline.procs[index]? = some processor ∧
      (next.nextProcId = -1 ∨ processor.Leads next.nextProcId) := by
  obtain ⟨processor, found, run⟩ := Option.bind_eq_some_iff.mp step
  have here := found
  unfold proc at here
  split at here
  · cases here
  · next nonneg =>
      refine ⟨phv.nextProcId.toNat, processor, (Int.toNat_of_nonneg (Int.not_lt.mp nonneg)).symm, here, ?_⟩
      rcases Processor.processPacket_target run with ended | stage | ⟨thread, actionId, look, member, target⟩
      · exact .inl ended
      · exact .inr (.inl stage)
      · obtain ⟨goal, isGoal⟩ :=
          Option.isSome_iff_exists.mp (listed processor scratch thread actionId found look)
        refine .inr (.inr ⟨thread, member, actionId, ?_⟩)
        rw [target, MatcherThread.nextProc, isGoal, Option.getD_some]

/-- How much rank is left; nothing is left outside of the pipeline. -/
private def left (pipeline : Pipeline) (rank : Int → Nat) (procId : Int) : Nat :=
  if 0 ≤ procId ∧ procId < pipeline.procs.length then
    ((List.range pipeline.procs.length).map fun (index : Nat) => rank index).foldl max 0 + 1 - rank procId
  else
    0

private theorem le_foldl_max (items : List Nat) (start : Nat) :
    start ≤ items.foldl max start ∧ ∀ item ∈ items, item ≤ items.foldl max start := by
  induction items generalizing start with
  | nil => simp
  | cons first rest ih =>
      obtain ⟨above, each⟩ := ih (max start first)
      refine ⟨(Nat.le_max_left start first).trans above, ?_⟩
      intro item member
      rcases List.mem_cons.mp member with rfl | member
      · exact (Nat.le_max_right start item).trans above
      · exact each item member

private theorem left_of_inside {pipeline : Pipeline} (rank : Int → Nat) {index : Nat}
    (inside : index < pipeline.procs.length) : ∃ top, rank index ≤ top ∧
      pipeline.left rank index = top + 1 - rank index ∧
      ∀ procId, pipeline.left rank procId ≤ top + 1 - rank procId := by
  refine ⟨((List.range pipeline.procs.length).map fun (index : Nat) => rank index).foldl max 0, ?_, ?_, ?_⟩
  · exact (le_foldl_max _ 0).2 _ (List.mem_map_of_mem (List.mem_range.mpr inside))
  · exact if_pos ⟨by omega, by omega⟩
  · intro procId
    unfold left
    split
    · exact Nat.le_refl _
    · exact Nat.zero_le _

private theorem step_left {pipeline : Pipeline} {rank : Int → Nat} (ranked : pipeline.Ranked rank)
    {scratch : Nat → UInt8} {phv next : Phv} (listed : pipeline.ListedStep phv)
    (step : pipeline.step scratch phv = some next) :
    next.nextProcId = -1 ∨ pipeline.left rank next.nextProcId < pipeline.left rank phv.nextProcId := by
  obtain ⟨index, processor, isIndex, here, target⟩ := step_leads listed step
  rcases target with ended | leads
  · exact .inl ended
  · rcases ranked index processor here _ leads with ended | above
    · exact .inl ended
    · obtain ⟨top, low, own, all⟩ := left_of_inside rank (List.getElem?_eq_some_iff.mp here).1
      have bound := all next.nextProcId
      rw [isIndex, own]
      exact .inr (by omega)

/-- A run whose lookups give actions that their tables list leaves the loop. -/
theorem leaves_loop {pipeline : Pipeline} {rank : Int → Nat} (ranked : pipeline.Ranked rank) {start : Phv}
    (listed : pipeline.ListedRun start) (scratch : Nat → Nat → UInt8) :
    ∃ fuel, ∀ after, pipeline.execute scratch fuel start ≠ .running after := by
  -- The rank that is left falls with every turn.
  have general : ∀ count phv, pipeline.left rank phv.nextProcId < count → pipeline.Reaches start phv →
      ∀ after, pipeline.execute scratch count phv ≠ .running after := by
    intro count
    induction count with
    | zero => exact fun phv impossible => absurd impossible (Nat.not_lt_zero _)
    | succ count ih =>
        intro phv bound reached after
        unfold execute
        split
        · exact Progress.noConfusion
        · next goes =>
            simp only
            split
            · exact Progress.noConfusion
            · next next_ step =>
                rcases step_left ranked (listed phv reached) step with ended | less
                · unfold execute
                  rw [if_pos ended]
                  exact Progress.noConfusion
                · exact ih next_ (by omega) (.turn reached goes step) after
  exact ⟨pipeline.left rank start.nextProcId + 1, general _ start (Nat.lt_succ_self _) .start⟩

/-- No turn of a run is undefined. -/
def DefinedRun (pipeline : Pipeline) (start : Phv) : Prop :=
  ∀ phv, pipeline.Reaches start phv → phv.nextProcId ≠ -1 → ∀ scratch, (pipeline.step scratch phv).isSome

private theorem execute_defined {pipeline : Pipeline} {start : Phv} (defined : pipeline.DefinedRun start)
    (scratch : Nat → Nat → UInt8) (fuel : Nat) {phv : Phv} (reached : pipeline.Reaches start phv) :
    pipeline.execute scratch fuel phv ≠ .undefined := by
  induction fuel generalizing phv with
  | zero =>
      unfold execute
      split <;> exact Progress.noConfusion
  | succ fuel ih =>
      unfold execute
      split
      · exact Progress.noConfusion
      · next goes =>
          obtain ⟨next, step⟩ := Option.isSome_iff_exists.mp (defined phv reached goes (scratch fuel))
          simp only [step]
          exact ih (.turn reached goes step)

/-- A run ends if its lookups give actions that their tables list: it is done, unless a turn is undefined. -/
theorem execute_ends {pipeline : Pipeline} {rank : Int → Nat} (ranked : pipeline.Ranked rank) {start : Phv}
    (listed : pipeline.ListedRun start) (scratch : Nat → Nat → UInt8) :
    ∃ fuel, (∀ after, pipeline.execute scratch fuel start ≠ .running after) ∧
      (pipeline.DefinedRun start → ∃ after, pipeline.execute scratch fuel start = .done after) := by
  obtain ⟨fuel, leaves⟩ := leaves_loop ranked listed scratch
  refine ⟨fuel, leaves, fun defined => ?_⟩
  cases result : pipeline.execute scratch fuel start with
  | done after => exact ⟨after, rfl⟩
  | running after => exact absurd result (leaves after)
  | undefined => exact absurd result (execute_defined defined scratch fuel .start)

/-- Processor 0 has a table without keys, which lists action 0. -/
def missRequests (missActId : Int) : List Request := [
  .initParserLevel 0 0,
  .gateway 0 (.setDefaultGateEntry ⟨.table, 0⟩),
  .setMemConfig 0 0 ⟨0, 0, 0, [], [], .exact, missActId⟩,
  .setActionProc 0 0 [(0, -1)],
  .setNoTable 0 0 true,
  .insertAction 0 0 ⟨[], 0, []⟩,
  .insertAction 0 1 ⟨[], 0, []⟩]

def listedPipeline : Pipeline := (fresh.configure (missRequests 0)).get (by decide)

def listedProcessor : Processor := (listedPipeline.proc 0).get (by decide)

def listedEnd : Phv := { Phv.fresh with nextProcId := -1 }

private theorem missRequests_ranked {missActId : Int} {pipeline : Pipeline}
    (configured : fresh.configure (missRequests missActId) = some pipeline) (rank : Int → Nat) :
    pipeline.Ranked rank := by
  intro index processor here target leads
  rcases configure_leads configured here leads with ⟨old, found, before⟩ | ⟨request, member, stored⟩
  · exact absurd before (not_leads_fresh found target)
  · left
    simp only [missRequests, List.mem_cons, List.not_mem_nil, or_false] at member
    rcases member with rfl | rfl | rfl | rfl | rfl | rfl | rfl <;> simp [Request.targets,
      GateEntry.targets] at stored
    exact stored.2

theorem execute_ends_listed :
    ∃ fuel, (∀ after, listedPipeline.execute (fun _ _ => 0) fuel Phv.fresh ≠ .running after) ∧
    (listedPipeline.DefinedRun Phv.fresh → ∃ after,
      listedPipeline.execute (fun _ _ => 0) fuel Phv.fresh = .done after) := by
  have configured : fresh.configure (missRequests 0) = some listedPipeline := (Option.some_get _).symm
  have turn : ∀ scratch, listedPipeline.step scratch Phv.fresh = some listedEnd := fun _ => rfl
  have reached : ∀ phv, listedPipeline.Reaches Phv.fresh phv → phv = Phv.fresh ∨ phv = listedEnd := by
    intro phv reaches
    induction reaches with
    | start => exact .inl rfl
    | turn before goes step ih =>
        rcases ih with rfl | rfl
        · exact .inr (Option.some.inj (step.symm.trans (turn _)))
        · exact absurd rfl goes
  have first : listedPipeline.proc 0 = some listedProcessor := (Option.some_get _).symm
  have look : ∀ scratch, (listedProcessor.lookup listedPipeline.memory scratch Phv.fresh).map
      (fun pair => (pair.1.actionProcMap pair.2).isSome) = some true := fun _ => rfl
  refine execute_ends (missRequests_ranked configured fun _ => 0) ?_ _
  intro phv reaches processor scratch thread actionId found given
  rcases reached phv reaches with rfl | rfl
  · cases first.symm.trans found
    have listed := look scratch
    rw [given, Option.map_some] at listed
    exact Option.some.inj listed
  · cases found

def unlistedPipeline : Pipeline := (fresh.configure (missRequests 1)).get (by decide)

def unlistedPhv : Phv := { Phv.fresh with nextActionId := 1 }

/-- A miss gives action 1, which the table does not list: the packet stays on processor 0. -/
theorem execute_loops : unlistedPipeline.Ranked (fun _ => 0) ∧ ∀ scratch fuel, ∃ after,
    unlistedPipeline.execute scratch fuel Phv.fresh = .running after := by
  have configured : fresh.configure (missRequests 1) = some unlistedPipeline := (Option.some_get _).symm
  have first : ∀ scratch, unlistedPipeline.step scratch Phv.fresh = some unlistedPhv := fun _ => rfl
  have again : ∀ scratch, unlistedPipeline.step scratch unlistedPhv = some unlistedPhv := fun _ => rfl
  have goes : ∀ scratch fuel, unlistedPipeline.execute scratch fuel unlistedPhv = .running unlistedPhv := by
    intro scratch fuel
    induction fuel with
    | zero => rfl
    | succ fuel ih =>
        unfold execute
        rw [if_neg (by decide)]
        simp only [again, ih]
  refine ⟨missRequests_ranked configured _, fun scratch fuel => ?_⟩
  cases fuel with
  | zero => exact ⟨Phv.fresh, rfl⟩
  | succ fuel =>
      refine ⟨unlistedPhv, ?_⟩
      unfold execute
      rw [if_neg (by decide)]
      simp only [first, goes]

end Pipeline

end Ipbm.Dataplane
