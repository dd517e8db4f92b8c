import Ipbm.Controller.ProcessorPush
import Ipbm.Lib.Overrides

/-! The matcher threads and the action slots that a push leaves in a processor. -/

set_option autoImplicit false

namespace Ipbm.Controller
open Lib Dataplane Compiler

/-- The thread selects the miss action of the table, and goes on as the last target of an action says. -/
structure ConfiguredBy (table : Table) (thread : MatcherThread) : Prop where
  miss : thread.missActId = table.missActionId
  leads : ∀ actionId, thread.actionProcMap actionId =
    (lastWhere (fun pair => pair.1 = actionId) table.actionToProc).map Prod.snd

private theorem thread_apply {matcher next : Matcher} {matcherId : Int} {request : ThreadRequest}
    (step : matcher.apply (matcherId, request) = some next) :
    (∃ thread changed, matcher.thread matcherId = some thread ∧ request.apply thread = some changed ∧
      next.thread matcherId = some changed) ∧ ∀ other ≠ matcherId,
        next.thread other = matcher.thread other := by
  obtain ⟨index, thread, changed, rfl, found, applied, rfl⟩ := Matcher.apply_iff.mp step
  have inside := (List.getElem?_eq_some_iff.mp found).1
  refine ⟨⟨thread, changed, ?_, applied, ?_⟩, fun other different => ?_⟩
  · simpa [Matcher.thread] using found
  · simp [Matcher.thread, inside]
  · unfold Matcher.thread
    split
    · rfl
    · rw [List.getElem?_set_ne]
      omega

private theorem apply_setMemConfig {config : Pipeline.MemConfig} {thread next : MatcherThread}
    (step : (ThreadRequest.setMemConfig config).apply thread = some next) :
    next.missActId = config.missActId ∧ next.actionProcMap = fun _ => none := by
  obtain ⟨⟨memory, configured⟩, done, rfl⟩ := Option.map_eq_some_iff.mp step
  obtain ⟨_, cleared, clear, rfl⟩ := MatcherThread.setMemConfig_iff.mp done
  exact ⟨rfl, (MatcherThread.clearOldConfig_rest clear).2⟩

private theorem tableCalls_thread {table : Table} {calls : List (Int × ThreadRequest)}
    (asked : tableCalls table = some calls) {matcher next : Matcher}
    (run : calls.foldlM Matcher.apply matcher = some next) :
    (∃ thread, next.thread table.id = some thread ∧ ConfiguredBy table thread) ∧
      ∀ other ≠ table.id, next.thread other = matcher.thread other := by
  obtain ⟨config, isConfig, asked⟩ := Option.bind_eq_some_iff.mp asked
  cases asked
  simp only [List.foldlM_cons, List.foldlM_nil, Option.bind_eq_bind, Option.bind_eq_some_iff, Option.pure_def,
    Option.some.injEq] at run
  obtain ⟨first, configures, second, leads, third, fields, rfl⟩ := run
  obtain ⟨⟨_, configured, _, memory, there⟩, others⟩ := thread_apply configures
  obtain ⟨⟨_, mapped, same, actions, there'⟩, others'⟩ := thread_apply leads
  obtain ⟨⟨_, final, same', infos, there''⟩, others''⟩ := thread_apply fields
  cases there.symm.trans same
  cases actions
  cases there'.symm.trans same'
  cases infos
  obtain ⟨missActId, empty⟩ := apply_setMemConfig memory
  have isMiss : config.missActId = table.missActionId := by
    obtain ⟨_, _, isConfig⟩ := Option.bind_eq_some_iff.mp isConfig
    obtain ⟨_, _, isConfig⟩ := Option.bind_eq_some_iff.mp isConfig
    obtain ⟨_, _, isConfig⟩ := Option.bind_eq_some_iff.mp isConfig
    obtain ⟨_, _, isConfig⟩ := Option.bind_eq_some_iff.mp isConfig
    obtain ⟨_, _, isConfig⟩ := Option.bind_eq_some_iff.mp isConfig
    cases isConfig
    rfl
  refine ⟨⟨_, there'', missActId.trans isMiss, fun actionId => ?_⟩, fun other different => ?_⟩
  · change (configured.setActionProcMap table.actionToProc).actionProcMap actionId = _
    rw [MatcherThread.setActionProcMap, empty]
    exact (foldl_update table.actionToProc (fun _ => none) actionId).trans (Option.or_none)
  · rw [others'' other different, others' other different, others other different]

/-- A table whose matcher id is its own has its thread. -/
theorem matcher_configured {tables : List Table} {lists : List (List (Int × ThreadRequest))}
    (asked : tables.mapM tableCalls = some lists) {matcher next : Matcher}
    (run : lists.flatten.foldlM Matcher.apply matcher = some next) {table : Table}
    (own : ∀ other ∈ tables, other.id = table.id → other = table)
    (holds : table ∈ tables ∨ ∃ thread, matcher.thread table.id = some thread ∧ ConfiguredBy table thread) :
    ∃ thread, next.thread table.id = some thread ∧ ConfiguredBy table thread := by
  induction tables generalizing lists matcher with
  | nil =>
      cases asked
      cases run
      exact holds.resolve_left List.not_mem_nil
  | cons first rest ih =>
      obtain ⟨calls, others, here, later, rfl⟩ := mapM_cons_some asked
      rw [List.flatten_cons, List.foldlM_append] at run
      obtain ⟨middle, front, run⟩ := Option.bind_eq_some_iff.mp run
      obtain ⟨configured, frame⟩ := tableCalls_thread here front
      refine ih later run (fun other member => own other (List.mem_cons_of_mem _ member)) ?_
      by_cases same : first.id = table.id
      · obtain rfl := own first List.mem_cons_self same
        exact .inr configured
      · rcases holds with listed | ⟨thread, there, isConfigured⟩
        · rcases List.mem_cons.mp listed with rfl | inside
          · exact absurd rfl same
          · exact .inl inside
        · exact .inr ⟨thread, (frame _ (Ne.symm same)).trans there, isConfigured⟩

private theorem insertAction_slot {exe next : Executor} {slot : Dataplane.Action} {actionId : Int}
    (step : exe.insertAction slot actionId = some next) :
    0 ≤ actionId ∧ (next[actionId.toNat]?).join = some slot ∧
      ∀ other : Nat, other ≠ actionId.toNat → next[other]? = exe[other]? := by
  unfold Executor.insertAction at step
  split at step
  · cases step
  · next nonneg =>
    unfold setAt at step
    split at step
    · next inside =>
      cases step
      refine ⟨by omega, ?_, fun other different => List.getElem?_set_ne (Ne.symm different)⟩
      rw [List.getElem?_set_self inside]
      rfl
    · cases step

/-- Actions that are found by their ids have their slots. -/
theorem executor_holds {actions : List Compiler.Action} {pairs : List (Int × Dataplane.Action)}
    (asked : actions.mapM actionCall = some pairs) {exe next : Executor}
    (run : pairs.foldlM (fun exe pair => exe.insertAction pair.2 pair.1) exe = some next)
    {action : Compiler.Action} (own : ∀ other ∈ actions, other.id = action.id → other = action)
    (holds : action ∈ actions ∨ 0 ≤ action.id ∧ ∃ slot, extractAction action = some slot ∧
      (exe[action.id.toNat]?).join = some slot) :
    0 ≤ action.id ∧ ∃ slot, extractAction action = some slot ∧ (next[action.id.toNat]?).join = some slot := by
  induction actions generalizing pairs exe with
  | nil =>
      cases asked
      cases run
      exact holds.resolve_left List.not_mem_nil
  | cons first rest ih =>
      obtain ⟨pair, others, here, later, rfl⟩ := mapM_cons_some asked
      obtain ⟨slot, isSlot, here⟩ := Option.bind_eq_some_iff.mp here
      cases here
      rw [List.foldlM_cons] at run
      obtain ⟨middle, front, run⟩ := Option.bind_eq_some_iff.mp run
      obtain ⟨nonneg, inserted, frame⟩ := insertAction_slot front
      refine ih later run (fun other member => own other (List.mem_cons_of_mem _ member)) ?_
      by_cases same : first.id = action.id
      · obtain rfl := own first List.mem_cons_self same
        exact .inr ⟨nonneg, slot, isSlot, inserted⟩
      · rcases holds with listed | ⟨positive, own, isOwn, there⟩
        · rcases List.mem_cons.mp listed with rfl | inside
          · exact absurd rfl same
          · exact .inl inside
        · refine .inr ⟨positive, own, isOwn, ?_⟩
          rw [frame _ (by omega), there]

/-- A processor behind a push: the threads of its tables, and the slots of its actions. -/
structure Installed (doc : ProcessorDoc) (processor : Dataplane.Processor) : Prop where
  threads : ∀ table ∈ doc.matcher, (∀ other ∈ doc.matcher, other.id = table.id → other = table) →
    ∃ thread, processor.matcher.thread table.id = some thread ∧ ConfiguredBy table thread
  slots : ∀ action ∈ doc.executor, (∀ other ∈ doc.executor, other.id = action.id → other = action) →
    0 ≤ action.id ∧ ∃ slot, extractAction action = some slot ∧
      (processor.exe[action.id.toNat]?).join = some slot

theorem push_installed {doc : ProcessorDoc} {calls : ProcessorCalls} {before after : Dataplane.Processor}
    (asked : processorCalls doc = some calls) (pushed : calls.push before = some after) :
    Installed doc after := by
  obtain ⟨gateway, _, asked⟩ := Option.bind_eq_some_iff.mp asked
  obtain ⟨threads, tables, asked⟩ := Option.bind_eq_some_iff.mp asked
  obtain ⟨executor, actions, asked⟩ := Option.bind_eq_some_iff.mp asked
  cases asked
  obtain ⟨parser, _, pushed⟩ := Option.bind_eq_some_iff.mp pushed
  obtain ⟨matcher, configured, pushed⟩ := Option.bind_eq_some_iff.mp pushed
  obtain ⟨exe, inserted, pushed⟩ := Option.bind_eq_some_iff.mp pushed
  cases pushed
  exact ⟨fun table member own => matcher_configured tables configured own (.inl member),
    fun action member own => executor_holds actions inserted own (.inl member)⟩

end Ipbm.Controller
