import Ipbm.Dataplane.Pipeline

/-! Frame properties of the configuration requests: a request changes the matcher
thread it names and no other one. -/

set_option autoImplicit false

namespace Ipbm.Dataplane

/-- The matcher thread a request is about. -/
def Request.Addresses (procId matcherId : Int) : Request → Prop
  | .setMemConfig proc matcher _ => proc = procId ∧ matcher = matcherId
  | .setActionProc proc matcher _ => proc = procId ∧ matcher = matcherId
  | .setFieldInfo proc matcher _ => proc = procId ∧ matcher = matcherId
  | .setNoTable proc matcher _ => proc = procId ∧ matcher = matcherId
  | .insertSramEntry proc matcher _ _ => proc = procId ∧ matcher = matcherId
  | .insertTcamEntry proc matcher _ _ _ => proc = procId ∧ matcher = matcherId
  | _ => False

namespace Pipeline

def threadAt (pipeline : Pipeline) (procId matcherId : Int) : Option MatcherThread := do
  let processor ← pipeline.proc procId
  processor.matcher.thread matcherId

variable {pipeline after : Pipeline} {procId matcherId : Int}

theorem atProc_cases {proc : Int} {change : Processor → Option Processor}
    (changed : pipeline.atProc proc change = some after) :
    ∃ processor next, 0 ≤ proc ∧ pipeline.procs[proc.toNat]? = some processor ∧ change processor = some next ∧
      after = { pipeline with procs := pipeline.procs.set proc.toNat next } := by
  unfold atProc at changed
  split at changed
  · cases changed
  · next nonneg =>
      obtain ⟨processor, found, changed⟩ := Option.bind_eq_some_iff.mp changed
      obtain ⟨next, step, changed⟩ := Option.bind_eq_some_iff.mp changed
      exact ⟨processor, next, by omega, found, step, (Option.some.inj changed).symm⟩

theorem atThread_cases {proc matcher : Int}
    {change : Memory → MatcherThread → Option (Memory × MatcherThread)}
    (changed : pipeline.atThread proc matcher change = some after) :
    ∃ processor thread memory next, 0 ≤ proc ∧ 0 ≤ matcher ∧ pipeline.procs[proc.toNat]? = some processor ∧
      processor.matcher[matcher.toNat]? = some thread ∧ change pipeline.memory thread = some (memory, next) ∧
      after = { pipeline with
        memory
        procs := pipeline.procs.set proc.toNat
          { processor with matcher := processor.matcher.set matcher.toNat next } } := by
  unfold atThread at changed
  split at changed
  · cases changed
  · next nonneg =>
      obtain ⟨processor, found, changed⟩ := Option.bind_eq_some_iff.mp changed
      obtain ⟨thread, there, changed⟩ := Option.bind_eq_some_iff.mp changed
      obtain ⟨⟨memory, next⟩, step, changed⟩ := Option.bind_eq_some_iff.mp changed
      exact ⟨processor, thread, memory, next, by omega, by omega, found, there, step,
        (Option.some.inj changed).symm⟩

theorem threadAt_atProc {proc : Int} {change : Processor → Option Processor}
    (keeps : ∀ processor next, change processor = some next → next.matcher = processor.matcher)
    (changed : pipeline.atProc proc change = some after) :
    after.threadAt procId matcherId = pipeline.threadAt procId matcherId := by
  obtain ⟨processor, next, nonneg, found, step, rfl⟩ := atProc_cases changed
  unfold threadAt Pipeline.proc
  by_cases negative : procId < 0
  · simp only [if_pos negative]
  · simp only [if_neg negative]
    by_cases same : proc.toNat = procId.toNat
    · rw [← same, found, List.getElem?_set_self (List.getElem?_eq_some_iff.mp found).1]
      simp only [Option.bind_eq_bind, Option.bind_some]
      rw [keeps processor next step]
    · rw [List.getElem?_set_ne same]

theorem threadAt_atThread_ne {proc matcher : Int}
    {change : Memory → MatcherThread → Option (Memory × MatcherThread)}
    (other : ¬(proc = procId ∧ matcher = matcherId))
    (changed : pipeline.atThread proc matcher change = some after) :
    after.threadAt procId matcherId = pipeline.threadAt procId matcherId := by
  obtain ⟨processor, thread, memory, next, procNonneg, matcherNonneg, found, there, step, rfl⟩ :=
    atThread_cases changed
  unfold threadAt Pipeline.proc
  by_cases negative : procId < 0
  · simp only [if_pos negative]
  · simp only [if_neg negative]
    by_cases same : proc.toNat = procId.toNat
    · rw [← same, found, List.getElem?_set_self (List.getElem?_eq_some_iff.mp found).1]
      simp only [Option.bind_eq_bind, Option.bind_some, Matcher.thread]
      split
      · rfl
      · have different : matcher.toNat ≠ matcherId.toNat := by omega
        exact List.getElem?_set_ne different
    · rw [List.getElem?_set_ne same]

theorem threadAt_atThread {change : Memory → MatcherThread → Option (Memory × MatcherThread)}
    (changed : pipeline.atThread procId matcherId change = some after) :
    ∃ thread memory next, pipeline.threadAt procId matcherId = some thread ∧
      change pipeline.memory thread = some (memory, next) ∧ after.threadAt procId matcherId = some next := by
  obtain ⟨processor, thread, memory, next, procNonneg, matcherNonneg, found, there, step, rfl⟩ :=
    atThread_cases changed
  have nonneg : ¬procId < 0 := by omega
  have matcherOk : ¬matcherId < 0 := by omega
  refine ⟨thread, memory, next, ?_, step, ?_⟩
  · simp [threadAt, Pipeline.proc, nonneg, found, Matcher.thread, matcherOk, there]
  · obtain ⟨procBound, -⟩ := List.getElem?_eq_some_iff.mp found
    obtain ⟨matcherBound, -⟩ := List.getElem?_eq_some_iff.mp there
    simp [threadAt, Pipeline.proc, nonneg, Matcher.thread, matcherOk, procBound, matcherBound]

theorem setMemConfig_thread {config : MemConfig} {memory cleared : Memory} {thread next : MatcherThread}
    (set : setMemConfig config memory thread = some (cleared, next)) :
    next.noTable = false ∧ next.matchType = config.matchType ∧ next.missActId = config.missActId ∧
      next.depth = config.depth := by
  obtain ⟨⟨_, old⟩, _, set⟩ := Option.bind_eq_some_iff.mp set
  obtain ⟨configured, copied, set⟩ := Option.bind_eq_some_iff.mp set
  cases set
  obtain ⟨keys, _, copied⟩ := Option.bind_eq_some_iff.mp copied
  obtain ⟨values, _, copied⟩ := Option.bind_eq_some_iff.mp copied
  cases copied
  exact ⟨rfl, rfl, rfl, rfl⟩

theorem threadAt_apply {request : Request} (other : ¬request.Addresses procId matcherId)
    (applied : pipeline.apply request = some after) :
    after.threadAt procId matcherId = pipeline.threadAt procId matcherId := by
  cases request with
  | setMetadata headerInfos =>
      cases applied
      rfl
  | initParserLevel proc level =>
      refine threadAt_atProc (fun processor next step => ?_) applied
      cases step
      rfl
  | modParserEntry proc level entry =>
      refine threadAt_atProc (fun processor next step => ?_) applied
      obtain ⟨parser, _, step⟩ := Option.bind_eq_some_iff.mp step
      cases step
      rfl
  | clearParser proc =>
      refine threadAt_atProc (fun processor next step => ?_) applied
      obtain ⟨parser, _, step⟩ := Option.bind_eq_some_iff.mp step
      cases step
      rfl
  | gateway proc request =>
      refine threadAt_atProc (fun processor next step => ?_) applied
      cases step
      rfl
  | insertAction proc actionId action =>
      refine threadAt_atProc (fun processor next step => ?_) applied
      obtain ⟨exe, _, step⟩ := Option.bind_eq_some_iff.mp step
      cases step
      rfl
  | setMemConfig proc matcher config =>
      simp only [apply] at applied
      exact threadAt_atThread_ne other applied
  | setActionProc proc matcher actionProcs =>
      simp only [apply] at applied
      exact threadAt_atThread_ne other applied
  | setFieldInfo proc matcher fdInfos =>
      simp only [apply] at applied
      exact threadAt_atThread_ne other applied
  | setNoTable proc matcher noTable =>
      simp only [apply] at applied
      exact threadAt_atThread_ne other applied
  | insertSramEntry proc matcher key value =>
      simp only [apply] at applied
      exact threadAt_atThread_ne other applied
  | insertTcamEntry proc matcher key mask value =>
      simp only [apply] at applied
      exact threadAt_atThread_ne other applied

theorem threadAt_configure {requests : List Request}
    (other : ∀ request ∈ requests, ¬request.Addresses procId matcherId)
    (run : pipeline.configure requests = some after) :
    after.threadAt procId matcherId = pipeline.threadAt procId matcherId := by
  induction requests generalizing pipeline with
  | nil =>
      cases run
      rfl
  | cons request rest ih =>
      rw [configure, List.foldlM_cons] at run
      obtain ⟨middle, first, run⟩ := Option.bind_eq_some_iff.mp run
      rw [ih (fun request member => other request (List.mem_cons_of_mem _ member)) run]
      exact threadAt_apply (other request List.mem_cons_self) first

theorem configure_append {first second : List Request}
    (run : pipeline.configure (first ++ second) = some after) :
    ∃ middle, pipeline.configure first = some middle ∧ middle.configure second = some after := by
  rw [configure, List.foldlM_append] at run
  exact Option.bind_eq_some_iff.mp run

end Pipeline

end Ipbm.Dataplane
