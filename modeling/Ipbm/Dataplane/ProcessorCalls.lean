import Ipbm.Dataplane.ParserClear
import Ipbm.Dataplane.PipelineProperties
import Ipbm.Dataplane.ThreadStates

/-! The requests of a push by the part of the processor they are about. As no request of a push
writes an entry, the memory stays zero. -/

set_option autoImplicit false

namespace Ipbm.Dataplane
open Lib

inductive ThreadRequest where
  | setMemConfig (config : Pipeline.MemConfig)
  | setActionProc (actionProcs : List (Int × Int))
  | setFieldInfo (fdInfos : List FieldInfo)

namespace ThreadRequest

/-- On a memory without entries. -/
def apply (thread : MatcherThread) : ThreadRequest → Option MatcherThread
  | setMemConfig config => (Pipeline.setMemConfig config Memory.fresh thread).map Prod.snd
  | setActionProc actionProcs => some (thread.setActionProcMap actionProcs)
  | setFieldInfo fdInfos => some (thread.setFieldInfo fdInfos)

def request (procId matcherId : Int) : ThreadRequest → Request
  | setMemConfig config => .setMemConfig procId matcherId config
  | setActionProc actionProcs => .setActionProc procId matcherId actionProcs
  | setFieldInfo fdInfos => .setFieldInfo procId matcherId fdInfos

end ThreadRequest

def Matcher.apply (matcher : Matcher) (pair : Int × ThreadRequest) : Option Matcher :=
  if pair.1 < 0 then none else do
    let thread ← matcher[pair.1.toNat]?
    return matcher.set pair.1.toNat (← pair.2.apply thread)

def ParserCall.request (procId : Int) : ParserCall → Request
  | initParserLevel parserLevel => .initParserLevel procId parserLevel
  | modifyParserEntryDirect level entry => .modParserEntry procId level entry
  | clear => .clearParser procId

/-- What a push asks of one processor. -/
structure ProcessorCalls where
  parserLevel : Nat
  entries : List (Nat × ParserEntry)
  gateway : List GatewayRequest
  matcher : List (Int × ThreadRequest)
  executor : List (Int × Action)

namespace ProcessorCalls

def parser (calls : ProcessorCalls) : List ParserCall :=
  .initParserLevel calls.parserLevel :: calls.entries.map fun pair => .modifyParserEntryDirect pair.1 pair.2

def requests (calls : ProcessorCalls) (procId : Int) : List Request :=
  calls.parser.map (·.request procId) ++ calls.gateway.map (.gateway procId) ++
    calls.matcher.map (fun pair => pair.2.request procId pair.1) ++
    calls.executor.map fun pair => .insertAction procId pair.1 pair.2

def push (calls : ProcessorCalls) (processor : Processor) : Option Processor := do
  let parser ← calls.parser.foldlM ParserCall.apply processor.parser
  let matcher ← calls.matcher.foldlM Matcher.apply processor.matcher
  let exe ← calls.executor.foldlM (fun exe pair => exe.insertAction pair.2 pair.1) processor.exe
  return { parser, gateway := calls.gateway.foldl Gateway.apply processor.gateway, matcher, exe }

end ProcessorCalls

/-! ### A memory without entries -/

theorem clearBanks_fresh (blocks : List Nat) (count : Nat) :
    blocks.foldl (fun banks block => clearBank banks block count) (fun _ _ => 0) = fun _ _ => 0 := by
  funext block address
  by_cases inside : address < count
  · exact MatcherThread.wipe_zero inside (.inl rfl)
  · exact MatcherThread.wipe_beyond (Nat.le_of_not_lt inside)

theorem MatcherThread.clearOldConfig_fresh {thread next : MatcherThread} {after : Memory}
    (done : thread.clearOldConfig Memory.fresh = some (after, next)) : after = Memory.fresh := by
  rcases clearOldConfig_some done with ⟨_, _, _, _, _, rfl, _⟩ | ⟨_, _, _, _, _, rfl, _⟩
  · simp only [Memory.fresh, clearBanks_fresh]
  · simp only [Memory.fresh, clearBanks_fresh]

theorem setMemConfig_fresh {config : Pipeline.MemConfig} {thread next : MatcherThread} {after : Memory}
    (done : Pipeline.setMemConfig config Memory.fresh thread = some (after, next)) :
    after = Memory.fresh := by
  obtain ⟨_, _, clear, _⟩ := MatcherThread.setMemConfig_iff.mp done
  exact MatcherThread.clearOldConfig_fresh clear

namespace Pipeline

variable {pipeline : Pipeline} {procId : Nat} {processor : Processor}

theorem atProc_map (here : pipeline.procs[procId]? = some processor) (change : Processor → Option Processor) :
    pipeline.atProc procId change =
      (change processor).map fun next => { pipeline with procs := pipeline.procs.set procId next } := by
  simp only [atProc, Int.natCast_nonneg, not_lt.mpr, if_false, Int.toNat_natCast, here,
    Option.bind_eq_bind, Option.bind_some]
  cases change processor <;> rfl

/-- Requests about one part of a processor change this part as calls on it do. -/
theorem configure_part {ι γ : Type} {request : ι → Request} {step : γ → ι → Option γ} {get : Processor → γ}
    {put : Processor → γ → Processor} (getPut : ∀ processor part, get (put processor part) = part)
    (putPut : ∀ processor part other, put (put processor part) other = put processor other)
    (putGet : ∀ processor, put processor (get processor) = processor)
    (applies : ∀ (pipeline : Pipeline) (processor : Processor) (item : ι), pipeline.memory = Memory.fresh →
      pipeline.procs[procId]? = some processor → pipeline.apply (request item) =
        (step (get processor) item).map fun part =>
    { pipeline with procs := pipeline.procs.set procId (put processor part) })
    (items : List ι) (memory : pipeline.memory = Memory.fresh)
    (here : pipeline.procs[procId]? = some processor) :
    pipeline.configure (items.map request) = (items.foldlM step (get processor)).map fun part =>
      { pipeline with procs := pipeline.procs.set procId (put processor part) } := by
  induction items generalizing pipeline processor with
  | nil =>
      obtain ⟨inside, same⟩ := List.getElem?_eq_some_iff.mp here
      simp [configure, putGet, ← same]
  | cons item rest ih =>
      rw [List.map_cons, configure, List.foldlM_cons, List.foldlM_cons,
        applies pipeline processor item memory here]
      cases first : step (get processor) item with
      | none => rfl
      | some part =>
          obtain ⟨inside, _⟩ := List.getElem?_eq_some_iff.mp here
          have rest := @ih { pipeline with procs := pipeline.procs.set procId (put processor part) }
            (put processor part) memory (by simp [inside])
          rw [configure] at rest
          simp only [Option.map_some, Option.bind_eq_bind, Option.bind_some]
          rw [rest, getPut]
          simp only [putPut, List.set_set]

private theorem atThread_matcher (here : pipeline.procs[procId]? = some processor) {matcherId : Int}
    {change : Memory → MatcherThread → Option (Memory × MatcherThread)} {request : ThreadRequest}
    (agrees : ∀ thread, change pipeline.memory thread =
      (request.apply thread).map fun next => (pipeline.memory, next)) :
    pipeline.atThread procId matcherId change =
      (processor.matcher.apply (matcherId, request)).map fun matcher =>
      { pipeline with procs := pipeline.procs.set procId { processor with matcher } } := by
  by_cases negative : matcherId < 0
  · simp [atThread, Matcher.apply, negative]
  · simp only [atThread, Matcher.apply, negative, or_false, Int.toNat_natCast, here, if_false,
      Option.bind_eq_bind, Option.bind_some, show ¬(procId : Int) < 0 by omega]
    cases processor.matcher[matcherId.toNat]? with
    | none => rfl
    | some thread =>
        simp only [Option.bind_some, agrees]
        cases request.apply thread <;> rfl

theorem apply_parserCall (here : pipeline.procs[procId]? = some processor) (call : ParserCall) :
    pipeline.apply (call.request procId) = (call.apply processor.parser).map fun parser =>
      { pipeline with procs := pipeline.procs.set procId { processor with parser } } := by
  cases call with
  | initParserLevel parserLevel =>
      rw [ParserCall.request, apply, atProc_map here]
      rfl
  | modifyParserEntryDirect level entry =>
      rw [ParserCall.request, apply, atProc_map here, ParserCall.apply]
      cases processor.parser.modifyParserEntryDirect level entry <;> rfl
  | clear =>
      rw [ParserCall.request, apply, atProc_map here, ParserCall.apply]
      cases processor.parser.clear <;> rfl

theorem apply_threadRequest (memory : pipeline.memory = Memory.fresh)
    (here : pipeline.procs[procId]? = some processor) (matcherId : Int) (request : ThreadRequest) :
    pipeline.apply (request.request procId matcherId) =
      (processor.matcher.apply (matcherId, request)).map fun matcher =>
      { pipeline with procs := pipeline.procs.set procId { processor with matcher } } := by
  cases request with
  | setMemConfig config =>
      refine atThread_matcher here fun thread => ?_
      rw [ThreadRequest.apply, memory]
      cases done : setMemConfig config Memory.fresh thread with
      | none => rfl
      | some pair =>
          obtain ⟨after, next⟩ := pair
          rw [setMemConfig_fresh done]
          rfl
  | setActionProc actionProcs =>
      exact @atThread_matcher _ _ _ here matcherId (fun memory thread =>
        some (memory, thread.setActionProcMap actionProcs))
        (.setActionProc actionProcs) fun _ => rfl
  | setFieldInfo fdInfos =>
      exact @atThread_matcher _ _ _ here matcherId (fun memory thread =>
        some (memory, thread.setFieldInfo fdInfos))
        (.setFieldInfo fdInfos) fun _ => rfl

theorem apply_gateway (here : pipeline.procs[procId]? = some processor) (request : GatewayRequest) :
    pipeline.apply (.gateway procId request) = (some (processor.gateway.apply request)).map fun gateway =>
      { pipeline with procs := pipeline.procs.set procId { processor with gateway } } :=
  atProc_map here _

theorem apply_insertAction (here : pipeline.procs[procId]? = some processor) (actionId : Int)
    (action : Action) :
    pipeline.apply (.insertAction procId actionId action) =
      (processor.exe.insertAction action actionId).map fun exe =>
      { pipeline with procs := pipeline.procs.set procId { processor with exe } } := by
  rw [apply, atProc_map here]
  cases processor.exe.insertAction action actionId <;> rfl

theorem configure_parserCalls (memory : pipeline.memory = Memory.fresh)
    (here : pipeline.procs[procId]? = some processor)
    (calls : List ParserCall) : pipeline.configure (calls.map (·.request procId)) =
      (calls.foldlM ParserCall.apply processor.parser).map fun parser =>
        { pipeline with procs := pipeline.procs.set procId { processor with parser } } :=
  @configure_part pipeline procId processor _ _ _ _ Processor.parser (fun processor parser =>
    { processor with parser })
    (fun _ _ => rfl) (fun _ _ _ => rfl) (fun _ => rfl) (fun _ _ call _ here =>
      apply_parserCall here call) calls memory here

theorem configure_gateway (memory : pipeline.memory = Memory.fresh)
    (here : pipeline.procs[procId]? = some processor)
    (requests : List GatewayRequest) : pipeline.configure (requests.map (.gateway procId)) =
      some { pipeline with
        procs := pipeline.procs.set procId
          { processor with gateway := requests.foldl Gateway.apply processor.gateway } } := by
  have part := @configure_part pipeline procId processor _ _ (.gateway procId)
    (fun (gateway : Gateway) (request : GatewayRequest) => some (gateway.apply request))
    Processor.gateway (fun processor gateway => { processor with gateway }) (fun _ _ => rfl)
      (fun _ _ _ => rfl) (fun _ => rfl)
    (fun _ _ request _ here => apply_gateway here request) requests memory here
  rw [part]
  have all : requests.foldlM (fun gateway request => some (Gateway.apply gateway request)) processor.gateway =
      some (requests.foldl Gateway.apply processor.gateway) := List.foldlM_pure
  rw [all, Option.map_some]

theorem configure_threads (memory : pipeline.memory = Memory.fresh)
    (here : pipeline.procs[procId]? = some processor)
    (requests : List (Int × ThreadRequest)) :
    pipeline.configure (requests.map fun pair => pair.2.request procId pair.1) =
      (requests.foldlM Matcher.apply processor.matcher).map fun matcher =>
        { pipeline with procs := pipeline.procs.set procId { processor with matcher } } :=
  @configure_part pipeline procId processor _ _ _ _ Processor.matcher (fun processor matcher =>
    { processor with matcher })
    (fun _ _ => rfl) (fun _ _ _ => rfl) (fun _ => rfl)
    (fun _ _ pair memory here => apply_threadRequest memory here pair.1 pair.2) requests memory here

theorem configure_actions (memory : pipeline.memory = Memory.fresh)
    (here : pipeline.procs[procId]? = some processor)
    (actions : List (Int × Action)) :
    pipeline.configure (actions.map fun pair => .insertAction procId pair.1 pair.2) =
      (actions.foldlM (fun (exe : Executor) pair => exe.insertAction pair.2 pair.1)
        processor.exe).map fun exe =>
        { pipeline with procs := pipeline.procs.set procId { processor with exe } } :=
  @configure_part pipeline procId processor _ _ _ _ Processor.exe (fun processor exe =>
    { processor with exe })
    (fun _ _ => rfl) (fun _ _ _ => rfl) (fun _ => rfl) (fun _ _ pair _ here =>
      apply_insertAction here pair.1 pair.2)
    actions memory here

/-- The calls on one processor change this processor only. -/
theorem configure_calls (calls : ProcessorCalls) (memory : pipeline.memory = Memory.fresh)
    (here : pipeline.procs[procId]? = some processor) :
    pipeline.configure (calls.requests procId) = (calls.push processor).map fun next =>
      { pipeline with procs := pipeline.procs.set procId next } := by
  obtain ⟨inside, _⟩ := List.getElem?_eq_some_iff.mp here
  have split : ∀ (pipeline : Pipeline) (first second : List Request), pipeline.configure (first ++ second) =
      (pipeline.configure first).bind fun middle => middle.configure second :=
    fun _ _ _ => List.foldlM_append
  have atSet : ∀ next : Processor, (pipeline.procs.set procId next)[procId]? = some next := by simp [inside]
  rw [ProcessorCalls.requests, List.append_assoc, List.append_assoc, split, configure_parserCalls memory here,
    ProcessorCalls.push]
  cases calls.parser.foldlM ParserCall.apply processor.parser with
  | none => rfl
  | some parser =>
      have gateway :=
        @configure_gateway
          { pipeline with procs := pipeline.procs.set procId { processor with parser } } procId _
        memory (atSet _) calls.gateway
      simp only [Option.map_some, Option.bind_eq_bind, Option.bind_some, split, gateway, List.set_set]
      generalize calls.gateway.foldl Gateway.apply processor.gateway = gateway
      have threads :=
        @configure_threads
          { pipeline with procs := pipeline.procs.set procId { processor with parser, gateway } }
        procId _ memory (atSet _) calls.matcher
      rw [threads]
      cases calls.matcher.foldlM Matcher.apply processor.matcher with
      | none => rfl
      | some matcher =>
          have actions := @configure_actions { pipeline with
            procs := pipeline.procs.set procId
              { processor with parser, gateway, matcher } } procId _ memory (atSet _) calls.executor
          simp only [Option.map_some, Option.bind_some, List.set_set, actions]
          cases calls.executor.foldlM (fun exe pair => exe.insertAction pair.2 pair.1) processor.exe <;> rfl

end Pipeline

end Ipbm.Dataplane
