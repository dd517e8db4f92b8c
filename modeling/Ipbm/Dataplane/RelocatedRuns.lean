import Ipbm.Dataplane.Relocation

/-! Runs of pipelines whose processors correspond, and requests that keep them so. -/

set_option autoImplicit false

namespace Ipbm.Dataplane
open Lib

variable {located : Int → Int → Prop}

structure Pipeline.Alike (located : Int → Int → Prop) (used ideal : Pipeline) : Prop where
  memory : used.memory = ideal.memory
  metaInfos : used.metaInfos = ideal.metaInfos
  procs : ∀ {own other : Int}, located own other →
    Option.Rel (Processor.Alike located) (used.proc other) (ideal.proc own)

inductive Pipeline.Progress.Alike (located : Int → Int → Prop) : Pipeline.Progress → Pipeline.Progress → Prop
  | done {phv phv' : Phv} (packets : phv.Alike located phv') : Alike located (.done phv) (.done phv')
  | running (phv phv' : Phv) : Alike located (.running phv) (.running phv')
  | undefined : Alike located .undefined .undefined

namespace Pipeline.Alike

variable {used ideal : Pipeline}

/-! ### Packets -/

theorem step (alike : used.Alike located ideal) (numbering : Numbering located)
    (scratch : Nat → UInt8) {phv phv' : Phv} (packets : phv.Alike located phv') :
    Option.Rel (Phv.Alike located) (used.step scratch phv) (ideal.step scratch phv') := by
  unfold Pipeline.step
  rw [alike.memory]
  exact rel_bind (alike.procs packets.next) fun _ _ processors =>
    processors.processPacket numbering ideal.memory scratch packets

theorem execute (alike : used.Alike located ideal) (numbering : Numbering located)
    (scratch : Nat → Nat → UInt8) (fuel : Nat) {phv phv' : Phv} (packets : phv.Alike located phv') :
    Progress.Alike located (used.execute scratch fuel phv) (ideal.execute scratch fuel phv') := by
  induction fuel generalizing phv phv' with
  | zero =>
      unfold Pipeline.execute
      by_cases ended : phv'.nextProcId = -1
      · rw [if_pos ended, if_pos ((packets.ends numbering).mpr ended)]
        exact .done packets
      · rw [if_neg ended, if_neg ((packets.ends numbering).not.mpr ended)]
        exact .running phv phv'
  | succ fuel ih =>
      unfold Pipeline.execute
      by_cases ended : phv'.nextProcId = -1
      · rw [if_pos ended, if_pos ((packets.ends numbering).mpr ended)]
        exact .done packets
      rw [if_neg ended, if_neg ((packets.ends numbering).not.mpr ended)]
      have turn := alike.step numbering (scratch fuel) packets
      dsimp only
      cases here : used.step (scratch fuel) phv <;> cases there : ideal.step (scratch fuel) phv' <;>
        rw [here, there] at turn <;>
        cases turn
      case none.none => exact .undefined
      case some.some packets => exact ih packets

/-! ### Frames -/

theorem emit_alike (ifMacs : List (List UInt8)) (frame : List UInt8) {phv phv' : Phv}
    (packets : phv.Alike located phv') :
    emit ifMacs frame phv = emit ifMacs frame phv' := by
  cases packets
  rfl

theorem initPhv_nextProcId {pipeline : Pipeline} {frame : List UInt8} {ifIndex : Nat} {phv : Phv}
    (init : initPhv pipeline frame ifIndex = some phv) : phv.nextProcId = 0 := by
  obtain ⟨packet, _, init⟩ := Option.bind_eq_some_iff.mp init
  obtain ⟨parsedHeaders, _, init⟩ := Option.bind_eq_some_iff.mp init
  obtain ⟨_, _, init⟩ := Option.bind_eq_some_iff.mp init
  obtain ⟨_, _, init⟩ := Option.bind_eq_some_iff.mp init
  obtain ⟨_, _, init⟩ := Option.bind_eq_some_iff.mp init
  cases init
  rfl

/-- Both pipelines forward a frame alike. -/
theorem forward (alike : used.Alike located ideal) (numbering : Numbering located)
    (scratch : Nat → Nat → UInt8) (ifMacs : List (List UInt8)) (fuel : Nat) (frame : List UInt8)
    (ifIndex : Nat) :
    Dataplane.forward used scratch ifMacs fuel frame ifIndex =
      Dataplane.forward ideal scratch ifMacs fuel frame ifIndex := by
  have starts : initPhv used frame ifIndex = initPhv ideal frame ifIndex := by
    unfold initPhv
    rw [alike.metaInfos]
  unfold Dataplane.forward
  rw [starts]
  refine Option.bind_congr fun phv init => ?_
  have first : located phv.nextProcId phv.nextProcId := by
    rw [initPhv_nextProcId init]
    exact numbering.start
  have runs :=
    alike.execute numbering scratch fuel (@Phv.Alike.redirected located phv.nextProcId phv.nextOp phv first)
  change Progress.Alike located (used.execute scratch fuel phv) _ at runs
  cases here : used.execute scratch fuel phv <;> cases there : ideal.execute scratch fuel phv <;>
    rw [here, there] at runs <;>
    cases runs
  case done.done packets => exact emit_alike ifMacs frame packets

end Pipeline.Alike

/-! ### Requests -/

theorem Pipeline.proc_set {pipeline : Pipeline} {procId : Int} {processor : Processor}
    (found : pipeline.proc procId = some processor)
    (memory : Memory) (next : Processor) (other : Int) :
    ({ pipeline with memory, procs := pipeline.procs.set procId.toNat next } : Pipeline).proc other =
      if other = procId then some next else pipeline.proc other := by
  unfold proc at found ⊢
  by_cases negative : other < 0
  · have different : other ≠ procId := by
      rintro rfl
      rw [if_pos negative] at found
      cases found
    rw [if_pos negative, if_neg different, if_pos negative]
  · split at found
    · cases found
    · next ordinary =>
        have inside := (List.getElem?_eq_some_iff.mp found).1
        rw [if_neg negative, if_neg negative, List.getElem?_set]
        by_cases same : other = procId
        · rw [if_pos same, if_pos (by rw [same]), if_pos inside]
        · rw [if_neg same, if_neg (by omega)]

theorem Pipeline.atProc_proc (pipeline : Pipeline) (procId : Int) (change : Processor → Option Processor) :
    pipeline.atProc procId change = (pipeline.proc procId) >>=
      fun processor => (change processor).map fun next =>
      { pipeline with procs := pipeline.procs.set procId.toNat next } := by
  unfold atProc proc
  split
  · rfl
  · refine Option.bind_congr fun processor _ => ?_
    cases change processor <;> rfl

theorem Pipeline.atThread_proc (pipeline : Pipeline) (procId matcherId : Int)
    (change : Memory → MatcherThread → Option (Memory × MatcherThread)) :
    pipeline.atThread procId matcherId change = (pipeline.proc procId) >>= fun processor =>
      (processor.matcher.thread matcherId) >>= fun thread => (change pipeline.memory thread).map fun pair =>
        { pipeline with
          memory := pair.1
          procs := pipeline.procs.set procId.toNat
            { processor with matcher := processor.matcher.set matcherId.toNat pair.2 } } := by
  unfold atThread proc Matcher.thread
  by_cases negative : procId < 0
  · rw [if_pos (.inl negative), if_pos negative]
    rfl
  rw [if_neg negative]
  by_cases noMatcher : matcherId < 0
  · rw [if_pos (.inr noMatcher)]
    cases pipeline.procs[procId.toNat]? with
    | none => rfl
    | some processor => simp only [if_pos noMatcher, Option.bind_eq_bind, Option.bind_some, Option.bind_none]
  · rw [if_neg (by omega)]
    refine Option.bind_congr fun processor _ => ?_
    rw [if_neg noMatcher]
    refine Option.bind_congr fun thread _ => ?_
    cases change pipeline.memory thread <;> rfl

/-- The same request, about processors that correspond. -/
inductive Request.Alike (located : Int → Int → Prop) : Request → Request → Prop
  | setMetadata (headerInfos : List HeaderInfo) :
      Alike located (.setMetadata headerInfos) (.setMetadata headerInfos)
  | initParserLevel {own other : Int} (here : located own other) (parserLevel : Nat) :
      Alike located (.initParserLevel other parserLevel) (.initParserLevel own parserLevel)
  | modParserEntry {own other : Int} (here : located own other) (parserLevel : Nat) (entry : ParserEntry) :
      Alike located (.modParserEntry other parserLevel entry) (.modParserEntry own parserLevel entry)
  | clearParser {own other : Int} (here : located own other) :
      Alike located (.clearParser other) (.clearParser own)
  | gateway {own other : Int} (here : located own other) {request request' : GatewayRequest}
      (same : request.Alike located request') : Alike located (.gateway other request) (.gateway own request')
  | setMemConfig {own other : Int} (here : located own other) (matcherId : Int)
      (config : Pipeline.MemConfig) :
      Alike located (.setMemConfig other matcherId config) (.setMemConfig own matcherId config)
  | setActionProc {own other : Int} (here : located own other)
      (matcherId : Int) {actionProcs actionProcs' : List (Int × Int)}
      (pairs : List.Forall₂ (fun pair pair' => pair.1 = pair'.1 ∧ located pair'.2 pair.2)
        actionProcs actionProcs') :
      Alike located (.setActionProc other matcherId actionProcs) (.setActionProc own matcherId actionProcs')
  | setFieldInfo {own other : Int} (here : located own other) (matcherId : Int) (fdInfos : List FieldInfo) :
      Alike located (.setFieldInfo other matcherId fdInfos) (.setFieldInfo own matcherId fdInfos)
  | setNoTable {own other : Int} (here : located own other) (matcherId : Int) (noTable : Bool) :
      Alike located (.setNoTable other matcherId noTable) (.setNoTable own matcherId noTable)
  | insertSramEntry {own other : Int} (here : located own other) (matcherId : Int) (key value : List UInt8) :
      Alike located (.insertSramEntry other matcherId key value) (.insertSramEntry own matcherId key value)
  | insertTcamEntry {own other : Int} (here : located own other) (matcherId : Int)
      (key mask value : List UInt8) :
      Alike located (.insertTcamEntry other matcherId key mask value)
        (.insertTcamEntry own matcherId key mask value)
  | insertAction {own other : Int} (here : located own other) (actionId : Int) (action : Action) :
      Alike located (.insertAction other actionId action) (.insertAction own actionId action)

namespace Pipeline.Alike

variable {used ideal : Pipeline} {own other : Int}

theorem set (alike : used.Alike located ideal) (numbering : Numbering located) (here : located own other)
    {processor processor' next next' : Processor} (found : used.proc other = some processor)
    (found' : ideal.proc own = some processor') {memory memory' : Memory} (memories : memory = memory')
    (processors : next.Alike located next') :
    Pipeline.Alike located { used with memory, procs := used.procs.set other.toNat next }
      { ideal with memory := memory', procs := ideal.procs.set own.toNat next' } := by
  refine ⟨memories, alike.metaInfos, fun {own' other'} there => ?_⟩
  rw [proc_set found, proc_set found']
  by_cases same : own' = own
  · rw [if_pos same, if_pos ((numbering.unique there here).mp same)]
    exact .some processors
  · rw [if_neg same, if_neg ((numbering.unique there here).not.mp same)]
    exact alike.procs there

theorem atProc (alike : used.Alike located ideal) (numbering : Numbering located) (here : located own other)
    {change change' : Processor → Option Processor}
    (changes : ∀ processor processor', Processor.Alike located processor processor' →
      Option.Rel (Processor.Alike located) (change processor) (change' processor')) :
    Option.Rel (Pipeline.Alike located) (used.atProc other change) (ideal.atProc own change') := by
  rw [atProc_proc, atProc_proc]
  refine rel_bind_of (alike.procs here) fun processor processor' found found' processors =>
    rel_map (changes processor processor' processors) fun next next' changed => ?_
  exact alike.set numbering here found found' alike.memory changed

theorem atThread (alike : used.Alike located ideal) (numbering : Numbering located)
    (here : located own other) (matcherId : Int)
    {change change' : Memory → MatcherThread → Option (Memory × MatcherThread)}
    (changes : ∀ thread thread', MatcherThread.Alike located thread thread' →
      Option.Rel (fun next next' => next.1 = next'.1 ∧ MatcherThread.Alike located next.2 next'.2)
        (change ideal.memory thread) (change' ideal.memory thread')) :
    Option.Rel (Pipeline.Alike located) (used.atThread other matcherId change)
      (ideal.atThread own matcherId change') := by
  rw [atThread_proc, atThread_proc, alike.memory]
  refine rel_bind_of (alike.procs here) fun processor processor' found found' processors =>
    rel_bind (Matcher.thread_alike processors.matcher matcherId) fun thread thread' threads =>
      rel_map (changes thread thread' threads) fun next next' changed => ?_
  exact alike.set numbering here found found' changed.1
    ⟨processors.parser, processors.gateway, forall₂_set processors.matcher _ changed.2, processors.exe⟩

/-- A request keeps the pipelines alike. -/
theorem apply (alike : used.Alike located ideal) (numbering : Numbering located) {request request' : Request}
    (same : request.Alike located request') :
    Option.Rel (Pipeline.Alike located) (used.apply request) (ideal.apply request') := by
  cases same with
  | setMetadata headerInfos => exact .some ⟨alike.memory, rfl, alike.procs⟩
  | initParserLevel here parserLevel =>
      refine alike.atProc numbering here fun processor processor' processors => ?_
      rw [processors.parser]
      exact .some ⟨rfl, processors.gateway, processors.matcher, processors.exe⟩
  | modParserEntry here parserLevel entry =>
      refine alike.atProc numbering here fun processor processor' processors => ?_
      rw [processors.parser]
      exact rel_bind (rel_of_eq (fun _ => rfl) _) fun _ _ same =>
        .some ⟨same, processors.gateway, processors.matcher, processors.exe⟩
  | clearParser here =>
      refine alike.atProc numbering here fun processor processor' processors => ?_
      rw [processors.parser]
      exact rel_bind (rel_of_eq (fun _ => rfl) _) fun _ _ same =>
        .some ⟨same, processors.gateway, processors.matcher, processors.exe⟩
  | gateway here same =>
      exact alike.atProc numbering here fun processor processor' processors =>
        .some ⟨processors.parser, processors.gateway.apply same, processors.matcher, processors.exe⟩
  | setMemConfig here matcherId config =>
      exact alike.atThread numbering here matcherId fun _ _ threads =>
        threads.setMemConfig config ideal.memory
  | setActionProc here matcherId pairs =>
      simp only [Pipeline.apply]
      exact alike.atThread numbering here matcherId fun _ _ threads =>
        .some ⟨rfl, threads.setActionProcMap pairs⟩
  | setFieldInfo here matcherId fdInfos =>
      simp only [Pipeline.apply]
      exact alike.atThread numbering here matcherId fun _ _ threads =>
        .some ⟨rfl, threads.setFieldInfo fdInfos⟩
  | setNoTable here matcherId noTable =>
      simp only [Pipeline.apply]
      exact alike.atThread numbering here matcherId fun _ _ threads => .some ⟨rfl, threads.setNoTable noTable⟩
  | insertSramEntry here matcherId key value =>
      simp only [Pipeline.apply]
      refine alike.atThread numbering here matcherId fun thread thread' threads => ?_
      rw [threads.insertSramEntry]
      exact rel_bind (rel_of_eq (fun _ => rfl) _) fun _ _ same => .some ⟨same, threads⟩
  | insertTcamEntry here matcherId key mask value =>
      simp only [Pipeline.apply]
      exact alike.atThread numbering here matcherId fun _ _ threads =>
        threads.insertTcamEntry ideal.memory key mask value
  | insertAction here actionId action =>
      refine alike.atProc numbering here fun processor processor' processors => ?_
      rw [processors.exe]
      exact rel_bind (rel_of_eq (fun _ => rfl) _) fun _ _ same =>
        .some ⟨processors.parser, processors.gateway, processors.matcher, same⟩

theorem configure (alike : used.Alike located ideal) (numbering : Numbering located)
    {requests requests' : List Request} (same : List.Forall₂ (Request.Alike located) requests requests') :
    Option.Rel (Pipeline.Alike located) (used.configure requests) (ideal.configure requests') :=
  rel_foldlM same (fun _ _ _ _ request pipelines => pipelines.apply numbering request) alike

end Pipeline.Alike

end Ipbm.Dataplane
