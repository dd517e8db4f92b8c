import Ipbm.Compiler.P4Translation
import Ipbm.Controller.ExtractConfig
import Ipbm.Dataplane.FieldWrites

/-! Packets that are to be dropped. The translator marks them in a field of their
own, the parser of the data plane clears the egress port, and the switch reads the
egress port only. -/

set_option autoImplicit false

namespace Ipbm.System
open Lib Dataplane Compiler Compiler.P4r Controller

/-- A primitive of a P4 action on its way into the data plane. -/
def compilePrimitive (headers : HeaderLookup) (actionDef : ActionDef) (primitive : P4Primitive) :
    Option Primitive := do
  extractPrimitive (← ActionManager.assign headers actionDef primitive.output)

/-- What a run does to standard metadata: a primitive of an action that was called with parameters,
or a parser entry that drops. -/
inductive Event where
  | primitive (actionDef : ActionDef) (paras : List Data) (source : P4Primitive)
  | parserDrop

namespace Event

def run (headers : HeaderLookup) (phv : Phv) : Event → Option Phv
  | .primitive actionDef paras source => do (← compilePrimitive headers actionDef source).run phv paras
  | .parserDrop => ParserStage.drop phv

def marks : Event → Bool
  | .primitive _ _ .markToDrop | .parserDrop => true
  | .primitive _ _ (.assign _ _) => false

/-- The operations that decide over a drop. -/
def touches : Event → Bool
  | .primitive _ _ .markToDrop | .parserDrop => true
  | .primitive _ _ (.assign field _) => field = .egressSpec || field = .drop

/-- A value for `egress_port`, whose first byte is the last of `egress_spec`, has no more than its
nine bits. -/
def Fits (headers : HeaderLookup) (phv : Phv) : Event → Prop
  | .primitive actionDef paras (.assign .egressPort value) => ∀ compiled data new,
      compilePrimitive headers actionDef (.assign .egressPort value) = some compiled →
      Primitive.execute phv paras compiled.root = some data → Primitive.newData data 2 = some new →
        beVal new < 2 ^ 9
  | _ => True

end Event

def runEvents (headers : HeaderLookup) (phv : Phv) (events : List Event) : Option Phv :=
  events.foldlM (Event.run headers) phv

/-- Every event fits in the state it is run in. -/
def FitsRun (headers : HeaderLookup) : Phv → List Event → Prop
  | _, [] => True
  | phv, event ::
    rest => event.Fits headers phv ∧ ∀ next, event.run headers phv = some next → FitsRun headers next rest

/-- The egress port names none of the first interfaces. -/
def NamesNone (count : Nat) (phv : Phv) : Prop :=
  ∀ port, getFieldValue egressPort phv = some port → ∀ ifIdx < count, (port >>> ifIdx) % 2 ≠ 1

/-- The switch sends the packet on no interface. -/
def Silent (ifMacs : List (List UInt8)) (frame : List UInt8) (phv : Phv) : Prop :=
  ∀ copies, emit ifMacs frame phv = some copies → copies = []

/-! ### Emission -/

private theorem emitFrom_nil_iff {ifMacs : List (List UInt8)} {outPort : Nat} {packet : List UInt8}
    {indices : List Nat} {buffer : List UInt8} :
    emitFrom ifMacs outPort packet indices buffer = [] ↔ ∀ ifIdx ∈ indices, (outPort >>> ifIdx) % 2 ≠ 1 := by
  induction indices generalizing buffer with
  | nil => simp [emitFrom]
  | cons ifIdx rest ih =>
      unfold emitFrom
      split
      · next named => simp [named]
      · next unnamed =>
          rw [ih, List.forall_mem_cons]
          exact (and_iff_right unnamed).symm

private theorem silent_iff {ifMacs : List (List UInt8)} {frame : List UInt8} {phv : Phv} :
    Silent ifMacs frame phv ↔ NamesNone ifMacs.length phv := by
  constructor
  · intro silent port read ifIdx low
    have sent : emit ifMacs frame phv = some (emitFrom ifMacs port phv.packet
        (List.range ifMacs.length) frame) := by
      rw [emit, read]
      rfl
    exact emitFrom_nil_iff.mp (silent _ sent) ifIdx (List.mem_range.mpr low)
  · intro none copies sent
    obtain ⟨port, read, sent⟩ := Option.bind_eq_some_iff.mp sent
    cases sent
    exact emitFrom_nil_iff.mpr fun ifIdx member => none port read ifIdx (List.mem_range.mp member)

/-! ### Steps -/

section

variable {headerDefs : List HeaderDef} {structDefs : List StructDef}

/-- The headers of a translated program. -/
def translatedHeaders (headerDefs : List HeaderDef) (structDefs : List StructDef) : HeaderLookup :=
  (HeaderManager.load headerDefs (structDefs ++ [standardMetadata])).lookup

private theorem compiled_assign
    (own : (HeaderManager.load headerDefs structDefs).headers.find "standard_metadata" = none)
    {actionDef : ActionDef} {field : StandardField} {value : Operation} {primitive : Primitive}
    (done : compilePrimitive (translatedHeaders headerDefs structDefs) actionDef
      (.assign field value) = some primitive) :
    primitive.lvalue = sentField field.info := by
  obtain ⟨assign, made, done⟩ := Option.bind_eq_some_iff.mp done
  obtain ⟨rvalue, _, made⟩ := Option.bind_eq_some_iff.mp made
  cases made
  have found : translatedHeaders headerDefs structDefs (.member "standard_metadata" field.name) =
      some field.info :=
    lookup_standard own field
  simp only [extractPrimitive, P4Primitive.output, found, Option.map_some, Option.bind_eq_bind,
    Option.bind_some] at done
  obtain ⟨root, _, done⟩ := Option.bind_eq_some_iff.mp done
  cases done
  rfl

private theorem compiled_literal
    (own : (HeaderManager.load headerDefs structDefs).headers.find "standard_metadata" = none)
    (actionDef : ActionDef) (field : StandardField) (value : Int) :
    compilePrimitive (translatedHeaders headerDefs structDefs) actionDef (.assign field (.literal value)) =
      some ⟨sentField field.info, .node (.constant ⟨32, getUints (wrap 32 value) 32⟩) .nil .nil⟩ := by
  have found : translatedHeaders headerDefs structDefs (.member "standard_metadata" field.name) =
      some field.info :=
    lookup_standard own field
  simp [compilePrimitive, ActionManager.assign, P4Primitive.output, parseExpr, extractPrimitive,
    found, buildExpTree]

private theorem assign_keeps
    (own : (HeaderManager.load headerDefs structDefs).headers.find "standard_metadata" = none)
    {actionDef : ActionDef} {paras : List Data} {field : StandardField} {value : Operation} {phv next : Phv}
    (run : (Event.primitive actionDef paras (.assign field value)).run
      (translatedHeaders headerDefs structDefs) phv = some next)
    (other : field ≠ .egressSpec)
    (fits : (Event.primitive actionDef paras (.assign field value)).Fits
      (translatedHeaders headerDefs structDefs) phv)
    {header : HeaderInfo} {base : Nat} (found : phv.parsedHeaders[31]? = some header)
    (aligned : header.hdrOffset = 8 * base) :
    next.parsedHeaders = phv.parsedHeaders ∧
      getFieldValue egressPort next = getFieldValue egressPort phv := by
  obtain ⟨primitive, compiled, run⟩ := Option.bind_eq_some_iff.mp run
  obtain ⟨data, evaluated, run⟩ := Option.bind_eq_some_iff.mp run
  have lvalue := compiled_assign own compiled
  rw [lvalue] at run
  cases field with
  | egressSpec => exact absurd rfl other
  | ingressPort => exact Primitive.port_ingressPort run found aligned
  | egressPort =>
      exact Primitive.port_egressPort run (fun new =>
        fits primitive data new compiled evaluated) found aligned
  | cloneSpec => exact Primitive.port_behind run rfl (by decide) found aligned
  | instanceType => exact Primitive.port_behind run rfl (by decide) found aligned
  | drop => exact Primitive.port_behind run rfl (by decide) found aligned
  | recirculatePort => exact Primitive.port_behind run rfl (by decide) found aligned
  | packetLength => exact Primitive.port_behind run rfl (by decide) found aligned

private theorem run_headers {headers : HeaderLookup} {phv next : Phv} {event : Event}
    (run : event.run headers phv = some next) : next.parsedHeaders = phv.parsedHeaders := by
  cases event with
  | primitive actionDef paras source =>
      obtain ⟨primitive, _, run⟩ := Option.bind_eq_some_iff.mp run
      obtain ⟨data, _, run⟩ := Option.bind_eq_some_iff.mp run
      obtain ⟨_, _, same, _⟩ := Primitive.modifyFieldWithData_front run
      exact same
  | parserDrop =>
      obtain ⟨_, _, same, _⟩ := modifyPhvWithData_front run
      exact same

/-! ### Runs -/

private theorem runEvents_headers {headers : HeaderLookup} {phv after : Phv} {events : List Event}
    (run : runEvents headers phv events = some after) : after.parsedHeaders = phv.parsedHeaders :=
  foldlM_preserves (fun state => state.parsedHeaders = phv.parsedHeaders)
    (fun _ _ _ _ same step => (run_headers step).trans same) run rfl

private theorem runEvents_keeps
    (own : (HeaderManager.load headerDefs structDefs).headers.find "standard_metadata" = none)
    {events : List Event} {phv after : Phv}
    (run : runEvents (translatedHeaders headerDefs structDefs) phv events = some after)
    (untouched : ∀ event ∈ events, event.touches = false)
    (fits : FitsRun (translatedHeaders headerDefs structDefs) phv events)
    {header : HeaderInfo} {base : Nat} (found : phv.parsedHeaders[31]? = some header)
    (aligned : header.hdrOffset = 8 * base) :
    getFieldValue egressPort after = getFieldValue egressPort phv := by
  induction events generalizing phv with
  | nil =>
      cases run
      rfl
  | cons event rest ih =>
      rw [runEvents, List.foldlM_cons] at run
      obtain ⟨next, step, run⟩ := Option.bind_eq_some_iff.mp run
      have first : next.parsedHeaders = phv.parsedHeaders ∧
          getFieldValue egressPort next = getFieldValue egressPort phv := by
        have here := untouched event List.mem_cons_self
        match event with
        | .primitive actionDef paras (.assign field value) =>
            have other : field ≠ .egressSpec := by
              rintro rfl
              cases here
            exact assign_keeps own step other fits.1 found aligned
        | .primitive _ _ .markToDrop => cases here
        | .parserDrop => cases here
      have later :=
        ih run (fun event member => untouched event (List.mem_cons_of_mem _ member)) (fits.2 next step)
        (first.1 ▸ found)
      exact later.trans first.2

private theorem initPhv_aligned {pipeline : Pipeline} {frame : List UInt8} {ifIndex : Nat} {phv : Phv}
    (init : initPhv pipeline frame ifIndex = some phv) :
    ∃ header base, phv.parsedHeaders[31]? = some header ∧ header.hdrOffset = 8 * base := by
  obtain ⟨packet, _, init⟩ := Option.bind_eq_some_iff.mp init
  obtain ⟨parsedHeaders, headers, init⟩ := Option.bind_eq_some_iff.mp init
  obtain ⟨header, found, same, _⟩ := modifyPhvWithData_front init
  have all : ∀ header ∈ parsedHeaders, 8 ∣ header.hdrOffset := by
    refine foldlM_preserves (fun headers : List HeaderInfo =>
      ∀ header ∈ headers, 8 ∣ header.hdrOffset) ?_ headers ?_
    · intro headers info after _ old step header member
      obtain ⟨_, rfl⟩ := setAt_eq_some_iff.mp step
      rcases List.mem_or_eq_of_mem_set member with before | rfl
      · exact old header before
      · simp only [metaHeader, frontHeaderLen]
        omega
    · intro header member
      rw [(List.mem_replicate.mp member).2]
      exact Nat.dvd_zero 8
  obtain ⟨base, offset⟩ := all header (List.mem_of_getElem? found)
  exact ⟨header, base, same ▸ found, offset⟩

private theorem dropped_namesNone_iff
    (own : (HeaderManager.load headerDefs structDefs).headers.find "standard_metadata" = none) {mark : Event}
    {rest : List Event} {before marked after : Phv} (marks : mark.marks)
    (step : mark.run (translatedHeaders headerDefs structDefs) before = some marked)
    (run : runEvents (translatedHeaders headerDefs structDefs) marked rest = some after)
    (untouched : ∀ event ∈ rest, event.touches = false)
    (fits : FitsRun (translatedHeaders headerDefs structDefs) marked rest)
    {header : HeaderInfo} {base : Nat} (found : before.parsedHeaders[31]? = some header)
    (aligned : header.hdrOffset = 8 * base) (count : Nat) :
    NamesNone count after ↔ mark = .parserDrop ∨ NamesNone count before := by
  have kept := runEvents_keeps own run untouched fits (run_headers step ▸ found) aligned
  match mark with
  | .parserDrop =>
      have zero := (port_drop step found aligned).2
      refine iff_of_true ?_ (.inl rfl)
      intro port read ifIdx _
      rw [kept] at read
      rw [zero port read, Nat.zero_shiftRight]
      decide
  | .primitive actionDef paras .markToDrop =>
      have assigned : (Event.primitive actionDef paras (.assign .drop (.literal 1))).run
          (translatedHeaders headerDefs structDefs) before = some marked := step
      have same := (assign_keeps own assigned StandardField.noConfusion trivial found aligned).2
      rw [NamesNone, NamesNone, kept, same]
      simp
  | .primitive _ _ (.assign _ _) => cases marks

/-- A packet that was marked last to be dropped is sent on no interface exactly if the parser
dropped it or `egress_spec` named none when `mark_to_drop` was called. -/
theorem dropped_silent_iff
    (own : (HeaderManager.load headerDefs structDefs).headers.find "standard_metadata" = none)
    {pipeline : Pipeline} {frame : List UInt8} {ifIndex : Nat} {front rest : List Event}
    {mark : Event} {start before marked after : Phv}
    (init : initPhv pipeline frame ifIndex = some start)
    (reached : runEvents (translatedHeaders headerDefs structDefs) start front = some before)
    (marks : mark.marks) (step : mark.run (translatedHeaders headerDefs structDefs) before = some marked)
    (run : runEvents (translatedHeaders headerDefs structDefs) marked rest = some after)
    (untouched : ∀ event ∈ rest, event.touches = false)
    (fits : FitsRun (translatedHeaders headerDefs structDefs) marked rest) (ifMacs : List (List UInt8)) :
    Silent ifMacs frame after ↔ mark = .parserDrop ∨ NamesNone ifMacs.length before := by
  obtain ⟨header, base, found, aligned⟩ := initPhv_aligned init
  rw [silent_iff]
  exact dropped_namesNone_iff own marks step run untouched fits (runEvents_headers reached ▸ found) aligned _

end

/-- Standard metadata as every translated program configures it. -/
def standardPipeline : Pipeline := Pipeline.fresh.setMetadata [{ hdrId := 31, hdrOffset := 0, hdrLen := 20 }]

def droppedFrame : List UInt8 := List.replicate 60 1

def dropAction : ActionDef := ⟨"drop", [], []⟩

def receivedPhv : Phv := (initPhv standardPipeline droppedFrame 0).get (by decide +kernel)

/-- The packet after an assignment of a literal. -/
def assigned (field : StandardField) (value : Int) (phv : Phv) : Option Phv :=
  Primitive.run phv [] ⟨sentField field.info, .node (.constant ⟨32, getUints (wrap 32 value) 32⟩) .nil .nil⟩

private theorem run_literal (field : StandardField) (value : Int) (phv : Phv) :
    (Event.primitive dropAction [] (.assign field (.literal value))).run (translatedHeaders [] []) phv =
      assigned field value phv := by
  rw [Event.run, compiled_literal rfl]
  rfl

/-- The packet that is given to interface 1 and marked, and gets an egress port behind the mark. -/
def droppedPhv : Phv :=
  (((assigned .egressSpec 2 receivedPhv).bind (assigned .drop 1)).bind (assigned .egressPort 1)).get
    (by decide +kernel)

/-- A switch with interface 0 only does not send it. -/
theorem dropped_silent_received : Silent [zeroMac] droppedFrame droppedPhv := by
  have init : initPhv standardPipeline droppedFrame 0 = some receivedPhv := (Option.some_get _).symm
  have all : ((assigned .egressSpec 2 receivedPhv).bind (assigned .drop 1)).bind (assigned .egressPort 1) =
      some droppedPhv := (Option.some_get _).symm
  obtain ⟨marked, first, last⟩ := Option.bind_eq_some_iff.mp all
  obtain ⟨before, given, mark⟩ := Option.bind_eq_some_iff.mp first
  have step : (Event.primitive dropAction [] .markToDrop).run
      (translatedHeaders [] []) before = some marked :=
    (run_literal .drop 1 before).trans mark
  have reached : runEvents (translatedHeaders [] []) receivedPhv
      [.primitive dropAction [] (.assign .egressSpec (.literal 2))] = some before := by
    rw [runEvents, List.foldlM_cons, run_literal, given]
    rfl
  have run : runEvents (translatedHeaders [] []) marked [.primitive dropAction []
    (.assign .egressPort (.literal 1))] =
      some droppedPhv := by
    rw [runEvents, List.foldlM_cons, run_literal, last]
    rfl
  have none : NamesNone 1 before := by
    have port : (assigned .egressSpec 2 receivedPhv).bind (getFieldValue egressPort) =
      some 2 := by decide +kernel
    rw [given, Option.bind_some] at port
    intro other read ifIdx low
    cases port.symm.trans read
    rw [Nat.lt_one_iff.mp low]
    decide
  have fits : FitsRun (translatedHeaders [] []) marked [.primitive dropAction []
      (.assign .egressPort (.literal 1))] := by
    refine ⟨fun compiled data new isCompiled evaluated isNew => ?_, fun _ _ => trivial⟩
    rw [compiled_literal rfl] at isCompiled
    cases isCompiled
    cases evaluated
    cases isNew
    decide
  exact (@dropped_silent_iff [] [] rfl _ _ _ _ _ _ _ _ _ _ init reached rfl step run
    (by simp [Event.touches]) fits [zeroMac]).mpr (.inr none)

def sentPhv : Phv := ((assigned .egressSpec 1 receivedPhv).bind (assigned .drop 1)).get (by decide +kernel)

/-- The packet is given to interface 0, then marked to be dropped, and sent. -/
theorem dropped_sent :
    initPhv standardPipeline droppedFrame 0 = some receivedPhv ∧
      runEvents (translatedHeaders [] []) receivedPhv [.primitive dropAction []
        (.assign .egressSpec (.literal 1)), .primitive dropAction [] .markToDrop] = some sentPhv ∧
      ¬Silent [zeroMac] droppedFrame sentPhv := by
  refine ⟨(Option.some_get _).symm, ?_, ?_⟩
  · rw [runEvents, List.foldlM_cons, run_literal]
    have both : (assigned .egressSpec 1 receivedPhv).bind (assigned .drop 1) = some sentPhv :=
      (Option.some_get _).symm
    obtain ⟨middle, first, second⟩ := Option.bind_eq_some_iff.mp both
    rw [first, Option.bind_eq_bind, Option.bind_some, List.foldlM_cons]
    change ((Event.primitive dropAction [] (.assign .drop (.literal 1))).run _ middle).bind _ = _
    rw [run_literal, second]
    rfl
  · rw [silent_iff]
    intro none
    have port : getFieldValue egressPort sentPhv = some 1 := by decide +kernel
    exact none 1 port 0 (by decide) rfl

end Ipbm.System
