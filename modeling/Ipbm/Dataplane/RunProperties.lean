import Ipbm.Dataplane.Pipeline
import Ipbm.Lib.Traversal

/-! Runs of the pipeline over one packet: what every turn leaves alone, and
invariants of the packet bytes and headers along a whole run. -/

set_option autoImplicit false

namespace Ipbm.Dataplane
open Lib

/-! ### Writes to the packet -/

private theorem setAt_front {bytes after : List UInt8} {index : Nat} {byte : UInt8}
    (done : setAt bytes index byte = some after) {other : Nat} (different : other ≠ index) :
    after[other]? = bytes[other]? := by
  obtain ⟨_, rfl⟩ := setAt_eq_some_iff.mp done
  rw [List.getElem?_set_ne (Ne.symm different)]

/-- A field write changes no byte in front of the field. -/
theorem modifyPhvWithData_front {field : FieldInfo} {data : Data} {phv after : Phv}
    (done : modifyPhvWithData field data phv = some after) :
    ∃ header, phv.parsedHeaders[field.hdrId]? = some header ∧ after.parsedHeaders = phv.parsedHeaders ∧
      ∀ index < (header.hdrOffset + field.internalOffset) / 8, after.packet[index]? = phv.packet[index]? := by
  obtain ⟨header, found, done⟩ := Option.bind_eq_some_iff.mp done
  obtain ⟨⟨res, left⟩, _, done⟩ := Option.bind_eq_some_iff.mp done
  obtain ⟨⟨packet, rest⟩, run, done⟩ := Option.bind_eq_some_iff.mp done
  cases done
  refine ⟨header, found, rfl, fun index low => ?_⟩
  refine foldlM_preserves (fun state : List UInt8 × Nat => state.1[index]? = phv.packet[index]?) ?_ run rfl
  rintro ⟨bytes, idx⟩ at_ after listed same step
  have behind : (header.hdrOffset + field.internalOffset) / 8 ≤ at_ :=
    (List.mem_range'_1.mp (List.mem_reverse.mp listed)).1
  cases idx with
  | zero => cases step
  | succ idx =>
      obtain ⟨word, _, step⟩ := Option.bind_eq_some_iff.mp step
      obtain ⟨old, _, step⟩ := Option.bind_eq_some_iff.mp step
      obtain ⟨written, set, step⟩ := Option.bind_eq_some_iff.mp step
      cases step
      exact (setAt_front set (by omega)).trans same

theorem Primitive.modifyFieldWithData_front {field : FieldInfo} {data : Data} {phv after : Phv}
    (done : modifyFieldWithData field data phv = some after) :
    ∃ header, phv.parsedHeaders[field.hdrId]? = some header ∧ after.parsedHeaders = phv.parsedHeaders ∧
      ∀ index < (header.hdrOffset + field.internalOffset) / 8, after.packet[index]? = phv.packet[index]? := by
  obtain ⟨header, found, done⟩ := Option.bind_eq_some_iff.mp done
  simp only at done
  split at done
  · cases done
  · obtain ⟨new, _, done⟩ := Option.bind_eq_some_iff.mp done
    obtain ⟨packet, run, done⟩ := Option.bind_eq_some_iff.mp done
    cases done
    refine ⟨header, found, rfl, fun index low => ?_⟩
    refine foldlM_preserves (fun bytes : List UInt8 => bytes[index]? = phv.packet[index]?) ?_ run rfl
    rintro bytes ⟨span, at_⟩ after _ same step
    obtain ⟨old, _, step⟩ := Option.bind_eq_some_iff.mp step
    exact (setAt_front step (by omega)).trans same

/-! ### One processor -/

/-- Bytes and headers of two vectors are the same. -/
def SamePacket (phv after : Phv) : Prop :=
  after.packet = phv.packet ∧ after.parsedHeaders = phv.parsedHeaders

theorem Gateway.execute_eq {gateway : Gateway} {phv after : Phv} (run : gateway.execute phv = some after) :
    ∃ nextOp, after = { phv with nextOp } := by
  obtain ⟨bits, _, run⟩ := Option.bind_eq_some_iff.mp run
  split at run
  · cases run
    exact ⟨_, rfl⟩
  · obtain ⟨entry, _, run⟩ := Option.bind_eq_some_iff.mp run
    cases run
    exact ⟨_, rfl⟩

theorem Gateway.execute_same {gateway : Gateway} {phv after : Phv} (run : gateway.execute phv = some after) :
    SamePacket phv after := by
  obtain ⟨nextOp, rfl⟩ := execute_eq run
  exact ⟨rfl, rfl⟩

theorem Matcher.execute_eq {memory : Memory} {scratch : Nat → UInt8} {matcher : Matcher} {matcherId : Int}
    {phv after : Phv} (run : matcher.execute memory scratch matcherId phv = some after) :
    ∃ matchValue matchValueLen hit nextActionId,
      after = { phv with matchValue, matchValueLen, hit, nextActionId } := by
  obtain ⟨thread, _, run⟩ := Option.bind_eq_some_iff.mp run
  split at run
  · cases run
    exact ⟨_, _, _, _, rfl⟩
  · obtain ⟨key, _, run⟩ := Option.bind_eq_some_iff.mp run
    obtain ⟨found, _, run⟩ := Option.bind_eq_some_iff.mp run
    cases found with
    | none =>
        cases run
        exact ⟨_, _, _, _, rfl⟩
    | some value =>
        obtain ⟨high, _, run⟩ := Option.bind_eq_some_iff.mp run
        obtain ⟨low, _, run⟩ := Option.bind_eq_some_iff.mp run
        cases run
        exact ⟨_, _, _, _, rfl⟩

theorem Matcher.execute_same {memory : Memory} {scratch : Nat → UInt8} {matcher : Matcher} {matcherId : Int}
    {phv after : Phv} (run : matcher.execute memory scratch matcherId phv = some after) :
    SamePacket phv after := by
  obtain ⟨_, _, _, _, rfl⟩ := execute_eq run
  exact ⟨rfl, rfl⟩

theorem Primitive.run_eq {primitive : Primitive} {paras : List Data} {phv after : Phv}
    (run : primitive.run phv paras = some after) : ∃ packet, after = { phv with packet } := by
  obtain ⟨data, _, run⟩ := Option.bind_eq_some_iff.mp run
  obtain ⟨header, _, run⟩ := Option.bind_eq_some_iff.mp run
  simp only at run
  split at run
  · cases run
  · obtain ⟨new, _, run⟩ := Option.bind_eq_some_iff.mp run
    obtain ⟨packet, _, run⟩ := Option.bind_eq_some_iff.mp run
    cases run
    exact ⟨packet, rfl⟩

theorem Executor.execute_eq {executor : Executor} {phv after : Phv}
    (run : executor.execute phv = some after) :
    ∃ packet, after = { phv with packet } := by
  unfold Executor.execute at run
  split at run
  · cases run
  · obtain ⟨action, _, run⟩ := Option.bind_eq_some_iff.mp run
    obtain ⟨paras, _, run⟩ := Option.bind_eq_some_iff.mp run
    refine foldlM_preserves (fun state : Phv => ∃ packet, state = { phv with packet }) ?_ run
      ⟨phv.packet, rfl⟩
    intro state primitive next _ same step
    obtain ⟨_, rfl⟩ := same
    obtain ⟨packet, rfl⟩ := Primitive.run_eq step
    exact ⟨packet, rfl⟩

/-- A level extracts at most one header, and then goes on or drops the packet. -/
theorem ParserStage.parse_cases {stage : ParserStage} {phv after : Phv} (run : stage.parse phv = some after) :
    ∃ middle, (middle = phv ∨ ∃ index hdrId hdrLen, (stage.actTbl index).hdrId = some hdrId ∧
        middle.packet = phv.packet ∧
        middle.parsedHeaders = phv.parsedHeaders.set hdrId ⟨hdrId, phv.curOffset, hdrLen⟩) ∧
      (SamePacket middle after ∨ drop middle = some after) := by
  unfold parse at run
  split at run
  · split at run
    · exact ⟨phv, .inl rfl, .inr run⟩
    · cases run
      exact ⟨phv, .inl rfl, .inl ⟨rfl, rfl⟩⟩
  · next index _ =>
      obtain ⟨hdrId, isHeader, run⟩ := Option.bind_eq_some_iff.mp run
      obtain ⟨hdrLen, _, run⟩ := Option.bind_eq_some_iff.mp run
      obtain ⟨validBitmap, _, run⟩ := Option.bind_eq_some_iff.mp run
      obtain ⟨parsedHeaders, set, run⟩ := Option.bind_eq_some_iff.mp run
      obtain ⟨curState, _, run⟩ := Option.bind_eq_some_iff.mp run
      obtain ⟨missAct, _, run⟩ := Option.bind_eq_some_iff.mp run
      obtain ⟨_, rfl⟩ := setAt_eq_some_iff.mp set
      refine ⟨{ phv with
        validBitmap, curState, missAct
        parsedHeaders := phv.parsedHeaders.set hdrId ⟨hdrId, phv.curOffset, hdrLen⟩
        curOffset := (phv.curOffset + hdrLen) % 2 ^ 16 }, .inr ⟨index, hdrId, hdrLen, isHeader, rfl, rfl⟩, ?_⟩
      simp only at run
      split at run
      · cases run
        exact .inl ⟨rfl, rfl⟩
      · split at run
        · exact .inr run
        · obtain ⟨transFdNum, _, run⟩ := Option.bind_eq_some_iff.mp run
          split at run
          · obtain ⟨curTransKey, _, run⟩ := Option.bind_eq_some_iff.mp run
            cases run
            exact .inl ⟨rfl, rfl⟩
          · cases run

/-- An invariant of the bytes and headers of a packet that the parser levels and the primitives of
a processor keep. -/
structure Processor.Keeps (invariant : Phv → Prop) (processor : Processor) : Prop where
  packet : ∀ phv after, SamePacket phv after → invariant phv → invariant after
  parse : ∀ stage ∈ processor.parser.parserLevels, ∀ phv after, invariant phv → stage.parse phv = some after →
    invariant after
  primitive : ∀ action, some action ∈ processor.exe →
    ∀ primitive ∈ action.prims, ∀ paras phv after, invariant phv →
    primitive.run phv paras = some after → invariant after

namespace Processor.Keeps

variable {invariant : Phv → Prop} {processor : Processor}

theorem parseLevels (keeps : Keeps invariant processor) {stages : List ParserStage}
    (levels : ∀ stage ∈ stages, stage ∈ processor.parser.parserLevels) {phv after : Phv}
    (holds : invariant phv) (run : Parser.parseLevels stages phv = some after) : invariant after := by
  induction stages generalizing phv with
  | nil =>
      cases run
      exact holds
  | cons stage rest ih =>
      obtain ⟨middle, first, run⟩ := Option.bind_eq_some_iff.mp run
      have held := keeps.parse stage (levels stage List.mem_cons_self) phv middle holds first
      split at run
      · cases run
        exact held
      · exact ih (fun stage member => levels stage (List.mem_cons_of_mem _ member)) held run

theorem parser (keeps : Keeps invariant processor) {phv after : Phv} (holds : invariant phv)
    (run : processor.parser.parse phv = some after) : invariant after := by
  unfold Parser.parse at run
  split at run
  · split at run
    · exact keeps.parseLevels (fun stage member => List.mem_of_mem_take member) holds run
    · obtain ⟨middle, levels, run⟩ := Option.bind_eq_some_iff.mp run
      split at run
      · cases run
        exact keeps.parseLevels (fun stage member => member) holds levels
      · cases run
  · cases run
    exact keeps.packet phv _ ⟨rfl, rfl⟩ holds

theorem executor (keeps : Keeps invariant processor) {phv after : Phv} (holds : invariant phv)
    (run : processor.exe.execute phv = some after) : invariant after := by
  unfold Executor.execute at run
  split at run
  · cases run
  · obtain ⟨action, found, run⟩ := Option.bind_eq_some_iff.mp run
    obtain ⟨paras, _, run⟩ := Option.bind_eq_some_iff.mp run
    have member : some action ∈ processor.exe := List.mem_of_getElem? (Option.join_eq_some_iff.mp found)
    exact foldlM_preserves invariant (fun phv primitive after listed held step =>
      keeps.primitive action member primitive listed paras phv after held step) run holds

theorem processPacket (keeps : Keeps invariant processor) {memory : Memory} {scratch : Nat → UInt8}
    {phv after : Phv} (holds : invariant phv)
    (run : processor.processPacket memory scratch phv = some after) : invariant after := by
  obtain ⟨parsed, parse, run⟩ := Option.bind_eq_some_iff.mp run
  have held := keeps.parser holds parse
  split at run
  · cases run
    exact held
  · obtain ⟨gated, gateway, run⟩ := Option.bind_eq_some_iff.mp run
    have gatedHeld := keeps.packet _ _ (Gateway.execute_same gateway) held
    split at run
    · cases run
      exact keeps.packet gated _ ⟨rfl, rfl⟩ gatedHeld
    · obtain ⟨matched, lookup, run⟩ := Option.bind_eq_some_iff.mp run
      obtain ⟨thread, _, run⟩ := Option.bind_eq_some_iff.mp run
      have matchedHeld := keeps.packet _ _ (Matcher.execute_same lookup) gatedHeld
      refine keeps.executor ?_ run
      exact keeps.packet matched _ ⟨rfl, rfl⟩ matchedHeld

end Processor.Keeps

/-! ### Whole runs -/

theorem Pipeline.proc_mem {pipeline : Pipeline} {procId : Int} {processor : Processor}
    (found : pipeline.proc procId = some processor) : processor ∈ pipeline.procs := by
  unfold Pipeline.proc at found
  split at found
  · cases found
  · exact List.mem_of_getElem? found

/-- What all processors keep holds at the end of every run that ends. -/
theorem Pipeline.execute_keeps {pipeline : Pipeline} {invariant : Phv → Prop}
    (keeps : ∀ processor ∈ pipeline.procs, processor.Keeps invariant)
    {scratch : Nat → Nat → UInt8} {fuel : Nat}
    {phv after : Phv} (holds : invariant phv) (run : pipeline.execute scratch fuel phv = .done after) :
    invariant after := by
  induction fuel generalizing phv with
  | zero =>
      unfold Pipeline.execute at run
      split at run
      · cases run
        exact holds
      · cases run
  | succ fuel ih =>
      unfold Pipeline.execute at run
      split at run
      · cases run
        exact holds
      · simp only at run
        split at run
        · cases run
        · next next_ step =>
            obtain ⟨processor, found, step⟩ := Option.bind_eq_some_iff.mp step
            exact ih ((keeps processor (proc_mem found)).processPacket holds step) run

end Ipbm.Dataplane
