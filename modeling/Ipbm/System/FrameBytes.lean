import Ipbm.Dataplane.RunProperties
import Ipbm.Dataplane.Switch

/-! The bytes of a frame on their way through the switch. Frame and metadata share
one array, with the metadata from byte 1500 on. -/

set_option autoImplicit false

namespace Ipbm.System
open Lib Dataplane

/-- The headers of metadata: standard metadata, which the switch itself writes to, and those of
the configuration. -/
def metaIds (pipeline : Pipeline) : List Nat := 31 :: pipeline.metaInfos.map HeaderInfo.hdrId

/-- The bit a metadata header starts at; the last entry of an id counts. -/
def metaStart (pipeline : Pipeline) (id : Nat) : Nat :=
  (((pipeline.metaInfos.filter fun header => header.hdrId = id).getLast?).map
    fun header => (metaHeader header).hdrOffset).getD 0

/-- A configuration whose actions assign metadata only, and whose parsers extract headers only. -/
structure AssignsMetadata (pipeline : Pipeline) : Prop where
  ids : ∀ header ∈ pipeline.metaInfos, header.hdrId < 32
  parsers : ∀ processor ∈ pipeline.procs, ∀ stage ∈ processor.parser.parserLevels, ∀ index id,
    (stage.actTbl index).hdrId = some id → id ∉ metaIds pipeline
  actions : ∀ processor ∈ pipeline.procs, ∀ action, some action ∈ processor.exe → ∀ primitive ∈ action.prims,
    primitive.lvalue.hdrId ∈ metaIds pipeline

/-- A copy of a frame with another source address. -/
def CopyOf (frame sent : List UInt8) : Prop :=
  sent.length = frame.length ∧ ∀ index, index < 6 ∨ 12 ≤ index → sent[index]? = frame[index]?

/-- The frame fits the packet array in front of all metadata, and every copy that leaves the
switch is the frame but for the source address. -/
structure Survives (pipeline : Pipeline) (ifIndex : Nat) (frame : List UInt8) : Prop where
  fits : frame.length ≤ frontHeaderLen + metaLen
  area : frame.length ≤ frontHeaderLen
  apart : ∀ parsedHeaders, pipeline.metaInfos.foldlM setMetaHeader Phv.fresh.parsedHeaders =
    some parsedHeaders →
    ∀ id ∈ metaIds pipeline, ∀ header ∈ parsedHeaders[id]?, 8 * frame.length ≤ header.hdrOffset
  copies : ∀ scratch ifMacs fuel copies, forward pipeline scratch ifMacs fuel frame ifIndex = some copies →
    ∀ copy ∈ copies, CopyOf frame copy.2

/-! ### Metadata headers -/

private theorem setMetaHeaders_offset {metaInfos : List HeaderInfo} {headers after : List HeaderInfo}
    (run : metaInfos.foldlM setMetaHeader headers = some after) {id : Nat} (inside : id < headers.length) :
    ∃ header, after[id]? = some header ∧
      header.hdrOffset = (((metaInfos.filter fun header => header.hdrId = id).getLast?).map
        fun header => (metaHeader header).hdrOffset).getD (headers[id].hdrOffset) := by
  induction metaInfos generalizing headers with
  | nil =>
      cases run
      exact ⟨_, List.getElem?_eq_getElem inside, rfl⟩
  | cons info rest ih =>
      rw [List.foldlM_cons] at run
      obtain ⟨middle, step, run⟩ := Option.bind_eq_some_iff.mp run
      obtain ⟨bound, rfl⟩ := setAt_eq_some_iff.mp step
      obtain ⟨header, found, offset⟩ := ih run (by simpa using inside)
      refine ⟨header, found, offset.trans ?_⟩
      by_cases here : info.hdrId = id
      · subst here
        simp only [List.getElem_set_self, List.filter_cons, decide_true, if_true]
        cases rest.filter fun header => decide (header.hdrId = info.hdrId) with
        | nil => rfl
        | cons first others =>
            obtain ⟨last, isLast⟩ := Option.isSome_iff_exists.mp
              (List.getLast?_isSome.mpr (List.cons_ne_nil first others))
            simp only [List.getLast?_cons_cons, isLast, Option.map_some, Option.getD_some]
      · simp [here, List.getElem_set_ne]

private theorem setMetaHeaders_runs {metaInfos : List HeaderInfo} {headers : List HeaderInfo}
    (ids : ∀ header ∈ metaInfos, header.hdrId < headers.length) :
    ∃ after, metaInfos.foldlM setMetaHeader headers = some after := by
  induction metaInfos generalizing headers with
  | nil => exact ⟨headers, rfl⟩
  | cons info rest ih =>
      have step : setMetaHeader headers info = some (headers.set info.hdrId (metaHeader info)) :=
        setAt_eq_some_iff.mpr ⟨ids info List.mem_cons_self, rfl⟩
      have later : ∀ header ∈ rest, header.hdrId < (headers.set info.hdrId (metaHeader info)).length := by
        rw [List.length_set]
        exact fun header member => ids header (List.mem_cons_of_mem _ member)
      obtain ⟨after, run⟩ := ih later
      exact ⟨after, by rw [List.foldlM_cons, step]; exact run⟩

private theorem metaHeader_start {pipeline : Pipeline}
    (ids : ∀ header ∈ pipeline.metaInfos, header.hdrId < 32) {parsedHeaders : List HeaderInfo}
    (run : pipeline.metaInfos.foldlM setMetaHeader Phv.fresh.parsedHeaders = some parsedHeaders) {id : Nat}
    (member : id ∈ metaIds pipeline) :
    ∃ header, parsedHeaders[id]? = some header ∧ header.hdrOffset = metaStart pipeline id := by
  have small : id < 32 := by
    rcases List.mem_cons.mp member with rfl | listed
    · omega
    · obtain ⟨header, isHeader, rfl⟩ := List.mem_map.mp listed
      exact ids header isHeader
  have inside : id < Phv.fresh.parsedHeaders.length := by
    rw [Phv.fresh, List.length_replicate]
    exact small
  obtain ⟨header, found, offset⟩ := setMetaHeaders_offset run inside
  have fresh : Phv.fresh.parsedHeaders[id].hdrOffset = 0 := by
    simp only [Phv.fresh, List.getElem_replicate]
  rw [fresh] at offset
  exact ⟨header, found, offset⟩

/-! ### Invariant of a run -/

/-- The bytes of the frame are where they were copied, and metadata lies behind them. -/
structure Intact (ids : List Nat) (frame : List UInt8) (phv : Phv) : Prop where
  bytes : ∀ index < frame.length, phv.packet[index]? = frame[index]?
  headers : ∀ id ∈ ids, ∃ header, phv.parsedHeaders[id]? = some header ∧ 8 * frame.length ≤ header.hdrOffset

namespace Intact

variable {ids : List Nat} {frame : List UInt8} {phv after : Phv}

private theorem write (intact : Intact ids frame phv) {field : FieldInfo} (member : field.hdrId ∈ ids)
    (front : ∃ header, phv.parsedHeaders[field.hdrId]? = some header ∧
      after.parsedHeaders = phv.parsedHeaders ∧
      ∀ index < (header.hdrOffset + field.internalOffset) / 8, after.packet[index]? = phv.packet[index]?) :
    Intact ids frame after := by
  obtain ⟨header, found, same, kept⟩ := front
  obtain ⟨other, isOther, behind⟩ := intact.headers field.hdrId member
  cases found.symm.trans isOther
  constructor
  · intro index low
    rw [kept index (by omega), intact.bytes index low]
  · rw [same]
    exact intact.headers

private theorem drop (intact : Intact ids frame phv) (standard : 31 ∈ ids)
    (run : ParserStage.drop phv = some after) : Intact ids frame after := by
  have here : Intact ids frame { phv with nextProcId := -1 } := ⟨intact.bytes, intact.headers⟩
  exact here.write standard (modifyPhvWithData_front run)

private theorem parse (intact : Intact ids frame phv) (standard : 31 ∈ ids) {stage : ParserStage}
    (headers : ∀ index id, (stage.actTbl index).hdrId = some id → id ∉ ids)
    (run : stage.parse phv = some after) : Intact ids frame after := by
  obtain ⟨middle, extracted, ending⟩ := ParserStage.parse_cases run
  have held : Intact ids frame middle := by
    rcases extracted with rfl | ⟨index, hdrId, hdrLen, isHeader, bytes, set⟩
    · exact intact
    · refine ⟨bytes ▸ intact.bytes, fun id member => ?_⟩
      have other : hdrId ≠ id := by
        rintro rfl
        exact headers index hdrId isHeader member
      rw [set, List.getElem?_set_ne other]
      exact intact.headers id member
  rcases ending with ⟨bytes, sameHeaders⟩ | dropped
  · exact ⟨bytes ▸ held.bytes, sameHeaders ▸ held.headers⟩
  · exact held.drop standard dropped

end Intact

private theorem keeps_intact {pipeline : Pipeline} (assigns : AssignsMetadata pipeline) (frame : List UInt8)
    {processor : Dataplane.Processor} (member : processor ∈ pipeline.procs) :
    processor.Keeps (Intact (metaIds pipeline) frame) where
  packet := by
    rintro phv after ⟨bytes, headers⟩ intact
    exact ⟨bytes ▸ intact.bytes, headers ▸ intact.headers⟩
  parse := by
    intro stage isStage phv after intact run
    exact intact.parse List.mem_cons_self (assigns.parsers processor member stage isStage) run
  primitive := by
    intro action isAction primitive listed paras phv after intact run
    obtain ⟨data, _, run⟩ := Option.bind_eq_some_iff.mp run
    exact intact.write (assigns.actions processor member action isAction primitive listed)
      (Primitive.modifyFieldWithData_front run)

/-! ### Both ends -/

private theorem initPhv_intact {pipeline : Pipeline} {frame : List UInt8}
    (short : frame.length ≤ frontHeaderLen)
    (behind : ∀ id ∈ metaIds pipeline, 8 * frame.length ≤ metaStart pipeline id)
    (ids : ∀ header ∈ pipeline.metaInfos, header.hdrId < 32) {ifIndex : Nat} {phv : Phv}
    (run : initPhv pipeline frame ifIndex = some phv) : Intact (metaIds pipeline) frame phv := by
  obtain ⟨packet, loaded, run⟩ := Option.bind_eq_some_iff.mp run
  obtain ⟨parsedHeaders, headers, run⟩ := Option.bind_eq_some_iff.mp run
  rw [loadPacket, if_pos (by omega)] at loaded
  cases loaded
  have start : Intact (metaIds pipeline) frame { Phv.fresh with
      packet := frame.take frontHeaderLen ++ List.replicate
        (frontHeaderLen + metaLen - min frame.length frontHeaderLen) 0
      parsedHeaders } := by
    constructor
    · intro index low
      rw [List.take_of_length_le short, List.getElem?_append_left low]
    · intro id member
      obtain ⟨header, found, offset⟩ := metaHeader_start ids headers member
      exact ⟨header, found, offset ▸ behind id member⟩
  exact start.write List.mem_cons_self (modifyPhvWithData_front run)

private theorem setSourceMac_copy {frame packet : List UInt8}
    (bytes : ∀ index < frame.length, packet[index]? = frame[index]?) (mac : List UInt8) :
    CopyOf frame (setSourceMac mac (packet.take frame.length)) := by
  have long : frame.length ≤ packet.length := by
    by_contra short
    have last := bytes packet.length (by omega)
    rw [List.getElem?_eq_none le_rfl, List.getElem?_eq_getElem (by omega)] at last
    cases last
  constructor
  · rw [setSourceMac, List.length_mapIdx, List.length_take, Nat.min_eq_left long]
  · intro index outside
    have keep : ¬(6 ≤ index ∧ index < 12) := by omega
    rw [setSourceMac, List.getElem?_mapIdx]
    simp only [if_neg keep, Option.map_id']
    by_cases low : index < frame.length
    · rw [List.getElem?_take_of_lt low, bytes index low]
    · rw [List.getElem?_take_eq_none (by omega), List.getElem?_eq_none (by omega)]

private theorem emitFrom_copies {frame packet : List UInt8}
    (bytes : ∀ index < frame.length, packet[index]? = frame[index]?) {ifMacs : List (List UInt8)}
    {outPort : Nat} (indices : List Nat) {buffer : List UInt8} (isCopy : CopyOf frame buffer) :
    ∀ copy ∈ emitFrom ifMacs outPort packet indices buffer, CopyOf frame copy.2 := by
  induction indices generalizing buffer with
  | nil => simp [emitFrom]
  | cons ifIdx rest ih =>
      unfold emitFrom
      split
      · intro copy member
        have sent : CopyOf frame (if ifMacs.getD ifIdx zeroMac = zeroMac then buffer
            else setSourceMac (ifMacs.getD ifIdx zeroMac) (packet.take buffer.length)) := by
          split
          · exact isCopy
          · rw [isCopy.1]
            exact setSourceMac_copy bytes _
        rcases List.mem_cons.mp member with rfl | later
        · exact sent
        · exact ih sent copy later
      · exact ih isCopy

private theorem forward_copies {pipeline : Pipeline} (assigns : AssignsMetadata pipeline) {frame : List UInt8}
    (short : frame.length ≤ frontHeaderLen)
    (behind : ∀ id ∈ metaIds pipeline, 8 * frame.length ≤ metaStart pipeline id) {scratch : Nat → Nat → UInt8}
    {ifMacs : List (List UInt8)} {fuel ifIndex : Nat} {copies : List (Nat × List UInt8)}
    (run : forward pipeline scratch ifMacs fuel frame ifIndex = some copies) :
    ∀ copy ∈ copies, CopyOf frame copy.2 := by
  obtain ⟨phv, init, run⟩ := Option.bind_eq_some_iff.mp run
  split at run
  · next after ended =>
      have intact := Pipeline.execute_keeps (fun processor member => keeps_intact assigns frame member)
        (initPhv_intact short behind assigns.ids init) ended
      obtain ⟨outPort, _, run⟩ := Option.bind_eq_some_iff.mp run
      cases run
      exact emitFrom_copies intact.bytes _ ⟨rfl, fun _ _ => rfl⟩
  · cases run
  · cases run

/-- A frame survives a configuration that assigns metadata only exactly if it ends in front of
byte 1500 and of every metadata header. -/
theorem survives_iff {pipeline : Pipeline} (assigns : AssignsMetadata pipeline) (ifIndex : Nat)
    (frame : List UInt8) :
    Survives pipeline ifIndex frame ↔
      frame.length ≤ frontHeaderLen ∧ ∀ id ∈ metaIds pipeline, 8 * frame.length ≤ metaStart pipeline id := by
  constructor
  · intro survives
    refine ⟨survives.area, fun id member => ?_⟩
    obtain ⟨parsedHeaders, run⟩ := @setMetaHeaders_runs pipeline.metaInfos Phv.fresh.parsedHeaders
      (by simpa [Phv.fresh] using assigns.ids)
    obtain ⟨header, found, offset⟩ := metaHeader_start assigns.ids run member
    exact offset ▸ survives.apart parsedHeaders run id member header found
  · rintro ⟨short, behind⟩
    refine ⟨by omega, short, ?_, fun _ _ _ _ run => forward_copies assigns short behind run⟩
    intro parsedHeaders run id member header found
    obtain ⟨other, isOther, offset⟩ := metaHeader_start assigns.ids run member
    cases found.symm.trans isOther
    exact offset ▸ behind id member

/-- Standard metadata as it is configured, and an action that sends a packet to the first
interface. -/
def portRequests : List Request := [
  .setMetadata [{ hdrId := 31, hdrOffset := 0, hdrLen := 20 }],
  .insertAction 0 0 ⟨[⟨egressPort, .node (.constant ⟨9, [0, 1]⟩) .nil .nil⟩], 0, []⟩]

def portPipeline : Pipeline := (Pipeline.fresh.configure portRequests).get (by decide)

private theorem portPipeline_assigns : AssignsMetadata portPipeline := by
  have parsers : ∀ processor ∈ portPipeline.procs, ∀ stage ∈ processor.parser.parserLevels, stage = {} := by
    have procs : portPipeline.procs.map Processor.parser = List.replicate 12 .fresh := rfl
    intro processor member stage listed
    have fresh := List.mem_map_of_mem (f := Processor.parser) member
    rw [procs] at fresh
    rw [(List.mem_replicate.mp fresh).2] at listed
    exact (List.mem_replicate.mp listed).2
  have actions : ∀ processor ∈ portPipeline.procs, ∀ slot ∈ processor.exe, ∀ action ∈ slot,
      ∀ primitive ∈ action.prims, primitive.lvalue.hdrId ∈ metaIds portPipeline := by decide
  refine ⟨by decide, ?_, fun processor member action listed => actions processor member _ listed action rfl⟩
  intro processor member stage listed index id extracts
  rw [parsers processor member stage listed] at extracts
  cases extracts

theorem survives_port : Survives portPipeline 0 (List.replicate 60 1) :=
  (survives_iff portPipeline_assigns 0 (List.replicate 60 1)).mpr (by decide)

private theorem loadPacket_behind {frame : List UInt8} (low : frontHeaderLen ≤ frame.length)
    (high : frame.length ≤ frontHeaderLen + metaLen) :
    ∃ packet, loadPacket frame = some packet ∧ packet[frontHeaderLen]? = some 0 := by
  have front : (frame.take frontHeaderLen).length = frontHeaderLen := by
    rw [List.length_take, Nat.min_eq_left low]
  refine ⟨_, if_pos high, ?_⟩
  rw [List.getElem?_append_right front.le, front, Nat.sub_self, Nat.min_eq_right low, Nat.add_sub_cancel_left]
  rfl

/-- A full Ethernet frame reaches into the metadata, and its last bytes are cleared. -/
theorem not_survives_long :
    AssignsMetadata portPipeline ∧ ¬Survives portPipeline 0 (List.replicate 1514 1) ∧
      ∃ packet, loadPacket (List.replicate 1514 1) = some packet ∧ packet[frontHeaderLen]? = some 0 := by
  refine ⟨portPipeline_assigns, fun survives => ?_, ?_⟩
  · have short := survives.area
    rw [List.length_replicate] at short
    exact absurd short (by decide)
  · exact loadPacket_behind (by rw [List.length_replicate]; decide) (by rw [List.length_replicate]; decide)

end Ipbm.System
