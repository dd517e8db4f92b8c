import Ipbm.Controller.ExtractConfig

/-! Parser entries on their way from the document to the data plane. The header
length passes through a byte, and the transition fields of an entry are sent
through pointers to one variable. -/

set_option autoImplicit false

namespace Ipbm.System
open Dataplane Compiler Controller

/-- The entries the compiler may write: states and lengths in range, 32-bit keys, and no more
transition fields than a slot has. -/
structure Transmittable (entry : LevelEntry) : Prop where
  state : 0 ≤ entry.parserTcamEntry.currentState ∧ entry.parserTcamEntry.currentState < 2 ^ 8
  key : -2 ^ 31 ≤ entry.parserTcamEntry.entry ∧ entry.parserTcamEntry.entry < 2 ^ 31
  mask : -2 ^ 31 ≤ entry.parserTcamEntry.mask ∧ entry.parserTcamEntry.mask < 2 ^ 31
  headerId : 0 ≤ entry.parserSramEntry.headerId ∧ entry.parserSramEntry.headerId < 32
  headerLength : 0 ≤ entry.parserSramEntry.headerLength ∧ entry.parserSramEntry.headerLength < 2 ^ 16
  nextState : 0 ≤ entry.parserSramEntry.nextState ∧ entry.parserSramEntry.nextState < 2 ^ 8
  fields : entry.parserSramEntry.transitionFields.length ≤ transFdCapacity
  acceptDrop : 0 ≤ entry.parserSramEntry.acceptDrop ∧ entry.parserSramEntry.acceptDrop ≤ 2

/-- The slot an entry is written to. -/
def entrySlot (entry : LevelEntry) : Nat :=
  ParserStage.entryIdx (modParserEntry entry).state (modParserEntry entry).entry (modParserEntry entry).mask

/-- A key and a mask are the same 32 bits in the slot; everything else is the same number. -/
structure SlotHolds (stage : ParserStage) (entry : LevelEntry) : Prop where
  state : ((stage.transTbl (entrySlot entry)).state : Int) = entry.parserTcamEntry.currentState
  key : ((stage.transTbl (entrySlot entry)).entry : Int) = entry.parserTcamEntry.entry % 2 ^ 32
  mask : ((stage.transTbl (entrySlot entry)).mask : Int) = entry.parserTcamEntry.mask % 2 ^ 32
  hdrId : (stage.actTbl (entrySlot entry)).hdrId.map Int.ofNat = some entry.parserSramEntry.headerId
  hdrLen : (stage.actTbl (entrySlot entry)).hdrLen.map Int.ofNat = some entry.parserSramEntry.headerLength
  nextState : (stage.actTbl (entrySlot entry)).nextState.map Int.ofNat = some entry.parserSramEntry.nextState
  missAct : (stage.actTbl (entrySlot entry)).missAct.map Int.ofNat = some entry.parserSramEntry.acceptDrop
  transFdNum : (stage.actTbl (entrySlot entry)).transFdNum =
    some entry.parserSramEntry.transitionFields.length
  transFds : (List.range entry.parserSramEntry.transitionFields.length).map
    (fun index => ((stage.actTbl (entrySlot entry)).transFds index).headerField) =
      entry.parserSramEntry.transitionFields

/-- After the request for an entry, the addressed level holds it. -/
def EntryArrives (pipeline : Pipeline) (procId level : Nat) (entry : LevelEntry) : Prop :=
  ∃ after processor stage, pipeline.apply (.modParserEntry procId level (modParserEntry entry)) = some after ∧
    after.procs[procId]? = some processor ∧ processor.parser.parserLevels[level]? = some stage ∧
    SlotHolds stage entry

/-- Every field is the last one, and fits a `FieldInfo`. -/
def UniformFields (fields : List HeaderField) : Prop :=
  ∀ field ∈ fields, some field = fields.getLast? ∧ (sentField field).headerField = field

instance (fields : List HeaderField) : Decidable (UniformFields fields) :=
  inferInstanceAs (Decidable (∀ field ∈ fields, _))

private theorem wrap_mod (bits : Nat) (value : Int) : (wrap bits value : Int) = value % 2 ^ bits :=
  Int.toNat_of_nonneg (Int.emod_nonneg value (Int.ne_of_gt (Int.pow_pos (by decide))))

@[simp] private theorem length_aliasedFields (fields : List FieldInfo) :
    (aliasedFields fields).length = fields.length := by
  unfold aliasedFields
  cases last : fields.getLast? with
  | none => simp_all [List.getLast?_eq_none_iff]
  | some field => simp

private theorem aliasedFields_eq_iff (fields : List HeaderField) :
    (aliasedFields (fields.map sentField)).map (·.headerField) = fields ↔ UniformFields fields := by
  unfold aliasedFields
  rw [List.getLast?_map]
  cases last : fields.getLast? with
  | none =>
      obtain rfl : fields = [] := List.getLast?_eq_none_iff.mp last
      simp [UniformFields]
  | some final =>
      have member : final ∈ fields := List.mem_of_getLast? last
      simp only [Option.map_some, List.map_replicate]
      rw [eq_comm, List.eq_replicate_iff]
      constructor
      · rintro ⟨-, all⟩ field found
        have fits : final = (sentField final).headerField := all final member
        obtain rfl : field = final := (all field found).trans fits.symm
        exact ⟨last.symm, fits.symm⟩
      · intro uniform
        refine ⟨by simp, fun field found => ?_⟩
        obtain ⟨same, fits⟩ := uniform field found
        obtain rfl : field = final := Option.some.inj (same.trans last)
        exact fits.symm

private theorem transFdNum_sent {entry : LevelEntry} (compiled : Transmittable entry) :
    (modParserEntry entry).transFdNum = entry.parserSramEntry.transitionFields.length := by
  have few := compiled.fields
  simp only [transFdCapacity] at few
  exact Nat.mod_eq_of_lt (by omega)

private theorem sent_fits {entry : LevelEntry} (compiled : Transmittable entry) :
    (modParserEntry entry).transFdNum ≤ transFdCapacity ∧
      (modParserEntry entry).transFdNum ≤ (modParserEntry entry).transFds.length := by
  rw [transFdNum_sent compiled]
  exact ⟨compiled.fields, by simp [modParserEntry]⟩

/-- The level behind the request: its slot holds what the client sent, with the header length cut
to a byte. -/
private theorem apply_modParserEntry {pipeline : Pipeline} {procId level : Nat}
    {processor : Dataplane.Processor} {stage : ParserStage} {entry : LevelEntry}
    (compiled : Transmittable entry) (found : pipeline.procs[procId]? = some processor)
    (addressed : processor.parser.parserLevels[level]? = some stage) :
    ∃ after written next,
      pipeline.apply (.modParserEntry procId level (modParserEntry entry)) = some after ∧
      after.procs[procId]? = some written ∧ written.parser.parserLevels[level]? = some next ∧
      next.transTbl (entrySlot entry) = ⟨(modParserEntry entry).state, (modParserEntry entry).entry,
        (modParserEntry entry).mask⟩ ∧
      (next.actTbl (entrySlot entry)).hdrId = some (modParserEntry entry).hdrId ∧
      (next.actTbl (entrySlot entry)).hdrLen = some ((modParserEntry entry).hdrLen % 2 ^ 8) ∧
      (next.actTbl (entrySlot entry)).nextState = some (modParserEntry entry).nextState ∧
      (next.actTbl (entrySlot entry)).missAct = some (modParserEntry entry).missAct ∧
      (next.actTbl (entrySlot entry)).transFdNum = some (modParserEntry entry).transFdNum ∧
      ∀ index < (modParserEntry entry).transFdNum,
        (next.actTbl (entrySlot entry)).transFds index = (modParserEntry entry).transFds.getD index {} := by
  obtain ⟨procBound, -⟩ := List.getElem?_eq_some_iff.mp found
  obtain ⟨levelBound, -⟩ := List.getElem?_eq_some_iff.mp addressed
  obtain ⟨next, modified⟩ : ∃ next, stage.modifyTransEntry
      { modParserEntry entry with hdrLen := (modParserEntry entry).hdrLen % 2 ^ 8 } = some next :=
    ⟨_, if_pos (sent_fits compiled)⟩
  have direct : processor.parser.modifyParserEntryDirect level (modParserEntry entry) =
      some { processor.parser with parserLevels := processor.parser.parserLevels.set level next } := by
    simp only [Parser.modifyParserEntryDirect, addressed, Option.bind_eq_bind, Option.bind_some]
    rw [modified]
    rfl
  refine ⟨_, _, next, Pipeline.atProc_eq found (by rw [direct]; rfl), List.getElem?_set_self procBound,
    List.getElem?_set_self levelBound, ?_⟩
  rw [ParserStage.modifyTransEntry, if_pos (sent_fits compiled)] at modified
  cases modified
  simp only [entrySlot, Function.update_self, true_and]
  intro index inside
  rw [if_pos inside]

private theorem transFds_read {sent : List FieldInfo} {transFds : Nat → FieldInfo}
    (read : ∀ index < sent.length, transFds index = sent.getD index {}) :
    (List.range sent.length).map transFds = sent := by
  apply List.ext_getElem (by simp)
  intro index bound inside
  rw [List.getElem_map, List.getElem_range, read index inside]
  simp [List.getD, inside]

theorem entryArrives_iff {pipeline : Pipeline} {procId level : Nat} {processor : Dataplane.Processor}
    {stage : ParserStage} {entry : LevelEntry} (compiled : Transmittable entry)
    (found : pipeline.procs[procId]? = some processor)
    (addressed : processor.parser.parserLevels[level]? = some stage) :
    EntryArrives pipeline procId level entry ↔
      entry.parserSramEntry.headerLength < 2 ^ 8 ∧
        UniformFields entry.parserSramEntry.transitionFields := by
  obtain ⟨after, written, next, applied, there, held, trans, hdrId, hdrLen, nextState,
      missAct, count, read⟩ :=
    apply_modParserEntry compiled found addressed
  have fields : (List.range entry.parserSramEntry.transitionFields.length).map
      (next.actTbl (entrySlot entry)).transFds =
        aliasedFields (entry.parserSramEntry.transitionFields.map sentField) := by
    rw [← List.length_map sentField, ← length_aliasedFields]
    apply transFds_read
    rw [length_aliasedFields, List.length_map, ← transFdNum_sent compiled]
    exact read
  have fields : (List.range entry.parserSramEntry.transitionFields.length).map
      (fun index => ((next.actTbl (entrySlot entry)).transFds index).headerField) =
        (aliasedFields (entry.parserSramEntry.transitionFields.map sentField)).map (·.headerField) := by
    rw [← fields, List.map_map]
    rfl
  have lengthKept : ((modParserEntry entry).hdrLen : Int) = entry.parserSramEntry.headerLength :=
    wrap_of_range compiled.headerLength.1 compiled.headerLength.2
  constructor
  · rintro ⟨after', written', next', applied', there', held', holds⟩
    obtain rfl : after' = after := Option.some.inj (applied'.symm.trans applied)
    obtain rfl : written' = written := Option.some.inj (there'.symm.trans there)
    obtain rfl : next' = next := Option.some.inj (held'.symm.trans held)
    have length := holds.hdrLen
    rw [hdrLen, Option.map_some, Option.some.injEq] at length
    have cut : (modParserEntry entry).hdrLen % 2 ^ 8 < 2 ^ 8 := Nat.mod_lt _ (by decide)
    refine ⟨by rw [← length]; exact Int.ofNat_lt.mpr cut, ?_⟩
    rw [← aliasedFields_eq_iff, ← fields]
    exact holds.transFds
  · rintro ⟨short, uniform⟩
    refine ⟨after, written, next, applied, there, held, ?_⟩
    have small : (modParserEntry entry).hdrLen < 2 ^ 8 := by
      rw [← lengthKept] at short
      exact_mod_cast short
    constructor
    case state => rw [trans]; exact wrap_of_range compiled.state.1 compiled.state.2
    case key => rw [trans]; exact wrap_mod 32 _
    case mask => rw [trans]; exact wrap_mod 32 _
    case hdrId =>
      rw [hdrId]
      have below := compiled.headerId.2
      exact congrArg some (wrap_of_range compiled.headerId.1 (by omega))
    case hdrLen =>
      rw [hdrLen, Nat.mod_eq_of_lt small]
      exact congrArg some lengthKept
    case nextState =>
      rw [nextState]
      exact congrArg some (wrap_of_range compiled.nextState.1 compiled.nextState.2)
    case missAct =>
      rw [missAct]
      have below := compiled.acceptDrop.2
      exact congrArg some (wrap_of_range compiled.acceptDrop.1 (by omega))
    case transFdNum => rw [count, transFdNum_sent compiled]
    case transFds => rw [fields, (aliasedFields_eq_iff _).mpr uniform]

/-- An entry that extracts a header of a given length and goes on by the given fields. -/
private def extracting (headerLength : Int) (transitionFields : List HeaderField) : LevelEntry where
  parserTcamEntry := ⟨1, 0x800, -1⟩
  parserSramEntry := ⟨1, headerLength, 2, transitionFields, 2⟩

theorem entryArrives_one_field :
    EntryArrives .fresh 0 0 (extracting 112 [⟨1, 96, 16, .field⟩]) :=
  (@entryArrives_iff .fresh 0 0 (.fresh 0) {} _
    ⟨by decide, by decide, by decide, by decide, by decide, by decide, by decide, by decide⟩ rfl rfl).mpr
    ⟨by decide, by decide⟩

/-- A header of 320 bits, as long as that of IPv6, arrives with a length of 64. -/
theorem entryArrives_long_header :
    Transmittable (extracting 320 []) ∧ ¬EntryArrives .fresh 0 0 (extracting 320 []) := by
  have compiled : Transmittable (extracting 320 []) :=
    ⟨by decide, by decide, by decide, by decide, by decide, by decide, by decide, by decide⟩
  refine ⟨compiled, ?_⟩
  rintro ⟨after, written, next, applied, there, held, holds⟩
  obtain ⟨after', written', next', applied', there', held', -, -, hdrLen, -⟩ :=
    @apply_modParserEntry .fresh 0 0 (.fresh 0) {} _ compiled rfl rfl
  obtain rfl : after' = after := Option.some.inj (applied'.symm.trans applied)
  obtain rfl : written' = written := Option.some.inj (there'.symm.trans there)
  obtain rfl : next' = next := Option.some.inj (held'.symm.trans held)
  have length := holds.hdrLen
  rw [hdrLen] at length
  exact absurd length (by decide)

end Ipbm.System
