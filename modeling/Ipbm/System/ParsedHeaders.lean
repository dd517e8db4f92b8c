import Ipbm.Controller.ExtractConfig
import Ipbm.Dataplane.ParserSteps

/-! The headers a run of parser levels leaves behind, in any number of processors. Entries
that accept or drop go through the extraction as well, with header 0 and no length. -/

set_option autoImplicit false

namespace Ipbm.System
open Lib Dataplane Compiler Controller

/-! ### Runs of levels -/

/-- What the compiler writes: an entry goes to a state and extracts its header, or ends the packet. -/
def CompiledAction (entry : ParserEntry) : Prop :=
  entry.missAct = 2 ∨ entry.missAct < 2 ∧ entry.hdrId = 0 ∧ entry.hdrLen = 0

private theorem extract_acceptDrop {manager : HeaderManager} {states : List StateDef} {state : StateDef}
    {action : Compiler.ParserSramEntry} (extracts : LevelManager.extract manager states state = some action) :
    action.acceptDrop = 2 := by
  unfold LevelManager.extract at extracts
  split at extracts
  · obtain ⟨header, _, extracts⟩ := Option.bind_eq_some_iff.mp extracts
    obtain ⟨fields, _, extracts⟩ := Option.bind_eq_some_iff.mp extracts
    cases extracts
    rfl
  · cases extracts

theorem buildEntry_compiled {manager : HeaderManager} {states : List StateDef} {state : Nat}
    {transition : TransitionEntry} {entry : LevelEntry}
    (kind : transition.acceptDrop = 0 ∨ transition.acceptDrop = 1 ∨ transition.acceptDrop = 2)
    (built : LevelManager.buildEntry manager states state transition = some entry) :
    CompiledAction (modParserEntry entry) := by
  obtain ⟨mask, _, built⟩ := Option.bind_eq_some_iff.mp built
  split at built
  · obtain ⟨next, _, built⟩ := Option.bind_eq_some_iff.mp built
    obtain ⟨action, extracts, built⟩ := Option.bind_eq_some_iff.mp built
    have goesOn : action.acceptDrop = 2 := extract_acceptDrop extracts
    cases built
    left
    rw [modParserEntry, goesOn]
    rfl
  · next ends =>
      cases built
      right
      cases kind with
      | inl accepts => exact ⟨by simp [modParserEntry, accepts, wrap], rfl, rfl⟩
      | inr others =>
          have drops : transition.acceptDrop = 1 := others.resolve_right ends
          exact ⟨by simp [modParserEntry, drops, wrap], rfl, rfl⟩

/-- The members the extraction writes are the same. -/
structure SameParsed (phv after : Phv) : Prop where
  validBitmap : after.validBitmap = phv.validBitmap
  parsedHeaders : after.parsedHeaders = phv.parsedHeaders
  curOffset : after.curOffset = phv.curOffset

/-- What happens to the packet: a level without an entry for it, with an entry that goes to a state, or
with one that ends it, and everything between two levels. -/
inductive LevelEvent where
  | between
  | missed
  | extracted (hdrId hdrLen : Nat)
  | ended

inductive LevelStep : LevelEvent → Phv → Phv → Prop
  | between {phv after : Phv} (same : SameParsed phv after) : LevelStep .between phv after
  | missed {stage : ParserStage} {phv after : Phv} (none : stage.matchIdx phv = none)
      (run : stage.parse phv = some after) : LevelStep .missed phv after
  | extracted {stage : ParserStage} {index : Nat} {entry : ParserEntry} {phv after : Phv}
      (taken : stage.matchIdx phv = some index) (holds : (stage.actTbl index).Written entry)
      (goesOn : entry.missAct = 2) (run : stage.parse phv = some after) :
      LevelStep (.extracted entry.hdrId entry.hdrLen) phv after
  | ended {stage : ParserStage} {index : Nat} {entry : ParserEntry} {phv after : Phv}
      (taken : stage.matchIdx phv = some index) (holds : (stage.actTbl index).Written entry)
      (ends : entry.missAct < 2 ∧ entry.hdrId = 0 ∧ entry.hdrLen = 0) (run : stage.parse phv = some after) :
      LevelStep .ended phv after

/-- Events with the vectors they leave. -/
abbrev Events := List (LevelEvent × Phv)

def LevelRun (phv : Phv) : Events → Prop
  | [] => True
  | (event, after) :: rest => LevelStep event phv after ∧ LevelRun after rest

def LevelEvent.header : LevelEvent → List (Nat × Nat)
  | extracted hdrId hdrLen => [(hdrId, hdrLen)]
  | between | missed | ended => []

/-- The headers that transitions to a state extract, in order, with their lengths. -/
def extractedHeaders (events : Events) : List (Nat × Nat) := events.flatMap fun event => event.1.header

/-! ### Tilings -/

/-- One header behind the other, from one offset to another. -/
def Tiles (parsedHeaders : List HeaderInfo) : Nat → List (Nat × Nat) → Nat → Prop
  | start, [], stop => start = stop
  | start, (hdrId, hdrLen) :: rest, stop =>
      parsedHeaders[hdrId]? = some ⟨hdrId, start, hdrLen⟩ ∧ Tiles parsedHeaders (start + hdrLen) rest stop

/-- The headers are the valid ones, and tile the front of the packet up to the offset. -/
structure ParsedFront (headers : List (Nat × Nat)) (phv : Phv) : Prop where
  valid : ∀ hdrId, phv.validBitmap[hdrId]? = some 1 ↔ hdrId ∈ headers.map Prod.fst
  tiles : Tiles phv.parsedHeaders 0 headers phv.curOffset

/-- The front is tiled after every step, and an entry that ends the packet changes nothing of it. -/
def AlwaysTiled (headers : List (Nat × Nat)) (phv : Phv) : Events → Prop
  | [] => ParsedFront headers phv
  | (event, after) :: rest => ParsedFront headers phv ∧ (event = .ended → SameParsed phv after) ∧
      AlwaysTiled (headers ++ event.header) after rest

/-- Header 0 is there with no length at the offset whenever an entry ends the packet. -/
def EndsAtHeaderZero (phv : Phv) : Events → Prop
  | [] => True
  | (event, after) :: rest => (event = .ended → phv.validBitmap[0]? = some 1 ∧
      phv.parsedHeaders[0]? = some ⟨0, phv.curOffset, 0⟩) ∧ EndsAtHeaderZero after rest

/-- A vector before the first level. -/
def StartsParsing (phv : Phv) : Prop := phv.curOffset = 0 ∧ ∀ hdrId : Nat, phv.validBitmap[hdrId]? ≠ some 1

theorem tiles_append {parsedHeaders : List HeaderInfo} {start stop : Nat} {front back : List (Nat × Nat)} :
    Tiles parsedHeaders start (front ++ back) stop ↔
      ∃ middle, Tiles parsedHeaders start front middle ∧ Tiles parsedHeaders middle back stop := by
  induction front generalizing start with
  | nil => simp [Tiles]
  | cons header front ih =>
      simp only [List.cons_append, Tiles, ih, and_assoc, exists_and_left]

theorem Tiles.stop_eq {parsedHeaders : List HeaderInfo} {start stop : Nat} {headers : List (Nat × Nat)}
    (tiles : Tiles parsedHeaders start headers stop) : stop = start + (headers.map Prod.snd).sum := by
  induction headers generalizing start with
  | nil => exact tiles.symm
  | cons header headers ih => rw [ih tiles.2, List.map_cons, List.sum_cons, Nat.add_assoc]

/-- A header that is not in the tiling can be written. -/
theorem Tiles.set {parsedHeaders : List HeaderInfo} {start stop : Nat} {headers : List (Nat × Nat)}
    (tiles : Tiles parsedHeaders start headers stop) {hdrId : Nat}
    (new : hdrId ∉ headers.map Prod.fst) (header : HeaderInfo) :
    Tiles (parsedHeaders.set hdrId header) start headers stop := by
  induction headers generalizing start with
  | nil => exact tiles
  | cons own headers ih =>
      rw [List.map_cons, List.mem_cons, not_or] at new
      exact ⟨(List.getElem?_set_ne new.1).trans tiles.1, ih tiles.2 new.2⟩

/-! ### One step -/

theorem SameParsed.refl (phv : Phv) : SameParsed phv phv := ⟨rfl, rfl, rfl⟩

private theorem parse_extracts {stage : ParserStage} {index : Nat} {entry : ParserEntry} {phv after : Phv}
    (taken : stage.matchIdx phv = some index) (holds : (stage.actTbl index).Written entry)
    (run : stage.parse phv = some after) :
    entry.hdrId < phv.validBitmap.length ∧ entry.hdrId < phv.parsedHeaders.length ∧
      after.validBitmap = phv.validBitmap.set entry.hdrId 1 ∧
      after.parsedHeaders = phv.parsedHeaders.set entry.hdrId ⟨entry.hdrId, phv.curOffset, entry.hdrLen⟩ ∧
      after.curOffset = (phv.curOffset + entry.hdrLen) % 2 ^ 16 := by
  rw [ParserStage.parse_hit taken] at run
  obtain ⟨middle, extracted, finished⟩ := Option.bind_eq_some_iff.mp run
  obtain ⟨hdrId, hdrLen, _, _, isHeader, isLength, _, _, small, placed, rfl⟩ :=
    ParserSramEntry.extract_iff.mp extracted
  obtain ⟨_, _, _, rfl⟩ := ParserStage.finish_keeps finished
  obtain rfl : entry.hdrId = hdrId := Option.some.inj (holds.hdrId.symm.trans isHeader)
  obtain rfl : entry.hdrLen = hdrLen := Option.some.inj (holds.hdrLen.symm.trans isLength)
  exact ⟨small, placed, rfl, rfl, rfl⟩

private theorem parse_missed {stage : ParserStage} {phv after : Phv} (none : stage.matchIdx phv = none)
    (run : stage.parse phv = some after) : SameParsed phv after := by
  rw [ParserStage.parse_miss none] at run
  split at run
  · obtain ⟨packet, rfl⟩ := ParserStage.drop_eq run
    exact ⟨rfl, rfl, rfl⟩
  · cases run
    exact .refl _

private theorem ParsedFront.same {headers : List (Nat × Nat)} {phv after : Phv}
    (front : ParsedFront headers phv) (same : SameParsed phv after) : ParsedFront headers after :=
  ⟨fun hdrId => same.validBitmap ▸ front.valid
    hdrId, by rw [same.parsedHeaders, same.curOffset]; exact front.tiles⟩

private theorem ParsedFront.extract {headers : List (Nat × Nat)} {phv after : Phv} {hdrId hdrLen : Nat}
    (front : ParsedFront headers phv) (new : hdrId ∉ headers.map Prod.fst)
    (short : (headers.map Prod.snd).sum + hdrLen < 2 ^ 16) (small : hdrId < phv.validBitmap.length)
    (placed : hdrId < phv.parsedHeaders.length) (valid : after.validBitmap = phv.validBitmap.set hdrId 1)
    (written : after.parsedHeaders = phv.parsedHeaders.set hdrId ⟨hdrId, phv.curOffset, hdrLen⟩)
    (moved : after.curOffset = (phv.curOffset + hdrLen) % 2 ^ 16) :
    ParsedFront (headers ++ [(hdrId, hdrLen)]) after := by
  refine ⟨fun other => ?_, ?_⟩
  · rw [valid, List.map_append, List.mem_append, List.map_singleton, List.mem_singleton, ← front.valid other]
    by_cases own : other = hdrId
    · subst own
      simp [List.getElem?_set_self small]
    · rw [List.getElem?_set_ne (Ne.symm own)]
      simp [own]
  · have stop : phv.curOffset = (headers.map Prod.snd).sum := front.tiles.stop_eq.trans (Nat.zero_add _)
    rw [written, moved, Nat.mod_eq_of_lt (by omega)]
    exact tiles_append.mpr ⟨phv.curOffset, front.tiles.set new _, List.getElem?_set_self placed, rfl⟩

private theorem set_eq_iff {α : Type} {items : List α} {index : Nat} {item : α}
    (small : index < items.length) :
    items.set index item = items ↔ items[index]? = some item := by
  constructor
  · intro same
    have written := List.getElem?_set_self (a := item) small
    rwa [same] at written
  · intro here
    obtain ⟨_, rfl⟩ := List.getElem?_eq_some_iff.mp here
    exact List.set_getElem_self small

private theorem ended_same_iff {stage : ParserStage} {index : Nat} {entry : ParserEntry} {phv after : Phv}
    (taken : stage.matchIdx phv = some index) (holds : (stage.actTbl index).Written entry)
    (ends : entry.missAct < 2 ∧ entry.hdrId = 0 ∧ entry.hdrLen = 0) (run : stage.parse phv = some after)
    (short : phv.curOffset < 2 ^ 16) : SameParsed phv after ↔
      phv.validBitmap[0]? = some 1 ∧ phv.parsedHeaders[0]? = some ⟨0, phv.curOffset, 0⟩ := by
  obtain ⟨small, placed, valid, written, moved⟩ := parse_extracts taken holds run
  rw [ends.2.1] at small placed valid written
  rw [ends.2.2] at written moved
  rw [← set_eq_iff small, ← set_eq_iff placed, ← valid, ← written]
  rw [Nat.add_zero, Nat.mod_eq_of_lt short] at moved
  exact ⟨fun same => ⟨same.validBitmap, same.parsedHeaders⟩, fun same => ⟨same.1, same.2, moved⟩⟩

/-! ### Whole runs -/

private theorem always_cons_same {headers : List (Nat × Nat)} {phv after : Phv} {event : LevelEvent}
    {rest : Events} (front : ParsedFront headers phv) (none : event.header = [])
    (same : SameParsed phv after) :
    AlwaysTiled headers phv ((event, after) :: rest) ↔ AlwaysTiled headers after rest := by
  rw [AlwaysTiled, none, List.append_nil]
  exact ⟨fun all => all.2.2, fun all => ⟨front, fun _ => same, all⟩⟩

private theorem alwaysTiled_from {headers : List (Nat × Nat)} {phv : Phv} {events : Events}
    (front : ParsedFront headers phv) (run : LevelRun phv events)
    (once : ((headers ++ extractedHeaders events).map Prod.fst).Nodup)
    (short : ((headers ++ extractedHeaders events).map Prod.snd).sum < 2 ^ 16) :
    AlwaysTiled headers phv events ↔ EndsAtHeaderZero phv events := by
  induction events generalizing headers phv with
  | nil => exact ⟨fun _ => trivial, fun _ => front⟩
  | cons pair rest ih =>
      obtain ⟨event, after⟩ := pair
      obtain ⟨step, run⟩ := run
      have stop : phv.curOffset = (headers.map Prod.snd).sum := front.tiles.stop_eq.trans (Nat.zero_add _)
      cases step with
      | between same =>
          rw [always_cons_same front rfl same, ih (front.same same) run once short]
          exact ⟨fun ends => ⟨nofun, ends⟩, fun ends => ends.2⟩
      | missed none parsed =>
          have same := parse_missed none parsed
          rw [always_cons_same front rfl same, ih (front.same same) run once short]
          exact ⟨fun ends => ⟨nofun, ends⟩, fun ends => ends.2⟩
      | @extracted stage index entry _ _ taken holds goesOn parsed =>
          have split : headers ++ extractedHeaders ((.extracted entry.hdrId entry.hdrLen, after) :: rest) =
              (headers ++ [(entry.hdrId, entry.hdrLen)]) ++ extractedHeaders rest := by
            simp [extractedHeaders, LevelEvent.header]
          rw [split] at once short
          obtain ⟨small, placed, valid, written, moved⟩ := parse_extracts taken holds parsed
          have new : entry.hdrId ∉ headers.map Prod.fst := by
            rw [List.map_append, List.map_append, List.map_singleton] at once
            exact fun member => (List.nodup_append.mp (List.nodup_append.mp once).1).2.2 _ member _
              (List.mem_singleton_self _) rfl
          have total : (headers.map Prod.snd).sum + entry.hdrLen < 2 ^ 16 := by
            simp only [List.map_append, List.sum_append, List.map_singleton, List.sum_singleton] at short
            omega
          have next := front.extract new total small placed valid written moved
          rw [AlwaysTiled, EndsAtHeaderZero, LevelEvent.header, ih next run once short]
          exact ⟨fun all => ⟨nofun, all.2.2⟩, fun ends => ⟨front, nofun, ends.2⟩⟩
      | ended taken holds ends parsed =>
          have low : phv.curOffset < 2 ^ 16 := by
            simp only [List.map_append, List.sum_append] at short
            omega
          have sameIff := ended_same_iff taken holds ends parsed low
          rw [AlwaysTiled, EndsAtHeaderZero, ← sameIff, LevelEvent.header, List.append_nil]
          constructor
          · rintro ⟨_, same, all⟩
            exact ⟨same, (ih (front.same (same rfl)) run once short).mp all⟩
          · rintro ⟨same, ends⟩
            exact ⟨front, same, (ih (front.same (same rfl)) run once short).mpr ends⟩

/-- In a run that extracts no header twice and less than 2^16 bits, the extracted headers tile the front of
the packet after every step exactly if header 0 is there with no length whenever an entry ends the packet. -/
theorem alwaysTiled_iff (phv : Phv) (events : Events) (starts : StartsParsing phv) (run : LevelRun phv events)
    (once : ((extractedHeaders events).map Prod.fst).Nodup)
    (short : ((extractedHeaders events).map Prod.snd).sum < 2 ^ 16) :
    AlwaysTiled [] phv events ↔ EndsAtHeaderZero phv events := by
  have front : ParsedFront [] phv := ⟨fun hdrId => iff_of_false (starts.2 hdrId) (by simp), starts.1.symm⟩
  exact alwaysTiled_from front run once short

/-- A level with an entry that extracts header 0 in state 0, and one that accepts in state 1. -/
private def acceptLevel : ParserStage where
  transTbl := fun index => if index = 255 then ⟨0, 0, 0⟩ else if index = 254 then ⟨1, 0, 0⟩ else {}
  actTbl := fun index =>
    if index = 255 then
      ⟨some 0, some 112, some 1, some 0, fun _ => {}, some 2⟩
    else if index = 254 then
      ⟨some 0, some 0, some 0, some 0, fun _ => {}, some 0⟩
    else
      {}

private def headerZero : ParserEntry := ⟨0, 0, 0, 0, 112, 1, 0, [], 2⟩

private def acceptEntry : ParserEntry := ⟨1, 0, 0, 0, 0, 0, 0, [], 0⟩

private def extractedZero : Phv :=
  { Phv.fresh with
    validBitmap := Phv.fresh.validBitmap.set 0 1
    parsedHeaders := Phv.fresh.parsedHeaders.set 0 ⟨0, 0, 112⟩
    curOffset := 112, curState := 1, curTransKey := 0 }

private def acceptedZero : Phv :=
  { extractedZero with
    parsedHeaders := extractedZero.parsedHeaders.set 0 ⟨0, 112, 0⟩
    curState := 0, missAct := 0 }

private theorem extractedZero_step : LevelStep (.extracted 0 112) Phv.fresh extractedZero :=
  @LevelStep.extracted acceptLevel 255 headerZero _ _ (by decide)
    ⟨rfl, rfl, rfl, rfl, rfl, fun _ low => absurd low (Nat.not_lt_zero _)⟩ rfl (by decide +kernel)

private theorem acceptedZero_step : LevelStep .ended extractedZero acceptedZero :=
  @LevelStep.ended acceptLevel 254 acceptEntry _ _ (by decide)
    ⟨rfl, rfl, rfl, rfl, rfl, fun _ low => absurd low (Nat.not_lt_zero _)⟩ ⟨by decide, rfl, rfl⟩
    (by decide +kernel)

private theorem fresh_starts : StartsParsing Phv.fresh := by
  refine ⟨rfl, fun hdrId one => ?_⟩
  have zero := List.eq_of_mem_replicate (List.mem_of_getElem? one)
  cases zero

/-- A level that extracts header 1, then header 0 without any bits, and accepts. -/
private def twoLevel : ParserStage where
  transTbl := fun index =>
    if index = 255 then ⟨0, 0, 0⟩ else if index = 254 then ⟨1, 0, 0⟩
      else if index = 253 then ⟨2, 0, 0⟩ else {}
  actTbl := fun index =>
    if index = 255 then
      ⟨some 1, some 112, some 1, some 0, fun _ => {}, some 2⟩
    else if index = 254 then
      ⟨some 0, some 0, some 2, some 0, fun _ => {}, some 2⟩
    else if index = 253 then
      ⟨some 0, some 0, some 0, some 0, fun _ => {}, some 0⟩
    else
      {}

private def firstHeader : Phv :=
  { Phv.fresh with
    validBitmap := Phv.fresh.validBitmap.set 1 1
    parsedHeaders := Phv.fresh.parsedHeaders.set 1 ⟨1, 0, 112⟩
    curOffset := 112, curState := 1, curTransKey := 0 }

private def bothHeaders : Phv :=
  { firstHeader with
    validBitmap := firstHeader.validBitmap.set 0 1
    parsedHeaders := firstHeader.parsedHeaders.set 0 ⟨0, 112, 0⟩
    curState := 2 }

private def acceptedBoth : Phv :=
  { bothHeaders with curState := 0, missAct := 0 }

def acceptedEvents : Events :=
  [(.extracted 1 112, firstHeader), (.extracted 0 0, bothHeaders), (.ended, acceptedBoth)]

private theorem acceptedEvents_run : LevelRun Phv.fresh acceptedEvents := by
  have none : ∀ place < 0, ∀ fields : List FieldInfo, ({} : FieldInfo) = fields.getD place {} :=
    fun _ low => absurd low (Nat.not_lt_zero _)
  refine ⟨?_, ?_, ?_, trivial⟩
  · exact @LevelStep.extracted twoLevel 255 ⟨0, 0, 0, 1, 112, 1, 0, [], 2⟩ _ _ (by decide)
      ⟨rfl, rfl, rfl, rfl, rfl, fun place low => none place low []⟩ rfl (by decide +kernel)
  · exact @LevelStep.extracted twoLevel 254 ⟨1, 0, 0, 0, 0, 2, 0, [], 2⟩ _ _ (by decide)
      ⟨rfl, rfl, rfl, rfl, rfl, fun place low => none place low []⟩ rfl (by decide +kernel)
  · exact @LevelStep.ended twoLevel 253 ⟨2, 0, 0, 0, 0, 0, 0, [], 0⟩ _ _ (by decide)
      ⟨rfl, rfl, rfl, rfl, rfl, fun place low => none place low []⟩ ⟨by decide, rfl, rfl⟩ (by decide +kernel)

/-- Header 0 is there with no length when the packet is accepted behind two headers. -/
theorem alwaysTiled_accepted : AlwaysTiled [] Phv.fresh acceptedEvents :=
  (alwaysTiled_iff Phv.fresh acceptedEvents fresh_starts acceptedEvents_run (by decide) (by decide)).mpr
    ⟨nofun, nofun, fun _ => by decide, trivial⟩

/-- A packet that is accepted behind its first header has that header at its end. -/
theorem not_alwaysTiled : StartsParsing Phv.fresh ∧
    LevelRun Phv.fresh [(.extracted 0 112, extractedZero), (.ended, acceptedZero)] ∧
    ¬AlwaysTiled [] Phv.fresh [(.extracted 0 112, extractedZero), (.ended, acceptedZero)] := by
  refine ⟨fresh_starts, ⟨extractedZero_step, acceptedZero_step, trivial⟩, fun tiled => ?_⟩
  have written := (tiled.2.2.2.1 rfl).parsedHeaders
  exact absurd (congrArg (·[0]?) written) (by decide)

/-! ### The levels of a pipeline -/

/-- What a level takes is compiled. -/
def TakesCompiled (stage : ParserStage) : Prop :=
  ∀ phv index after, stage.matchIdx phv = some index → stage.parse phv = some after →
    ∃ entry, CompiledAction entry ∧ (stage.actTbl index).Written entry

/-- Compiled entries in a new level: what was not written has no action. -/
theorem takesCompiled_of_insertAll {stage : ParserStage} {entries : List ParserEntry}
    (done : ({} : ParserStage).insertAll entries = some stage)
    (compiled : ∀ entry ∈ entries, CompiledAction entry) :
    TakesCompiled stage := by
  intro phv index after taken run
  have slot := ParserStage.insertAll_slot done index
  cases last : lastWhere (fun entry : ParserEntry => entry.slot = index) entries with
  | some entry =>
      rw [last] at slot
      exact ⟨entry, compiled entry (lastWhere_some last).1, slot.2⟩
  | none =>
      rw [last] at slot
      rw [ParserStage.parse_hit taken, slot.2] at run
      obtain ⟨middle, extracted, _⟩ := Option.bind_eq_some_iff.mp run
      cases extracted

def lastVector (phv : Phv) : Events → Phv
  | [] => phv
  | (_, after) :: rest => lastVector after rest

/-- Some run of levels leads from one vector to the other. -/
def LevelsLead (phv after : Phv) : Prop := ∃ events, LevelRun phv events ∧ lastVector phv events = after

theorem LevelsLead.refl (phv : Phv) : LevelsLead phv phv := ⟨[], trivial, rfl⟩

theorem LevelsLead.step {phv middle after : Phv} {event : LevelEvent} (first : LevelStep event phv middle)
    (rest : LevelsLead middle after) : LevelsLead phv after := by
  obtain ⟨events, run, last⟩ := rest
  exact ⟨(event, middle) :: events, ⟨first, run⟩, last⟩

theorem LevelsLead.same {phv after : Phv} (same : SameParsed phv after) : LevelsLead phv after :=
  ⟨[(.between, after)], ⟨.between same, trivial⟩, rfl⟩

theorem LevelsLead.trans {phv middle after : Phv} (first : LevelsLead phv middle)
    (second : LevelsLead middle after) :
    LevelsLead phv after := by
  obtain ⟨events, run, last⟩ := first
  induction events generalizing phv with
  | nil =>
      cases last
      exact second
  | cons pair events ih => exact .step run.1 (ih run.2 last)

private theorem parse_levelStep {stage : ParserStage} (compiled : TakesCompiled stage) {phv after : Phv}
    (run : stage.parse phv = some after) : ∃ event, LevelStep event phv after := by
  cases taken : stage.matchIdx phv with
  | none => exact ⟨.missed, .missed taken run⟩
  | some index =>
      obtain ⟨entry, kind, holds⟩ := compiled phv index after taken run
      cases kind with
      | inl goesOn => exact ⟨_, .extracted taken holds goesOn run⟩
      | inr ends => exact ⟨_, .ended taken holds ends run⟩

private theorem parseLevels_lead {stages : List ParserStage}
    (compiled : ∀ stage ∈ stages, TakesCompiled stage)
    {phv after : Phv} (run : Parser.parseLevels stages phv = some after) : LevelsLead phv after := by
  induction stages generalizing phv with
  | nil =>
      cases run
      exact .refl _
  | cons stage stages ih =>
      obtain ⟨middle, first, run⟩ := Option.bind_eq_some_iff.mp run
      obtain ⟨event, step⟩ := parse_levelStep (compiled stage List.mem_cons_self) first
      split at run
      · cases run
        exact .step step (.refl _)
      · exact .step step (ih (fun other member => compiled other (List.mem_cons_of_mem _ member)) run)

private theorem parser_lead {parser : Parser} (compiled : ∀ stage ∈ parser.parserLevels, TakesCompiled stage)
    {phv after : Phv} (run : parser.parse phv = some after) : LevelsLead phv after := by
  unfold Parser.parse at run
  split at run
  · split at run
    · exact parseLevels_lead (fun stage member => compiled stage (List.mem_of_mem_take member)) run
    · obtain ⟨middle, levels, run⟩ := Option.bind_eq_some_iff.mp run
      split at run
      · cases run
        exact parseLevels_lead compiled levels
      · cases run
  · cases run
    exact .same ⟨rfl, rfl, rfl⟩

private theorem processPacket_lead {memory : Memory} {scratch : Nat → UInt8} {processor : Dataplane.Processor}
    (compiled : ∀ stage ∈ processor.parser.parserLevels, TakesCompiled stage) {phv after : Phv}
    (run : processor.processPacket memory scratch phv = some after) : LevelsLead phv after := by
  obtain ⟨parsed, parse, run⟩ := Option.bind_eq_some_iff.mp run
  have levels := parser_lead compiled parse
  split at run
  · cases run
    exact levels
  · obtain ⟨gated, gateway, run⟩ := Option.bind_eq_some_iff.mp run
    obtain ⟨nextOp, rfl⟩ := Dataplane.Gateway.execute_eq gateway
    split at run
    · cases run
      exact levels.trans (.same ⟨rfl, rfl, rfl⟩)
    · obtain ⟨matched, lookup, run⟩ := Option.bind_eq_some_iff.mp run
      obtain ⟨thread, _, run⟩ := Option.bind_eq_some_iff.mp run
      obtain ⟨_, _, _, _, rfl⟩ := Matcher.execute_eq lookup
      obtain ⟨packet, rfl⟩ := Executor.execute_eq run
      exact levels.trans (.same ⟨rfl, rfl, rfl⟩)

/-- Every packet goes through a run of levels, in all the processors it comes to. -/
theorem execute_lead {pipeline : Pipeline}
    (compiled : ∀ processor ∈ pipeline.procs, ∀ stage ∈ processor.parser.parserLevels, TakesCompiled stage)
    {scratch : Nat → Nat → UInt8} {fuel : Nat} {phv after : Phv}
    (run : pipeline.execute scratch fuel phv = .done after) : LevelsLead phv after := by
  induction fuel generalizing phv with
  | zero =>
      unfold Pipeline.execute at run
      split at run
      · cases run
        exact .refl _
      · cases run
  | succ fuel ih =>
      unfold Pipeline.execute at run
      split at run
      · cases run
        exact .refl _
      · simp only at run
        split at run
        · cases run
        · next next_ step =>
            obtain ⟨processor, found, step⟩ := Option.bind_eq_some_iff.mp step
            exact (processPacket_lead (compiled processor (Pipeline.proc_mem found)) step).trans (ih run)

end Ipbm.System
