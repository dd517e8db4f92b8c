import Ipbm.Dataplane.ParserSteps
import Ipbm.Lib.Pointwise

/-! The calls on a parser. A clear resets the levels that are in use, and no level that an
earlier configuration used. -/

set_option autoImplicit false

namespace Ipbm.Dataplane
open Lib

inductive ParserCall where
  | initParserLevel (parserLevel : Nat)
  | modifyParserEntryDirect (level : Nat) (entry : ParserEntry)
  | clear

namespace ParserCall

def apply (parser : Parser) : ParserCall → Option Parser
  | initParserLevel parserLevel => some (parser.initParserLevel parserLevel)
  | modifyParserEntryDirect level entry => parser.modifyParserEntryDirect level entry
  | clear => parser.clear

/-- Keys and masks are words, and there are four levels. -/
def Exists : ParserCall → Prop
  | initParserLevel parserLevel => parserLevel ≤ 4
  | modifyParserEntryDirect _ entry => entry.entry < 2 ^ 32 ∧ entry.mask < 2 ^ 32
  | clear => True

end ParserCall

inductive Parser.Reached : Parser → Prop
  | fresh : Reached .fresh
  | call {before after : Parser} {call : ParserCall} (reached : Reached before) (exist : call.Exists)
      (step : call.apply before = some after) : Reached after

/-- Entries for levels, in order. -/
def Parser.enter (parser : Parser) (entries : List (Nat × ParserEntry)) : Option Parser :=
  entries.foldlM (fun parser pair => parser.modifyParserEntryDirect pair.1 pair.2) parser

/-- Wherever a new parser is defined, the cleared one does the same. -/
def Parser.Forgets (parser : Parser) : Prop :=
  ∀ cleared, parser.clear = some cleared → ∀ parserLevel ≤ 4, ∀ entries new,
    (Parser.fresh.initParserLevel parserLevel).enter entries = some new →
      ∃ used, (cleared.initParserLevel parserLevel).enter entries = some used ∧
        ∀ phv after, new.parse phv = some after → used.parse phv = some after

/-- No key takes the slot that would not take an unused one. -/
def ParserTcamEntry.Idle (slot : ParserTcamEntry) : Prop := slot = {} ∨ slot.entry &&& slot.mask ≠ slot.entry

def ParserStage.Idle (stage : ParserStage) : Prop := ∀ index < ParserStage.slots, (stage.transTbl index).Idle

theorem ParserTcamEntry.Idle.takes {slot : ParserTcamEntry} (idle : slot.Idle) {state key : Nat}
    (takes : slot.Takes state key) : ({} : ParserTcamEntry).Takes state key := by
  cases idle with
  | inl unused => exact unused ▸ takes
  | inr inert =>
      apply absurd _ inert
      rw [takes.2, Nat.and_assoc, Nat.and_self]

/-! ### Two parsers with the same entries -/

/-- Both slots have the same entry, or nothing was written to the new one. -/
inductive SameSlot (used new : ParserStage) (index : Nat) : Prop
  | written (entry : ParserEntry) (tcam : used.transTbl index =
      entry.tcam) (newTcam : new.transTbl index = entry.tcam)
      (act : (used.actTbl index).Written entry) (newAct : (new.actTbl index).Written entry)
  | unused (idle : (used.transTbl index).Idle) (newTcam : new.transTbl index =
      {}) (newAct : (new.actTbl index).hdrId = none)

def SameEntries (used new : ParserStage) : Prop := ∀ index < ParserStage.slots, SameSlot used new index

theorem ParserSramEntry.Written.extract_eq {used new : ParserSramEntry} {entry : ParserEntry}
    (written : used.Written entry) (newWritten : new.Written entry) (phv : Phv) :
    used.extract phv = new.extract phv := by
  simp only [extract, written.hdrId, newWritten.hdrId, written.hdrLen, newWritten.hdrLen, written.nextState,
    newWritten.nextState, written.missAct, newWritten.missAct]

theorem ParserSramEntry.Written.finish_eq {used new : ParserSramEntry} {entry : ParserEntry}
    (written : used.Written entry) (newWritten : new.Written entry) (phv : Phv) :
    used.finish phv = new.finish phv := by
  have fields : (List.range entry.transFdNum).map used.transFds =
      (List.range entry.transFdNum).map new.transFds := by
    apply List.map_congr_left
    intro place low
    rw [written.transFds place (List.mem_range.mp low), newWritten.transFds place (List.mem_range.mp low)]
  simp only [finish, written.transFdNum, newWritten.transFdNum, Option.bind_eq_bind, Option.bind_some, fields]

namespace SameEntries

variable {used new : ParserStage}

private theorem takes (same : SameEntries used new) {index : Nat}
    (inside : index < ParserStage.slots) {state key : Nat}
    (taken : (used.transTbl index).Takes state key) : (new.transTbl index).Takes state key := by
  cases same index inside with
  | written entry tcam newTcam => rwa [newTcam, ← tcam]
  | unused idle newTcam => exact newTcam ▸ idle.takes taken

theorem parse (same : SameEntries used new) {phv after : Phv} (run : new.parse phv = some after) :
    used.parse phv = some after := by
  cases found : new.matchIdx phv with
  | none =>
      have missed : used.matchIdx phv = none :=
        ParserStage.matchIdx_eq_none.mpr fun index inside taken =>
          ParserStage.matchIdx_eq_none.mp found index inside (same.takes inside taken)
      rwa [ParserStage.parse_miss missed, ← ParserStage.parse_miss found]
  | some index =>
      obtain ⟨inside, taken, front⟩ := ParserStage.matchIdx_eq_some.mp found
      rw [ParserStage.parse_hit found] at run
      cases same index inside with
      | unused _ _ newAct =>
          obtain ⟨middle, extracted, _⟩ := Option.bind_eq_some_iff.mp run
          obtain ⟨_, _, _, _, isHeader, _⟩ := ParserSramEntry.extract_iff.mp extracted
          cases newAct.symm.trans isHeader
      | written entry tcam newTcam act newAct =>
          have hit : used.matchIdx phv = some index := by
            refine ParserStage.matchIdx_eq_some.mpr ⟨inside, ?_, fun other low early => ?_⟩
            · rwa [tcam, ← newTcam]
            · exact front other low (same.takes (low.trans inside) early)
          rw [ParserStage.parse_hit hit, act.extract_eq newAct]
          rwa [show (used.actTbl index).finish = (new.actTbl index).finish from funext (act.finish_eq newAct)]

theorem modifyTransEntry (same : SameEntries used new) {entry : ParserEntry} {newAfter : ParserStage}
    (done : new.modifyTransEntry entry = some newAfter) :
    ∃ after, used.modifyTransEntry entry = some after ∧ SameEntries after newAfter := by
  obtain ⟨after, usedDone⟩ := (@ParserStage.modifyTransEntry_isSome used entry).mpr
    (ParserStage.modifyTransEntry_isSome.mp ⟨newAfter, done⟩)
  obtain ⟨tcam, act, kept⟩ := ParserStage.modifyTransEntry_slot usedDone
  obtain ⟨newTcam, newAct, newKept⟩ := ParserStage.modifyTransEntry_slot done
  refine ⟨after, usedDone, fun index inside => ?_⟩
  by_cases own : index = entry.slot
  · subst own
    exact .written entry tcam newTcam act newAct
  · obtain ⟨keptTcam, keptAct⟩ := kept index own
    obtain ⟨newKeptTcam, newKeptAct⟩ := newKept index own
    cases same index inside with
    | written other tcam newTcam act newAct =>
        exact .written other (keptTcam.trans tcam) (newKeptTcam.trans newTcam) (keptAct ▸ act)
          (newKeptAct ▸ newAct)
    | unused idle newTcam newAct =>
        exact .unused (keptTcam ▸ idle) (newKeptTcam.trans newTcam) (newKeptAct ▸ newAct)

end SameEntries

namespace Parser

/-- The levels have the same entries, and as many of them run. -/
structure Same (used new : Parser) : Prop where
  needed : used.neededParserLevel = new.neededParserLevel
  few : new.neededParserLevel ≤ 4
  levels : List.Forall₂ SameEntries used.parserLevels new.parserLevels
  four : new.parserLevels.length = 4
  works : used.ifWork = true ∧ new.ifWork = true

theorem parseLevels_same {used new : List ParserStage} (levels : List.Forall₂ SameEntries used new)
    {phv after : Phv} (run : parseLevels new phv = some after) : parseLevels used phv = some after := by
  induction levels generalizing phv with
  | nil => exact run
  | cons first _ ih =>
      obtain ⟨middle, step, rest⟩ := Option.bind_eq_some_iff.mp run
      rw [parseLevels, first.parse step, Option.bind_eq_bind, Option.bind_some]
      by_cases ended : middle.nextProcId = -1
      · rw [if_pos ended] at rest ⊢
        exact rest
      · rw [if_neg ended] at rest ⊢
        exact ih rest

theorem Same.parse {used new : Parser} (same : used.Same new) {phv after : Phv}
    (run : new.parse phv = some after) :
    used.parse phv = some after := by
  have four : used.parserLevels.length = 4 := same.levels.length_eq.trans same.four
  rw [Parser.parse, if_pos same.works.2, if_pos (same.four ▸ same.few)] at run
  rw [Parser.parse, if_pos same.works.1, if_pos (by rw [same.needed, four]; exact same.few), same.needed]
  exact parseLevels_same (List.forall₂_take _ same.levels) run

theorem Same.modifyParserEntryDirect {used new newAfter : Parser} (same : used.Same new)
    {level : Nat} {entry : ParserEntry} (done : new.modifyParserEntryDirect level entry = some newAfter) :
    ∃ after, used.modifyParserEntryDirect level entry = some after ∧ after.Same newAfter := by
  obtain ⟨stage, found, done⟩ := Option.bind_eq_some_iff.mp done
  obtain ⟨next, modified, done⟩ := Option.bind_eq_some_iff.mp done
  cases done
  obtain ⟨usedStage, usedFound, sameStage⟩ := forall₂_left same.levels found
  obtain ⟨usedNext, usedModified, sameNext⟩ := sameStage.modifyTransEntry modified
  refine ⟨{ used with parserLevels := used.parserLevels.set level usedNext }, ?_, ?_⟩
  · exact Option.bind_eq_some_iff.mpr ⟨usedStage, usedFound,
      Option.bind_eq_some_iff.mpr ⟨usedNext, usedModified, rfl⟩⟩
  · exact ⟨same.needed, same.few,
      forall₂_set same.levels level sameNext, by simpa using same.four, same.works⟩

theorem Same.enter {used new newAfter : Parser} (same : used.Same new) {entries : List (Nat × ParserEntry)}
    (done : new.enter entries = some newAfter) :
    ∃ after, used.enter entries = some after ∧ after.Same newAfter := by
  induction entries generalizing used new with
  | nil =>
      cases done
      exact ⟨used, rfl, same⟩
  | cons pair entries ih =>
      obtain ⟨newMiddle, first, rest⟩ := Option.bind_eq_some_iff.mp done
      obtain ⟨middle, step, sameMiddle⟩ := same.modifyParserEntryDirect first
      obtain ⟨after, run, sameAfter⟩ := ih sameMiddle rest
      exact ⟨after, Option.bind_eq_some_iff.mpr ⟨middle, step, run⟩, sameAfter⟩

/-! ### After a clear -/

private theorem sameEntries_fresh {stage : ParserStage} (idle : stage.Idle) : SameEntries stage {} :=
  fun index inside => .unused (idle index inside) rfl rfl

private theorem clear_idle (stage : ParserStage) : stage.clear.Idle := fun _ _ => .inl rfl

/-- What a clear leaves: the levels in use are empty, and the others are as they were. -/
theorem clear_level {parser cleared : Parser} (done : parser.clear = some cleared) (level : Nat) :
    cleared.parserLevels[level]? = if level < parser.neededParserLevel then
      parser.parserLevels[level]?.map ParserStage.clear else parser.parserLevels[level]? := by
  obtain ⟨few, done⟩ := Option.ite_none_right_eq_some.mp done
  cases done
  by_cases inUse : level < parser.neededParserLevel
  · rw [if_pos inUse, List.getElem?_append_left (by simp; omega), List.getElem?_map,
      List.getElem?_take_of_lt inUse]
  · rw [if_neg inUse, List.getElem?_append_right (by simp; omega), List.getElem?_drop]
    congr 1
    simp
    omega

theorem clear_length {parser cleared : Parser} (done : parser.clear = some cleared) :
    cleared.parserLevels.length = parser.parserLevels.length := by
  obtain ⟨few, done⟩ := Option.ite_none_right_eq_some.mp done
  cases done
  simp
  omega

/-- Levels that are not in use hold nothing that a key could take. -/
def UnusedIdle (parser : Parser) : Prop :=
  ∀ level stage, parser.neededParserLevel ≤ level → parser.parserLevels[level]? = some stage → stage.Idle

private theorem cleared_idle {parser cleared : Parser} {level : Nat} {stage : ParserStage}
    (idle : ∀ stage, parser.neededParserLevel ≤ level → parser.parserLevels[level]? = some stage → stage.Idle)
    (done : parser.clear = some cleared) (found : cleared.parserLevels[level]? = some stage) :
    stage.Idle := by
  rw [clear_level done] at found
  split at found
  · obtain ⟨before, _, rfl⟩ := Option.map_eq_some_iff.mp found
    exact clear_idle before
  · next notInUse => exact idle stage (Nat.le_of_not_lt notInUse) found

private theorem forgets_of_unusedIdle {parser : Parser} (four : parser.parserLevels.length = 4)
    (idle : parser.UnusedIdle) :
    parser.Forgets := by
  intro cleared done parserLevel few entries new entered
  have levels : List.Forall₂ SameEntries cleared.parserLevels Parser.fresh.parserLevels := by
    rw [List.forall₂_iff_get]
    refine ⟨(clear_length done).trans four, fun level inside newInside => ?_⟩
    have new : Parser.fresh.parserLevels.get ⟨level, newInside⟩ =
      {} := List.eq_of_mem_replicate (List.get_mem _ _)
    rw [new]
    exact sameEntries_fresh (cleared_idle (idle level) done (List.getElem?_eq_getElem inside))
  have same : (cleared.initParserLevel parserLevel).Same (Parser.fresh.initParserLevel parserLevel) :=
    ⟨rfl, few, levels, rfl, rfl, rfl⟩
  obtain ⟨used, usedEntered, sameUsed⟩ := same.enter entered
  exact ⟨used, usedEntered, fun phv after run => sameUsed.parse run⟩

/-! ### Levels that are not cleared -/

/-- What the calls keep: four levels, and words as keys and masks. -/
structure Typed (parser : Parser) : Prop where
  four : parser.parserLevels.length = 4
  few : parser.neededParserLevel ≤ 4
  words : ∀ stage ∈ parser.parserLevels, ∀ index,
    (stage.transTbl index).entry < 2 ^ 32 ∧ (stage.transTbl index).mask < 2 ^ 32

private theorem unused_words : ({} : ParserTcamEntry).entry < 2 ^ 32 ∧
      ({} : ParserTcamEntry).mask < 2 ^ 32 := by
  decide

theorem Typed.apply {parser after : Parser} {call : ParserCall} (typed : parser.Typed) (exist : call.Exists)
    (step : call.apply parser = some after) : after.Typed := by
  cases call with
  | initParserLevel parserLevel =>
      cases step
      exact ⟨typed.four, exist, typed.words⟩
  | clear =>
      have length := clear_length step
      have levels := clear_level step
      obtain ⟨_, step⟩ := Option.ite_none_right_eq_some.mp step
      refine ⟨length.trans typed.four, by cases step; exact Nat.zero_le _, fun stage member => ?_⟩
      obtain ⟨level, found⟩ := List.mem_iff_getElem?.mp member
      rw [levels] at found
      split at found
      · obtain ⟨before, _, rfl⟩ := Option.map_eq_some_iff.mp found
        exact fun _ => unused_words
      · exact typed.words stage (List.mem_of_getElem? found)
  | modifyParserEntryDirect level entry =>
      obtain ⟨stage, found, step⟩ := Option.bind_eq_some_iff.mp step
      obtain ⟨next, modified, step⟩ := Option.bind_eq_some_iff.mp step
      cases step
      obtain ⟨tcam, _, kept⟩ := ParserStage.modifyTransEntry_slot modified
      refine ⟨by simpa using typed.four, typed.few, fun other member index => ?_⟩
      cases List.mem_or_eq_of_mem_set member with
      | inl before => exact typed.words other before index
      | inr written =>
          subst written
          by_cases own : index = ParserEntry.slot { entry with hdrLen := entry.hdrLen % 2 ^ 8 }
          · rw [own, tcam]
            exact exist
          · rw [(kept index own).1]
            exact typed.words stage (List.mem_of_getElem? found) index

theorem Reached.typed {parser : Parser} (reached : parser.Reached) : parser.Typed := by
  induction reached with
  | fresh =>
      refine ⟨rfl, Nat.zero_le _, fun stage member _ => ?_⟩
      rw [List.eq_of_mem_replicate member]
      exact unused_words
  | call _ exist step typed => exact typed.apply exist step

theorem parse_init {parser : Parser} {parserLevel : Nat}
    (few : parserLevel ≤ parser.parserLevels.length) (phv : Phv) :
    (parser.initParserLevel parserLevel).parse phv =
      parseLevels (parser.parserLevels.take parserLevel) phv := by
  simp only [Parser.parse, initParserLevel, if_true]
  exact if_pos few

private theorem parse_idle {stage : ParserStage} (idle : stage.Idle) {phv : Phv} (goesOn : phv.missAct ≠ 1)
    (free : ¬({} : ParserTcamEntry).Takes phv.curState phv.curTransKey) : stage.parse phv = some phv := by
  have missed : stage.matchIdx phv = none :=
    ParserStage.matchIdx_eq_none.mpr fun index inside takes => free ((idle index inside).takes takes)
  rw [ParserStage.parse_miss missed, if_neg goesOn]

private theorem parseLevels_idle {front back : List ParserStage}
    (idle : ∀ stage ∈ front, stage.Idle) {phv : Phv}
    (goesOn : phv.missAct ≠ 1 ∧ phv.nextProcId ≠ -1)
    (free : ¬({} : ParserTcamEntry).Takes phv.curState phv.curTransKey) :
    parseLevels (front ++ back) phv = parseLevels back phv := by
  induction front with
  | nil => rfl
  | cons stage front ih =>
      rw [List.cons_append, parseLevels, parse_idle (idle stage List.mem_cons_self) goesOn.1 free,
        Option.bind_eq_bind, Option.bind_some, if_neg goesOn.2, ih fun other member =>
          idle other (List.mem_cons_of_mem _ member)]

private theorem parse_taken {stage : ParserStage} {index : Nat} (inside : index < ParserStage.slots)
    {phv after : Phv} (taken : (stage.transTbl index).Takes phv.curState phv.curTransKey)
    (run : stage.parse phv = some after) :
    ∃ hdrId < phv.validBitmap.length, after.validBitmap = phv.validBitmap.set hdrId 1 := by
  cases found : stage.matchIdx phv with
  | none => exact absurd taken (ParserStage.matchIdx_eq_none.mp found index inside)
  | some first =>
      rw [ParserStage.parse_hit found] at run
      obtain ⟨middle, extracted, finished⟩ := Option.bind_eq_some_iff.mp run
      obtain ⟨hdrId, _, _, _, _, _, _, _, small, _, rfl⟩ := ParserSramEntry.extract_iff.mp extracted
      obtain ⟨_, _, _, rfl⟩ := ParserStage.finish_keeps finished
      exact ⟨hdrId, small, rfl⟩

private theorem busy_key {slot : ParserTcamEntry} (words : slot.entry < 2 ^ 32 ∧ slot.mask < 2 ^ 32)
    (busy : ¬slot.Idle) :
    slot.Takes slot.state slot.entry ∧ ¬({} : ParserTcamEntry).Takes slot.state slot.entry := by
  obtain ⟨written, matches_⟩ := not_or.mp busy
  have own : slot.entry &&& slot.mask = slot.entry := not_not.mp matches_
  refine ⟨⟨rfl, own.symm⟩, fun takes => written ?_⟩
  have entry : slot.entry = 0xffffffff := (and_ones words.1).symm.trans takes.2.symm
  rw [entry, Nat.and_comm, and_ones words.2] at own
  obtain ⟨state, _, _⟩ := slot
  simp only at entry own
  rw [entry, own, ← show 0 = state from takes.1]

/-- A new vector with the state and key of a slot. -/
private def phvFor (slot : ParserTcamEntry) : Phv :=
  { Phv.fresh with curState := slot.state, curTransKey := slot.entry }

private theorem phvFor_goesOn (slot : ParserTcamEntry) :
    (phvFor slot).missAct ≠ 1 ∧ (phvFor slot).nextProcId ≠ -1 :=
  ⟨(by decide : 2 ≠ 1), (by decide : (0 : Int) ≠ -1)⟩

private theorem parse_busy {stage : ParserStage} {index : Nat} (inside : index < ParserStage.slots)
    (taken : (stage.transTbl index).Takes (stage.transTbl index).state (stage.transTbl index).entry) :
    parseLevels [stage] (phvFor (stage.transTbl index)) ≠ some (phvFor (stage.transTbl index)) := by
  intro run
  obtain ⟨after, step, ended⟩ := Option.bind_eq_some_iff.mp run
  obtain ⟨hdrId, small, marked⟩ := parse_taken inside taken step
  have same : after = phvFor (stage.transTbl index) := by
    split at ended
    · exact Option.some.inj ended
    · exact Option.some.inj ended
  have bit : ((phvFor (stage.transTbl index)).validBitmap.set hdrId 1)[hdrId]? =
      (phvFor (stage.transTbl index)).validBitmap[hdrId]? := by
    rw [← marked, same]
  have zero : (phvFor (stage.transTbl index)).validBitmap[hdrId]? = some 0 :=
    List.getElem?_replicate_of_lt (by simpa [phvFor, Phv.fresh] using small)
  rw [List.getElem?_set_self small, zero] at bit
  cases bit

private theorem unusedIdle_of_forgets {parser : Parser} (typed : parser.Typed) (forgets : parser.Forgets) :
    parser.UnusedIdle := by
  intro level
  induction level using Nat.strong_induction_on with
  | _ level lower =>
      intro stage notInUse found index inside
      by_contra busy
      obtain ⟨cleared, done⟩ : ∃ cleared, parser.clear = some cleared := ⟨_, if_pos (typed.four ▸ typed.few)⟩
      have kept : cleared.parserLevels[level]? = some stage := by
        rw [clear_level done, if_neg (Nat.not_lt.mpr notInUse), found]
      obtain ⟨low, isStage⟩ := List.getElem?_eq_some_iff.mp kept
      have few : level + 1 ≤ 4 := by
        rw [clear_length done, typed.four] at low
        exact low
      have front : ∀ other ∈ cleared.parserLevels.take level, other.Idle := by
        intro other member
        obtain ⟨place, early, rfl⟩ := List.mem_take_iff_getElem.mp member
        exact cleared_idle (fun before => lower place (by omega) before) done (List.getElem?_eq_getElem _)
      have levels : cleared.parserLevels.take (level + 1) = cleared.parserLevels.take level ++ [stage] := by
        rw [List.take_add_one, kept, Option.toList_some]
      obtain ⟨taken, free⟩ := busy_key (typed.words stage (List.mem_of_getElem? found) index) busy
      have newRun : (Parser.fresh.initParserLevel (level + 1)).parse (phvFor (stage.transTbl index)) =
          some (phvFor (stage.transTbl index)) := by
        rw [parse_init few, ← List.append_nil (List.take _ _),
          parseLevels_idle _ (phvFor_goesOn _) free, parseLevels]
        intro other member
        rw [List.eq_of_mem_replicate (List.mem_of_mem_take member)]
        exact fun _ _ => .inl rfl
      obtain ⟨used, isUsed, refines⟩ := forgets cleared done (level + 1) few [] _ rfl
      cases isUsed
      have run := refines _ _ newRun
      rw [parse_init low, levels, parseLevels_idle front (phvFor_goesOn _) free] at run
      exact parse_busy inside taken run

end Parser

/-- A clear forgets everything exactly when the levels above those in use hold no entry. -/
theorem clear_forgets_iff (parser : Parser) (reached : parser.Reached) : parser.Forgets ↔ parser.UnusedIdle :=
  ⟨Parser.unusedIdle_of_forgets reached.typed, Parser.forgets_of_unusedIdle reached.typed.four⟩

/-- An entry that extracts header 0 in state 0. -/
private def firstHeader : ParserEntry := ⟨0, 0, 0, 0, 112, 1, 0, [], 2⟩

/-- One entry for a level of two, or of fewer. -/
private def oneEntry (level parserLevel : Nat) : Option Parser := do
  let parser ← (Parser.fresh.initParserLevel 2).modifyParserEntryDirect level firstHeader
  return parser.initParserLevel parserLevel

private theorem oneEntry_reached {level parserLevel : Nat} (few : parserLevel ≤ 4) {parser : Parser}
    (made : oneEntry level parserLevel = some parser) : parser.Reached := by
  obtain ⟨middle, entered, made⟩ := Option.bind_eq_some_iff.mp made
  cases made
  have words : firstHeader.entry < 2 ^ 32 ∧ firstHeader.mask < 2 ^ 32 := by decide
  have started : (Parser.fresh.initParserLevel 2).Reached :=
    @Parser.Reached.call _ _ (.initParserLevel 2) .fresh (by decide : 2 ≤ 4) rfl
  have written : middle.Reached :=
    @Parser.Reached.call _ _ (.modifyParserEntryDirect level firstHeader) started words entered
  exact @Parser.Reached.call _ _ (.initParserLevel parserLevel) written few rfl

/-- All entries are in levels that are in use. -/
theorem clear_forgets_used : ∃ parser, oneEntry 1 2 = some parser ∧ parser.Forgets := by
  refine ⟨_, rfl, (clear_forgets_iff _ (@oneEntry_reached 1 2 (by decide) _ rfl)).mpr ?_⟩
  intro level stage notInUse found
  match level, notInUse with
  | 2, _ | 3, _ =>
      cases found
      exact fun _ _ => .inl rfl
  | more + 4, _ => cases found

/-- A level is given up before the clear. -/
theorem not_clear_forgets : ∃ parser, oneEntry 1 1 = some parser ∧ parser.Reached ∧ ¬parser.Forgets := by
  refine ⟨_, rfl, @oneEntry_reached 1 1 (by decide) _ rfl, fun forgets => ?_⟩
  have idle := Parser.unusedIdle_of_forgets (@oneEntry_reached 1 1 (by decide) _ rfl).typed forgets
  have slot := idle 1 _ (by decide) rfl 255 (by decide)
  cases slot with
  | inl unused => exact absurd unused (by decide)
  | inr inert => exact inert (by decide)

end Ipbm.Dataplane
