import Ipbm.Dataplane.RunProperties
import Ipbm.Lib.Overrides

/-! One step of a parser level: the slot it takes, the header it extracts, and how the packet
goes on. -/

set_option autoImplicit false

namespace Ipbm.Dataplane
open Lib

/-- The slot is taken in this state by this key. -/
def ParserTcamEntry.Takes (slot : ParserTcamEntry) (state key : Nat) : Prop :=
  slot.state = state ∧ slot.entry = key &&& slot.mask

instance (slot : ParserTcamEntry) (state key : Nat) : Decidable (slot.Takes state key) :=
  inferInstanceAs (Decidable (_ ∧ _))

namespace ParserSramEntry

/-- What a matched entry leaves before it ends the packet or goes on. -/
def extract (entry : ParserSramEntry) (phv : Phv) : Option Phv := do
  let hdrId ← entry.hdrId
  let hdrLen ← entry.hdrLen
  let validBitmap ← setAt phv.validBitmap hdrId 1
  let parsedHeaders ← setAt phv.parsedHeaders hdrId ⟨hdrId, phv.curOffset, hdrLen⟩
  let curState ← entry.nextState
  let missAct ← entry.missAct
  return { phv with
    validBitmap, parsedHeaders, curState, missAct
    curOffset := (phv.curOffset + hdrLen) % 2 ^ 16 }

def transKey (entry : ParserSramEntry) (phv : Phv) : Option Nat := do
  let transFdNum ← entry.transFdNum
  if transFdNum ≤ transFdCapacity then
    ((List.range transFdNum).map entry.transFds).foldlM (ParserStage.transKeyStep phv) 0
  else
    none

def finish (entry : ParserSramEntry) (phv : Phv) : Option Phv :=
  if phv.missAct = 0 then
    some phv
  else if phv.missAct = 1 then
    ParserStage.drop phv
  else do
    let transFdNum ← entry.transFdNum
    if transFdNum ≤ transFdCapacity then
      let curTransKey ← ((List.range transFdNum).map entry.transFds).foldlM (ParserStage.transKeyStep phv) 0
      return { phv with curTransKey }
    else
      none

theorem finish_goesOn {entry : ParserSramEntry} {phv : Phv} (noAccept : phv.missAct ≠ 0)
    (noDrop : phv.missAct ≠ 1) :
    entry.finish phv = (entry.transKey phv).map fun curTransKey => { phv with curTransKey } := by
  rw [finish, if_neg noAccept, if_neg noDrop, transKey]
  cases entry.transFdNum with
  | none => rfl
  | some count =>
      by_cases fits : count ≤ transFdCapacity
      · simp [fits, Option.map_eq_bind]
      · simp [fits]

theorem extract_iff {entry : ParserSramEntry} {phv middle : Phv} :
    entry.extract phv = some middle ↔ ∃ hdrId hdrLen curState missAct, entry.hdrId = some hdrId ∧
      entry.hdrLen = some hdrLen ∧ entry.nextState = some curState ∧ entry.missAct = some missAct ∧
      hdrId < phv.validBitmap.length ∧ hdrId < phv.parsedHeaders.length ∧
      middle = { phv with
        curState, missAct
        validBitmap := phv.validBitmap.set hdrId 1
        parsedHeaders := phv.parsedHeaders.set hdrId ⟨hdrId, phv.curOffset, hdrLen⟩
        curOffset := (phv.curOffset + hdrLen) % 2 ^ 16 } := by
  constructor
  · intro run
    obtain ⟨hdrId, isHeader, run⟩ := Option.bind_eq_some_iff.mp run
    obtain ⟨hdrLen, isLength, run⟩ := Option.bind_eq_some_iff.mp run
    obtain ⟨validBitmap, marked, run⟩ := Option.bind_eq_some_iff.mp run
    obtain ⟨parsedHeaders, placed, run⟩ := Option.bind_eq_some_iff.mp run
    obtain ⟨curState, isState, run⟩ := Option.bind_eq_some_iff.mp run
    obtain ⟨missAct, isAct, run⟩ := Option.bind_eq_some_iff.mp run
    obtain ⟨insideBits, rfl⟩ := setAt_eq_some_iff.mp marked
    obtain ⟨insideHeaders, rfl⟩ := setAt_eq_some_iff.mp placed
    cases run
    exact ⟨hdrId, hdrLen, curState, missAct, isHeader, isLength, isState, isAct, insideBits,
      insideHeaders, rfl⟩
  · intro parts
    obtain ⟨hdrId, hdrLen, curState, missAct, isHeader, isLength, isState, isAct, insideBits,
        insideHeaders, rfl⟩ :=
      parts
    simp [extract, isHeader, isLength, isState, isAct, setAt, insideBits, insideHeaders]

end ParserSramEntry

namespace ParserStage

/-- A drop writes to the packet only. -/
theorem drop_eq {phv after : Phv} (done : drop phv = some after) :
    ∃ packet, after = { phv with packet, nextProcId := -1 } := by
  obtain ⟨_, _, done⟩ := Option.bind_eq_some_iff.mp done
  obtain ⟨_, _, done⟩ := Option.bind_eq_some_iff.mp done
  obtain ⟨⟨packet, _⟩, _, done⟩ := Option.bind_eq_some_iff.mp done
  cases done
  exact ⟨packet, rfl⟩

/-- Behind the extraction only the packet, the key and the next processor change. -/
theorem finish_keeps {entry : ParserSramEntry} {middle after : Phv}
    (done : entry.finish middle = some after) :
    ∃ packet curTransKey nextProcId, after = { middle with packet, curTransKey, nextProcId } := by
  rw [ParserSramEntry.finish] at done
  split at done
  · cases done
    exact ⟨_, _, _, rfl⟩
  · split at done
    · obtain ⟨packet, rfl⟩ := drop_eq done
      exact ⟨packet, _, _, rfl⟩
    · obtain ⟨transFdNum, _, done⟩ := Option.bind_eq_some_iff.mp done
      obtain ⟨_, done⟩ := Option.ite_none_right_eq_some.mp done
      obtain ⟨curTransKey, _, done⟩ := Option.bind_eq_some_iff.mp done
      cases done
      exact ⟨_, curTransKey, _, rfl⟩

theorem matchIdx_eq_none {stage : ParserStage} {phv : Phv} : stage.matchIdx phv = none ↔
    ∀ index < slots, ¬(stage.transTbl index).Takes phv.curState phv.curTransKey := by
  simp [matchIdx, List.find?_eq_none, ParserTcamEntry.Takes]

/-- The lowest slot that is taken. -/
theorem matchIdx_eq_some {stage : ParserStage} {phv : Phv} {index : Nat} : stage.matchIdx phv = some index ↔
    index < slots ∧ (stage.transTbl index).Takes phv.curState phv.curTransKey ∧
      ∀ other < index, ¬(stage.transTbl other).Takes phv.curState phv.curTransKey := by
  rw [matchIdx, List.find?_range_eq_some, List.mem_range, decide_eq_true_eq, and_left_comm]
  simp only [Bool.not_eq_true', decide_eq_false_iff_not, ParserTcamEntry.Takes]

theorem parse_miss {stage : ParserStage} {phv : Phv} (missed : stage.matchIdx phv = none) :
    stage.parse phv = if phv.missAct = 1 then drop phv else some phv := by
  rw [parse, missed]

theorem parse_hit {stage : ParserStage} {phv : Phv} {index : Nat} (found : stage.matchIdx phv = some index) :
    stage.parse phv = ((stage.actTbl index).extract phv).bind (stage.actTbl index).finish := by
  rw [parse, found]
  simp only [ParserSramEntry.extract, ParserSramEntry.finish, Option.bind_eq_bind, Option.bind_assoc,
    Option.pure_def, Option.bind_some]

end ParserStage

/-- A mask with all bits set keeps a word. -/
theorem and_ones {word : Nat} (small : word < 2 ^ 32) : word &&& 0xffffffff = word := by
  rw [show 0xffffffff = 2 ^ 32 - 1 from rfl, Nat.and_two_pow_sub_one_eq_mod, Nat.mod_eq_of_lt small]

/-! ### Entries written one after the other -/

namespace ParserEntry

def slot (entry : ParserEntry) : Nat := ParserStage.entryIdx entry.state entry.entry entry.mask

def tcam (entry : ParserEntry) : ParserTcamEntry := ⟨entry.state, entry.entry, entry.mask⟩

/-- The array of transition fields holds the entry's, and they are all there. -/
def Fits (entry : ParserEntry) : Prop :=
  entry.transFdNum ≤ transFdCapacity ∧ entry.transFdNum ≤ entry.transFds.length

theorem slot_lt (entry : ParserEntry) : entry.slot < ParserStage.slots := by
  unfold slot ParserStage.entryIdx ParserStage.slots
  split <;> exact Nat.mod_lt _ (by decide)

end ParserEntry

/-- A slot has the action of an entry. Transition fields behind its own are not looked at. -/
structure ParserSramEntry.Written (act : ParserSramEntry) (entry : ParserEntry) : Prop where
  hdrId : act.hdrId = some entry.hdrId
  hdrLen : act.hdrLen = some entry.hdrLen
  nextState : act.nextState = some entry.nextState
  transFdNum : act.transFdNum = some entry.transFdNum
  missAct : act.missAct = some entry.missAct
  transFds : ∀ place < entry.transFdNum, act.transFds place = entry.transFds.getD place {}

namespace ParserStage

def insertAll (stage : ParserStage) (entries : List ParserEntry) : Option ParserStage :=
  entries.foldlM modifyTransEntry stage

theorem modifyTransEntry_isSome {stage : ParserStage} {entry : ParserEntry} :
    (∃ after, stage.modifyTransEntry entry = some after) ↔ entry.Fits := by
  simp only [modifyTransEntry, Option.ite_none_right_eq_some]
  exact ⟨fun ⟨_, fits, _⟩ => fits, fun fits => ⟨_, fits, rfl⟩⟩

/-- An entry changes its own slot only. -/
theorem modifyTransEntry_slot {stage after : ParserStage} {entry : ParserEntry}
    (done : stage.modifyTransEntry entry = some after) :
    after.transTbl entry.slot = entry.tcam ∧ (after.actTbl entry.slot).Written entry ∧
      ∀ index, index ≠ entry.slot → after.transTbl index = stage.transTbl index ∧
        after.actTbl index = stage.actTbl index := by
  obtain ⟨_, done⟩ := Option.ite_none_right_eq_some.mp done
  cases done
  refine ⟨Function.update_self _ _ _, ?_,
    fun index other => ⟨Function.update_of_ne other _ _, Function.update_of_ne other _ _⟩⟩
  simp only [ParserEntry.slot, Function.update_self]
  exact ⟨rfl, rfl, rfl, rfl, rfl, fun place low => if_pos low⟩

theorem insertAll_append {stage after : ParserStage} {entries : List ParserEntry} {entry : ParserEntry} :
    stage.insertAll (entries ++ [entry]) = some after ↔
      ∃ middle, stage.insertAll entries = some middle ∧ middle.modifyTransEntry entry = some after := by
  simp [insertAll, List.foldlM_append, Option.bind_eq_some_iff]

theorem insertAll_isSome {stage : ParserStage} {entries : List ParserEntry} :
    (∃ after, stage.insertAll entries = some after) ↔ ∀ entry ∈ entries, entry.Fits := by
  induction entries generalizing stage with
  | nil => simp [insertAll]
  | cons entry entries ih =>
      have split : (∃ after, stage.insertAll (entry :: entries) = some after) ↔
          ∃ middle, stage.modifyTransEntry entry = some middle ∧
              ∃ after, middle.insertAll entries = some after := by
        simp only [insertAll, List.foldlM_cons, Option.bind_eq_bind, Option.bind_eq_some_iff]
        exact exists_comm.trans (exists_congr fun _ => exists_and_left)
      rw [split, List.forall_mem_cons, ← @modifyTransEntry_isSome stage]
      simp only [ih, exists_and_right]

/-- A slot has the entry written to it last, or what it had before. -/
theorem insertAll_slot {stage after : ParserStage} {entries : List ParserEntry}
    (done : stage.insertAll entries = some after)
    (index : Nat) : match lastWhere (fun entry : ParserEntry => entry.slot = index) entries with
      | some entry => after.transTbl index = entry.tcam ∧ (after.actTbl index).Written entry
      | none => after.transTbl index = stage.transTbl index ∧ after.actTbl index = stage.actTbl index := by
  induction entries using List.reverseRecOn generalizing after with
  | nil =>
      cases done
      exact ⟨rfl, rfl⟩
  | append_singleton entries entry ih =>
      obtain ⟨middle, before, last⟩ := insertAll_append.mp done
      obtain ⟨own, written, others⟩ := modifyTransEntry_slot last
      rw [lastWhere_append]
      by_cases here : entry.slot = index
      · subst here
        simp only [lastWhere, List.reverse_singleton, List.find?_singleton, decide_true,
          if_pos, Option.some_or]
        exact ⟨own, written⟩
      · obtain ⟨sameTcam, sameAct⟩ := others index (Ne.symm here)
        have kept := ih before
        simp only [lastWhere, List.reverse_singleton, List.find?_singleton, here, decide_false,
          Bool.false_eq_true, if_false, Option.none_or, sameTcam, sameAct] at kept ⊢
        exact kept

end ParserStage

end Ipbm.Dataplane
