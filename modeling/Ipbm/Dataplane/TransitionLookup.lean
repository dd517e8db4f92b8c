import Ipbm.Dataplane.ParserSteps
import Mathlib.Data.Finset.Card
import Mathlib.Data.Finset.Range

/-! The transitions of a level. An entry is written at a sum of the bytes of its state and
key, the default of a state at its distance from the end, and the lowest slot is taken. -/

set_option autoImplicit false

namespace Ipbm.Dataplane
open Lib

namespace ParserEntry

/-- Taken by one key. -/
def IsExact (entry : ParserEntry) : Prop := entry.mask = 0xffffffff

/-- Taken by every key of its state. -/
def IsDefault (entry : ParserEntry) : Prop := entry.entry = 0 ∧ entry.mask = 0

end ParserEntry

/-- Entries for one key each and at most one default a state, in any order. -/
structure Transitions (entries : List ParserEntry) : Prop where
  words : ∀ entry ∈ entries, entry.state < 2 ^ 8 ∧ entry.entry < 2 ^ 32
  kinds : ∀ entry ∈ entries, entry.IsExact ∨ entry.IsDefault
  distinct : (entries.map ParserEntry.tcam).Nodup

def lookupTcam (entries : List ParserEntry) (tcam : ParserTcamEntry) : Option ParserEntry :=
  entries.find? fun entry => entry.tcam = tcam

/-- The entry for a key, and else the default of the state. -/
def lookupTransition (entries : List ParserEntry) (state key : Nat) : Option ParserEntry :=
  (lookupTcam entries ⟨state, key, 0xffffffff⟩).or (lookupTcam entries ⟨state, 0, 0⟩)

/-- In this state and with this key a level takes the entry, at the slot it was written to, or misses. -/
def ParserStage.TakesEntry (stage : ParserStage) (state key : Nat) : Option ParserEntry → Prop
  | none => ∀ phv : Phv, phv.curState = state → phv.curTransKey = key → stage.matchIdx phv = none
  | some entry => stage.transTbl entry.slot = entry.tcam ∧ (stage.actTbl entry.slot).Written entry ∧
      ∀ phv : Phv, phv.curState = state → phv.curTransKey = key → stage.matchIdx phv = some entry.slot

/-- Every key takes its transition. -/
def TransitionsFound (stage : ParserStage) (entries : List ParserEntry) : Prop :=
  ∀ state < 2 ^ 8, ∀ key < 2 ^ 32, stage.TakesEntry state key (lookupTransition entries state key)

/-- No slot is written twice, an entry for one key is in front of the default of its state, and no
unused slot is in front of what the key with all bits set takes in state 0. -/
structure Placed (entries : List ParserEntry) : Prop where
  apart : (entries.map ParserEntry.slot).Nodup
  before : ∀ entry ∈ entries, entry.IsExact → ∀ default_ ∈ entries, default_.IsDefault →
    default_.state = entry.state → entry.slot < default_.slot
  full : ∀ index < (lookupTransition entries 0 0xffffffff).elim ParserStage.slots ParserEntry.slot,
    ∃ entry ∈ entries, entry.slot = index

/-! ### What takes a slot -/

private theorem takes_unused {state key : Nat} (word : key < 2 ^ 32) :
    ({} : ParserTcamEntry).Takes state key ↔ state = 0 ∧ key = 0xffffffff := by
  rw [ParserTcamEntry.Takes, and_ones word, eq_comm, @eq_comm _ 0xffffffff]

private theorem takes_exact {entry : ParserEntry} (isExact : entry.IsExact) {state key : Nat}
    (word : key < 2 ^ 32) :
    entry.tcam.Takes state key ↔ entry.tcam = ⟨state, key, 0xffffffff⟩ := by
  have mask : entry.mask = 0xffffffff := isExact
  rw [ParserTcamEntry.Takes, ParserEntry.tcam, ParserTcamEntry.mk.injEq, mask, and_ones word]
  simp

private theorem takes_default {entry : ParserEntry} (isDefault : entry.IsDefault) {state key : Nat} :
    entry.tcam.Takes state key ↔ entry.tcam = ⟨state, 0, 0⟩ := by
  rw [ParserTcamEntry.Takes, ParserEntry.tcam, ParserTcamEntry.mk.injEq, isDefault.1, isDefault.2]
  simp

/-! ### The entries as written -/

section

variable {entries : List ParserEntry}

private theorem Transitions.same_of_tcam (transitions : Transitions entries) {first second : ParserEntry}
    (member : first ∈ entries) (otherMember : second ∈ entries) (same : first.tcam = second.tcam) :
    first = second :=
  List.inj_on_of_nodup_map transitions.distinct member otherMember same

private theorem Transitions.lookupTcam_eq (transitions : Transitions entries) {entry : ParserEntry}
    (member : entry ∈ entries) :
    lookupTcam entries entry.tcam = some entry := by
  cases found : lookupTcam entries entry.tcam with
  | none =>
      have missing := List.find?_eq_none.mp found entry member
      simp at missing
  | some other =>
      have same := List.find?_some found
      rw [transitions.same_of_tcam (List.mem_of_find?_eq_some found) member (of_decide_eq_true same)]

private theorem lookupTcam_some {tcam : ParserTcamEntry} {entry : ParserEntry}
    (found : lookupTcam entries tcam = some entry) :
    entry ∈ entries ∧ entry.tcam = tcam := by
  have same := List.find?_some found
  exact ⟨List.mem_of_find?_eq_some found, of_decide_eq_true same⟩

private theorem lookup_exact (transitions : Transitions entries) {entry : ParserEntry}
    (member : entry ∈ entries) (isExact : entry.IsExact) :
    lookupTransition entries entry.state entry.entry = some entry := by
  have own : entry.tcam = ⟨entry.state, entry.entry,
    0xffffffff⟩ := by rw [← show entry.mask = _ from isExact]; rfl
  rw [lookupTransition, ← own, transitions.lookupTcam_eq member, Option.some_or]

private theorem lookup_default (transitions : Transitions entries) {entry : ParserEntry}
    (member : entry ∈ entries) (isDefault : entry.IsDefault) {key : Nat}
    (free : lookupTcam entries ⟨entry.state, key, 0xffffffff⟩ = none) :
    lookupTransition entries entry.state key = some entry := by
  have own : entry.tcam = ⟨entry.state, 0, 0⟩ := by rw [ParserEntry.tcam, isDefault.1, isDefault.2]
  rw [lookupTransition, free, ← own, transitions.lookupTcam_eq member, Option.none_or]

variable {stage after : ParserStage}

private theorem slot_unused (done : stage.clear.insertAll entries = some after) {index : Nat}
    (unused : ∀ entry ∈ entries, entry.slot ≠ index) : after.transTbl index = {} := by
  have slot := ParserStage.insertAll_slot done index
  have none : lastWhere (fun entry : ParserEntry => entry.slot = index) entries = none :=
    List.find?_eq_none.mpr fun entry member => by simpa using unused entry (List.mem_reverse.mp member)
  rw [none] at slot
  exact slot.1

private theorem slot_used (done : stage.clear.insertAll entries = some after)
    (apart : (entries.map ParserEntry.slot).Nodup) {entry : ParserEntry} (member : entry ∈ entries) :
    after.transTbl entry.slot = entry.tcam ∧ (after.actTbl entry.slot).Written entry := by
  have slot := ParserStage.insertAll_slot done entry.slot
  obtain ⟨last, found⟩ :=
    @lastWhere_isSome _ (fun other : ParserEntry => other.slot = entry.slot) _ _ member (by simp)
  obtain ⟨inside, same⟩ := lastWhere_some found
  rw [found] at slot
  rwa [List.inj_on_of_nodup_map apart inside member (of_decide_eq_true same)] at slot

/-! ### From the places to the transitions -/

/-- What takes a written slot in front of the entry that is looked up has that entry's key, or is a
default. -/
private theorem lookup_of_takes (transitions : Transitions entries) {state key : Nat} (word : key < 2 ^ 32)
    {entry : ParserEntry} (member : entry ∈ entries) (takes : entry.tcam.Takes state key) :
    (entry.IsExact ∧ lookupTransition entries state key = some entry) ∨
      (entry.IsDefault ∧ entry.state = state ∧ ∃ found, lookupTransition entries state key = some found ∧
        (found = entry ∨ found.IsExact ∧ found.state = state)) := by
  cases transitions.kinds entry member with
  | inl isExact =>
      have own := (takes_exact isExact word).mp takes
      left
      refine ⟨isExact, ?_⟩
      rw [lookupTransition, ← own, transitions.lookupTcam_eq member, Option.some_or]
  | inr isDefault =>
      have own := (takes_default isDefault).mp takes
      right
      refine ⟨isDefault, congrArg ParserTcamEntry.state own, ?_⟩
      cases found : lookupTcam entries ⟨state, key, 0xffffffff⟩ with
      | none =>
          exact ⟨entry,
            by rw [lookupTransition, found, ← own, transitions.lookupTcam_eq member, Option.none_or],
            .inl rfl⟩
      | some first =>
          have same := (lookupTcam_some found).2
          exact ⟨first, by rw [lookupTransition, found, Option.some_or],
            .inr ⟨congrArg ParserTcamEntry.mask same, congrArg ParserTcamEntry.state same⟩⟩

private theorem lookup_takes {state key : Nat} (word : key < 2 ^ 32) {entry : ParserEntry}
    (found : lookupTransition entries state key = some entry) :
    entry ∈ entries ∧ entry.tcam.Takes state key := by
  cases Option.or_eq_some_iff.mp found with
  | inl isExact =>
      obtain ⟨member, own⟩ := lookupTcam_some isExact
      exact ⟨member, (takes_exact (congrArg ParserTcamEntry.mask own) word).mpr own⟩
  | inr isDefault =>
      obtain ⟨member, own⟩ := lookupTcam_some isDefault.2
      exact ⟨member,
        (takes_default ⟨congrArg ParserTcamEntry.entry own, congrArg ParserTcamEntry.mask own⟩).mpr own⟩

private theorem front_free (transitions : Transitions entries)
    (done : stage.clear.insertAll entries = some after)
    (placed : Placed entries) {state key : Nat} (word : key < 2 ^ 32) {index : Nat}
    (front : index < (lookupTransition entries state key).elim ParserStage.slots ParserEntry.slot) :
    ¬(after.transTbl index).Takes state key := by
  intro takes
  by_cases used : ∃ entry ∈ entries, entry.slot = index
  · obtain ⟨entry, member, rfl⟩ := used
    rw [(slot_used done placed.apart member).1] at takes
    cases lookup_of_takes transitions word member takes with
    | inl isExact =>
        rw [isExact.2, Option.elim_some] at front
        exact Nat.lt_irrefl _ front
    | inr isDefault =>
        obtain ⟨default_, sameState, found, looked, which⟩ := isDefault
        rw [looked, Option.elim_some] at front
        cases which with
        | inl same => exact Nat.lt_irrefl _ (same ▸ front)
        | inr isExact =>
            have behind := placed.before found (lookup_takes word looked).1 isExact.1 entry member default_
              (sameState.trans isExact.2.symm)
            exact Nat.lt_asymm front behind
  · rw [slot_unused done fun entry member same => used ⟨entry, member, same⟩, takes_unused word] at takes
    obtain ⟨rfl, rfl⟩ := takes
    exact used (placed.full index front)

private theorem transitionsFound_of_placed (transitions : Transitions entries)
    (done : stage.clear.insertAll entries = some after) (placed : Placed entries) :
    TransitionsFound after entries := by
  intro state _ key word
  have free : ∀ index, index < (lookupTransition entries state key).elim ParserStage.slots ParserEntry.slot →
      ¬(after.transTbl index).Takes state key := fun index => front_free transitions done placed word
  cases found : lookupTransition entries state key with
  | none =>
      intro phv sameState sameKey
      rw [found] at free
      subst sameState sameKey
      exact ParserStage.matchIdx_eq_none.mpr free
  | some entry =>
      obtain ⟨member, takes⟩ := lookup_takes word found
      obtain ⟨own, written⟩ := slot_used done placed.apart member
      rw [found] at free
      refine ⟨own, written, fun phv sameState sameKey => ?_⟩
      subst sameState sameKey
      exact ParserStage.matchIdx_eq_some.mpr ⟨entry.slot_lt, own ▸ takes, free⟩

/-! ### From the transitions to the places -/

private theorem free_key (transitions : Transitions entries)
    (found : TransitionsFound after entries) (state : Nat)
    (byte : state < 2 ^ 8) : ∃ key < 2 ^ 32, lookupTcam entries ⟨state, key, 0xffffffff⟩ = none := by
  by_contra all
  push Not at all
  have each : ∀ key ∈ Finset.range (ParserStage.slots + 1), ∃ entry ∈ entries, entry.tcam =
      ⟨state, key, 0xffffffff⟩ := by
    intro key small
    have word : key < 2 ^ 32 := (Finset.mem_range.mp small).trans (by decide)
    obtain ⟨entry, looked⟩ := Option.ne_none_iff_exists'.mp (all key word)
    exact ⟨entry, lookupTcam_some looked⟩
  have : Nonempty ParserEntry := ⟨(each 0 (by simp)).choose⟩
  choose! entryOf member own using each
  obtain ⟨first, firstSmall, second, secondSmall, different, same⟩ :=
    @Finset.exists_ne_map_eq_of_card_lt_of_maps_to _ _ (Finset.range (ParserStage.slots + 1))
      (Finset.range ParserStage.slots) (by simp) (fun key => (entryOf key).slot)
      fun key _ => Finset.mem_range.mpr (entryOf key).slot_lt
  have stored : ∀ key ∈ Finset.range (ParserStage.slots + 1),
      after.transTbl (entryOf key).slot = ⟨state, key, 0xffffffff⟩ := by
    intro key small
    have word : key < 2 ^ 32 := (Finset.mem_range.mp small).trans (by decide)
    have looked : lookupTransition entries state key = some (entryOf key) := by
      rw [lookupTransition, ← own key small, transitions.lookupTcam_eq (member key small), Option.some_or]
    have takes := found state byte key word
    rw [looked] at takes
    exact takes.1.trans (own key small)
  have both :=
    (stored first firstSmall).symm.trans ((congrArg after.transTbl same).trans (stored second secondSmall))
  exact different (congrArg ParserTcamEntry.entry both)

private theorem lookup_own (transitions : Transitions entries)
    (found : TransitionsFound after entries) {entry : ParserEntry}
    (member : entry ∈ entries) : ∃ key < 2 ^ 32, lookupTransition entries entry.state key = some entry := by
  obtain ⟨byte, word⟩ := transitions.words entry member
  cases transitions.kinds entry member with
  | inl isExact => exact ⟨entry.entry, word, lookup_exact transitions member isExact⟩
  | inr isDefault =>
      obtain ⟨key, small, free⟩ := free_key transitions found entry.state byte
      exact ⟨key, small, lookup_default transitions member isDefault free⟩

private theorem slot_found (transitions : Transitions entries)
    (found : TransitionsFound after entries) {entry : ParserEntry}
    (member : entry ∈ entries) : after.transTbl entry.slot = entry.tcam := by
  obtain ⟨key, word, looked⟩ := lookup_own transitions found member
  have takes := found entry.state (transitions.words entry member).1 key word
  rw [looked] at takes
  exact takes.1

/-- A packet header vector in this state, with this key. -/
private def phvAt (state key : Nat) : Phv := { Phv.fresh with curState := state, curTransKey := key }

private theorem free_front (found : TransitionsFound after entries) {state key : Nat} (byte : state < 2 ^ 8)
    (word : key < 2 ^ 32) {index : Nat}
    (front : index < (lookupTransition entries state key).elim ParserStage.slots ParserEntry.slot) :
    ¬(after.transTbl index).Takes state key := by
  have takes := found state byte key word
  cases looked : lookupTransition entries state key with
  | none =>
      rw [looked] at takes front
      exact ParserStage.matchIdx_eq_none.mp (takes (phvAt state key) rfl rfl) index front
  | some entry =>
      rw [looked] at takes front
      exact (ParserStage.matchIdx_eq_some.mp (takes.2.2 (phvAt state key) rfl rfl)).2.2 index front

private theorem placed_of_transitionsFound (transitions : Transitions entries)
    (done : stage.clear.insertAll entries = some after) (found : TransitionsFound after entries) :
    Placed entries := by
  have sameEntry : ∀ first ∈ entries, ∀ second ∈ entries, first.slot = second.slot → first = second := by
    intro first member second otherMember same
    have tcams := (slot_found transitions found member).symm.trans
      ((congrArg after.transTbl same).trans (slot_found transitions found otherMember))
    exact transitions.same_of_tcam member otherMember tcams
  refine ⟨?apart, ?before, ?full⟩
  case apart => exact transitions.distinct.of_map.map_on sameEntry
  case before =>
    intro entry member isExact default_ otherMember isDefault sameState
    obtain ⟨byte, word⟩ := transitions.words entry member
    have free : ∀ index, index < (lookupTransition entries entry.state entry.entry).elim
      ParserStage.slots ParserEntry.slot →
        ¬(after.transTbl index).Takes entry.state entry.entry := fun index => free_front found byte word
    rw [lookup_exact transitions member isExact, Option.elim_some] at free
    by_contra notBehind
    cases Nat.lt_or_eq_of_le (Nat.le_of_not_lt notBehind) with
    | inl front =>
        apply free _ front
        rw [slot_found transitions found otherMember, takes_default isDefault, ParserEntry.tcam,
          sameState, isDefault.1, isDefault.2]
    | inr same =>
        have mask : entry.mask = 0 := sameEntry default_ otherMember entry member same ▸ isDefault.2
        cases mask.symm.trans isExact
  case full =>
    intro index front
    by_contra unused
    apply free_front found (by decide) (by decide) front
    rw [slot_unused done fun entry member same => unused ⟨entry, member, same⟩, takes_unused (by decide)]
    exact ⟨rfl, rfl⟩

end

/-- The transitions of a cleared level are found exactly when their entries have places of their own, in front
of the defaults, and unused slots are out of the way. -/
theorem transitionsFound_iff_placed (stage after : ParserStage) (entries : List ParserEntry)
    (transitions : Transitions entries) (done : stage.clear.insertAll entries = some after) :
    TransitionsFound after entries ↔ Placed entries :=
  ⟨placed_of_transitionsFound transitions done, transitionsFound_of_placed transitions done⟩

/-- An entry that accepts on one key. -/
private def acceptOn (state key : Nat) : ParserEntry := ⟨state, key, 0xffffffff, 0, 0, 0, 0, [], 0⟩

private theorem acceptOn_done {entries : List ParserEntry} (plain : ∀ entry ∈ entries, entry.transFdNum = 0) :
    ∃ after, ({} : ParserStage).clear.insertAll entries = some after :=
  ParserStage.insertAll_isSome.mpr fun entry member => by simp [ParserEntry.Fits, plain entry member]

/-- An entry for the key zero in each state. -/
private def filling : List ParserEntry := (List.range 256).map fun state => acceptOn state 0

private theorem mem_filling {entry : ParserEntry} (member : entry ∈ filling) :
    entry.state < 256 ∧ entry = acceptOn entry.state 0 := by
  obtain ⟨state, small, rfl⟩ := List.mem_map.mp member
  exact ⟨List.mem_range.mp small, rfl⟩

private theorem filling_slot {state : Nat} (small : state < 256) : (acceptOn state 0).slot = state := by
  simp [acceptOn, ParserEntry.slot, ParserStage.entryIdx, Nat.mod_eq_of_lt small]

private theorem filling_nodup : filling.Nodup :=
  List.nodup_range.map fun _ _ same => congrArg ParserEntry.state same

private theorem filling_transitions : Transitions filling where
  words :=
    fun entry member => ⟨(mem_filling member).1, by rw [(mem_filling member).2]; exact Nat.two_pow_pos 32⟩
  kinds := fun entry member => .inl (by rw [(mem_filling member).2]; rfl)
  distinct := filling_nodup.map_on fun first member second otherMember same => by
    have sameState : first.state = second.state := congrArg ParserTcamEntry.state same
    rw [(mem_filling member).2, (mem_filling otherMember).2, sameState]

private theorem filling_placed : Placed filling where
  apart := filling_nodup.map_on fun first member second otherMember same => by
    rw [(mem_filling member).2, (mem_filling otherMember).2, filling_slot (mem_filling member).1,
      filling_slot (mem_filling otherMember).1] at same
    rw [(mem_filling member).2, (mem_filling otherMember).2, same]
  before := by
    intro _ _ _ default_ member isDefault
    rw [(mem_filling member).2] at isDefault
    cases isDefault.2
  full := by
    intro index front
    have small : index < 256 := by
      cases found : lookupTransition filling 0 0xffffffff with
      | none =>
          rw [found] at front
          exact front
      | some entry =>
          rw [found] at front
          exact lt_trans front entry.slot_lt
    exact ⟨acceptOn index 0, List.mem_map_of_mem (List.mem_range.mpr small), filling_slot small⟩

theorem transitionsFound_filling : ∃ after, ({} : ParserStage).clear.insertAll filling = some after ∧
    TransitionsFound after filling := by
  obtain ⟨after, done⟩ := acceptOn_done fun entry member => by rw [(mem_filling member).2]; rfl
  exact ⟨after, done, (transitionsFound_iff_placed {} after filling filling_transitions done).mpr
    filling_placed⟩

private def colliding : List ParserEntry := [acceptOn 0 0x0102, acceptOn 0 0x0201]

/-- Two keys with the same bytes in another order have the same slot. -/
theorem not_transitionsFound : Transitions colliding ∧
      ∃ after, ({} : ParserStage).clear.insertAll colliding = some after ∧
    ¬TransitionsFound after colliding := by
  have transitions : Transitions colliding := by
    refine ⟨?_, ?_, by decide⟩
    · simp [colliding, acceptOn]
    · simp [colliding, acceptOn, ParserEntry.IsExact]
  obtain ⟨after, done⟩ := @acceptOn_done colliding (by simp [colliding, acceptOn])
  refine ⟨transitions, after, done, fun found => ?_⟩
  have placed := placed_of_transitionsFound transitions done found
  exact absurd placed.apart (by decide)

end Ipbm.Dataplane
