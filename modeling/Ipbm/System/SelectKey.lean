import Ipbm.Controller.ExtractConfig
import Ipbm.Dataplane.ParserSteps

/-! Select keys from the compiler to the test of a level. The compiler sends the key as it
is written and its mask, and the level masks the value it compares, not the key. -/

set_option autoImplicit false

namespace Ipbm.System
open Dataplane Compiler Controller

/-- A key and its mask as a slot has them. -/
def sentTcam (state : Nat) (key : Key) : Option Dataplane.ParserTcamEntry :=
  key.getMask.map fun mask => ⟨state, wrap 32 key.getKey, wrap 32 mask⟩

/-- What a key says about a value. -/
def MatchesKey (value : Nat) : Key → Prop
  | .exact key => value = wrap 32 key
  | .ternary key mask => value &&& wrap 32 mask = wrap 32 key &&& wrap 32 mask
  | .lpm key prelen => value / 2 ^ (32 - prelen).toNat = wrap 32 key / 2 ^ (32 - prelen).toNat
  | .default => True

/-- The key has a mask, and the values that take its slot are those that match it. -/
def KeepsMeaning (state : Nat) (key : Key) : Prop :=
  ∃ tcam, sentTcam state key = some tcam ∧ ∀ value < 2 ^ 32, tcam.Takes state value ↔ MatchesKey value key

/-- The key has no bits outside its mask, and a prefix has at least one bit. -/
def InMask : Key → Prop
  | .exact _ | .default => True
  | .ternary key mask => wrap 32 key &&& wrap 32 mask = wrap 32 key
  | .lpm key prelen => (1 ≤ prelen ∧ prelen ≤ 32) ∧ 2 ^ (32 - prelen).toNat ∣ wrap 32 key

/-- The slot of a compiled entry. -/
theorem buildEntry_sent {manager : HeaderManager} {states : List StateDef} {state : Nat}
    {transition : TransitionEntry} {entry : LevelEntry}
    (built : LevelManager.buildEntry manager states state transition = some entry) :
    sentTcam (wrap 8 state) transition.key = some (modParserEntry entry).tcam := by
  obtain ⟨mask, isMask, built⟩ := Option.bind_eq_some_iff.mp built
  rw [sentTcam, isMask, Option.map_some]
  split at built
  · obtain ⟨next, _, built⟩ := Option.bind_eq_some_iff.mp built
    obtain ⟨action, _, built⟩ := Option.bind_eq_some_iff.mp built
    cases built
    rfl
  · cases built
    rfl

private theorem and_leadingMask {value count : Nat} (word : value < 2 ^ 32) (few : count ≤ 32) :
    value &&& wrap 32 (-2 ^ count) = value / 2 ^ count * 2 ^ count := by
  have powers : 2 ^ (32 - count) * 2 ^ count = 2 ^ 32 := by rw [← Nat.pow_add, Nat.sub_add_cancel few]
  have mask : wrap 32 (-2 ^ count) = (2 ^ (32 - count) - 1) <<< count := by
    have positive := Nat.two_pow_pos count
    have small : 2 ^ count ≤ 2 ^ 32 := Nat.pow_le_pow_right (by decide) few
    rw [Nat.shiftLeft_eq, Nat.sub_mul, powers, Nat.one_mul]
    have cast : (-2 ^ count : Int) = -((2 ^ count : Nat) : Int) := by push_cast; rfl
    rw [wrap, cast]
    omega
  apply Nat.eq_of_testBit_eq
  intro bit
  rw [mask, ← Nat.shiftRight_eq_div_pow, ← Nat.shiftLeft_eq, Nat.testBit_and, Nat.testBit_shiftLeft,
    Nat.testBit_shiftLeft, Nat.testBit_shiftRight, Nat.testBit_two_pow_sub_one]
  by_cases low : count ≤ bit
  · rw [Nat.add_sub_cancel' low]
    by_cases high : bit < 32
    · have inside : bit - count < 32 - count := by omega
      simp [low, inside]
    · have zero : value.testBit bit = false :=
        Nat.testBit_lt_two_pow (word.trans_le (Nat.pow_le_pow_right (by decide) (Nat.le_of_not_lt high)))
      simp [zero]
  · simp [low]

private theorem keepsMeaning_iff {state : Nat} {key : Key} {mask : Int} (isMask : key.getMask = some mask)
    (own : MatchesKey (wrap 32 key.getKey) key)
    (masked : ∀ value < 2 ^ 32, MatchesKey value key ↔
      value &&& wrap 32 mask = wrap 32 key.getKey &&& wrap 32 mask) :
    KeepsMeaning state key ↔ wrap 32 key.getKey &&& wrap 32 mask = wrap 32 key.getKey := by
  have sent : sentTcam state key = some ⟨state, wrap 32 key.getKey, wrap 32 mask⟩ := by
    rw [sentTcam, isMask, Option.map_some]
  constructor
  · rintro ⟨tcam, isTcam, same⟩
    cases sent.symm.trans isTcam
    exact ((same _ (wrap_lt 32 _)).mpr own).2.symm
  · intro inMask
    refine ⟨_, sent, fun value small => ?_⟩
    rw [masked value small, inMask]
    exact ⟨fun takes => takes.2.symm, fun same => ⟨rfl, same.symm⟩⟩

/-- A select key keeps its meaning exactly when the compiler had nothing to mask. -/
theorem selectKey_iff (state : Nat) (key : Key) : KeepsMeaning state key ↔ InMask key := by
  cases key with
  | exact key =>
      have all : KeepsMeaning state (.exact key) ↔ wrap 32 key &&& wrap 32 (-1) = wrap 32 key :=
        @keepsMeaning_iff state (.exact key) (-1) rfl rfl fun value small => by
          rw [show wrap 32 (-1) = 0xffffffff from rfl, and_ones small, Key.getKey, and_ones (wrap_lt 32 key)]
          exact Iff.rfl
      rw [all]
      exact ⟨fun _ => trivial, fun _ => and_ones (wrap_lt 32 key)⟩
  | ternary key mask => exact @keepsMeaning_iff state (.ternary key mask) mask rfl rfl fun _ _ => Iff.rfl
  | default =>
      have all : KeepsMeaning state .default ↔ wrap 32 0 &&& wrap 32 0 = wrap 32 0 :=
        @keepsMeaning_iff state .default 0 rfl trivial fun value _ => by simp [MatchesKey, Key.getKey, wrap]
      rw [all]
      exact ⟨fun _ => trivial, fun _ => rfl⟩
  | lpm key prelen =>
      by_cases bits : 1 ≤ prelen ∧ prelen ≤ 32
      · have few : (32 - prelen).toNat ≤ 32 := by omega
        have all : KeepsMeaning state (.lpm key prelen) ↔
            wrap 32 key &&& wrap 32 (-2 ^ (32 - prelen).toNat) = wrap 32 key :=
          @keepsMeaning_iff state (.lpm key prelen) _ (if_pos bits) rfl fun value small => by
            rw [and_leadingMask small few, Key.getKey, and_leadingMask (wrap_lt 32 key) few,
              Nat.mul_left_inj (Nat.two_pow_pos _).ne']
            exact Iff.rfl
        rw [all, and_leadingMask (wrap_lt 32 key) few, InMask, and_iff_right bits]
        exact ⟨fun same => ⟨_, by rw [Nat.mul_comm]; exact same.symm⟩, Nat.div_mul_cancel⟩
      · constructor
        · rintro ⟨tcam, sent, _⟩
          rw [sentTcam, Key.getMask, if_neg bits] at sent
          cases sent
        · exact fun inMask => absurd inMask.1 bits

/-- `3 &&& 2` matches two and three, and no value takes its slot. -/
theorem not_keepsMeaning : ¬KeepsMeaning 0 (.ternary 3 2) := by
  rintro ⟨tcam, sent, same⟩
  cases sent
  exact absurd ((same 3 (by decide)).mpr rfl) (by decide)

end Ipbm.System
