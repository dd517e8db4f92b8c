import Ipbm.Dataplane.Matcher

/-! The block copies of an insert. The loop runs over the blocks of the table and cuts the record
into pieces of a row, with signed lengths. -/

set_option autoImplicit false

namespace Ipbm.Dataplane
open Lib

/-- The length of a copy, as an `int`. -/
def copyLength (unit byteLen index : Nat) : Int :=
  if (byteLen : Int) - index * unit ≥ unit then unit else byteLen - index * unit

/-- The copies of a record of `byteLen` bytes to a number of blocks. -/
structure CopiesInRange (unit blocks byteLen : Nat) : Prop where
  nonneg : ∀ index < blocks, 0 ≤ copyLength unit byteLen index
  inRow : ∀ index < blocks, copyLength unit byteLen index ≤ unit
  inRecord : ∀ index < blocks, index * unit + copyLength unit byteLen index ≤ byteLen
  once : ∀ byte < byteLen, ∃! index, index < blocks ∧ index * unit ≤ byte ∧
    (byte : Int) < index * unit + copyLength unit byteLen index

theorem copyLength_le (unit byteLen index : Nat) : copyLength unit byteLen index ≤ unit := by
  unfold copyLength
  split <;> omega

theorem copyLength_inRecord (unit byteLen index : Nat) :
    index * unit + copyLength unit byteLen index ≤ byteLen := by
  unfold copyLength
  split <;> omega

theorem copyLength_nonneg {unit byteLen index : Nat} :
    0 ≤ copyLength unit byteLen index ↔ index * unit ≤ byteLen := by
  unfold copyLength
  split <;> omega

/-- A byte lies in the piece that its number divided by the row size says. -/
theorem copied_iff {unit byteLen byte : Nat} (positive : 0 < unit) (inside : byte < byteLen) {index : Nat} :
    index * unit ≤ byte ∧ (byte : Int) < index * unit + copyLength unit byteLen index ↔
      index = byte / unit := by
  have next : (index + 1) * unit = index * unit + unit := Nat.succ_mul ..
  have cut : (byte : Int) < index * unit + copyLength unit byteLen index ↔ byte < (index + 1) * unit := by
    unfold copyLength
    split <;> omega
  rw [cut, eq_comm, Nat.div_eq_iff positive]
  omega

/-- The record must reach into the last block and end there. -/
theorem copiesInRange_iff {unit blocks byteLen : Nat} (positive : 0 < unit) :
    CopiesInRange unit blocks byteLen ↔ (blocks - 1) * unit ≤ byteLen ∧ byteLen ≤ blocks * unit := by
  constructor
  · intro range
    constructor
    · cases blocks with
      | zero => simp
      | succ count => exact copyLength_nonneg.mp (range.nonneg count (Nat.lt_succ_self count))
    · by_contra long
      obtain ⟨index, ⟨inside, copied⟩, _⟩ := range.once (blocks * unit) (Nat.lt_of_not_le long)
      rw [(copied_iff positive (Nat.lt_of_not_le long)).mp copied, Nat.mul_div_cancel _ positive] at inside
      exact Nat.lt_irrefl _ inside
  · intro ⟨reaches, fits⟩
    refine ⟨fun index inside => copyLength_nonneg.mpr ?_, fun index _ => copyLength_le ..,
      fun index _ => copyLength_inRecord .., fun byte inside =>
        ⟨byte / unit, ⟨?_, (copied_iff positive inside).mpr rfl⟩, fun index copied => ?_⟩⟩
    · exact Nat.le_trans (Nat.mul_le_mul_right unit (Nat.le_sub_one_of_lt inside)) reaches
    · exact Nat.div_lt_of_lt_mul (by rw [Nat.mul_comm]; exact Nat.lt_of_lt_of_le inside fits)
    · exact (copied_iff positive inside).mp copied.2

/-- A write goes through when no copy has a negative length. -/
theorem writeSlices_iff_copies {unit row : Nat} {data : List UInt8} {selected : List Nat} {banks : Banks} :
    (∃ after, writeSlices unit row data 0 selected banks = some after) ↔
      ∀ index < selected.length, 0 ≤ copyLength unit data.length index := by
  suffices general : ∀ start : Nat, (∃ after, writeSlices unit row data start selected banks = some after) ↔
      ∀ index < selected.length, (start + index) * unit ≤ data.length by
    rw [general 0]
    simp only [Nat.zero_add, copyLength_nonneg]
  intro start
  induction selected generalizing start banks with
  | nil => simp [writeSlices]
  | cons bank rest ih =>
      rw [writeSlices]
      split
      case isTrue here =>
        rw [ih]
        constructor
        · intro later index inside
          cases index with
          | zero => exact here
          | succ index =>
              have room := later index (Nat.lt_of_succ_lt_succ inside)
              rwa [Nat.add_right_comm, Nat.add_assoc] at room
        · intro all index inside
          have room := all (index + 1) (Nat.succ_lt_succ inside)
          rwa [← Nat.add_assoc, Nat.add_right_comm] at room
      case isFalse beyond =>
        refine ⟨fun written => ?_, fun all => absurd (all 0 (Nat.succ_pos _)) beyond⟩
        obtain ⟨after, written⟩ := written
        cases written

end Ipbm.Dataplane
