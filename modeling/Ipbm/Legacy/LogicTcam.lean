import Mathlib.Data.List.Lattice
import Ipbm.Lib.Records

/-! The logical TCAM table of the first switch (`ipbm-old/src/dataplane/table.h`): entries of a key
and a value, one behind the other in a buffer. What throws or leaves the buffer is `none`. -/

set_option autoImplicit false

namespace Ipbm.Legacy
open Lib

structure LogicTcam where
  keyLen : Nat
  valLen : Nat
  cap : Nat
  size : Nat
  buf : List UInt8
  deriving DecidableEq, Repr

abbrev Entry : Type := List UInt8 × List UInt8

namespace LogicTcam

def entryLen (table : LogicTcam) : Nat := table.keyLen + table.valLen

/-- The buffer holds whatever the memory held. -/
def new (memory : Nat → UInt8) (keyLen valLen cap : Nat) : LogicTcam where
  keyLen := keyLen
  valLen := valLen
  cap := cap
  size := 0
  buf := (List.range ((keyLen + valLen) * cap)).map memory

/-- Where an entry starts in the buffer. -/
def getEntry (table : LogicTcam) (pos : Nat) : Option Nat :=
  if pos < table.cap then some (pos * table.entryLen) else none

def endPos (table : LogicTcam) : Nat := table.size

def insert (table : LogicTcam) (key val : List UInt8) : Option LogicTcam :=
  if table.cap ≤ table.size then
    none
  else do
    let entry ← table.getEntry table.size
    let buf := overwrite table.buf entry (key.take table.keyLen)
    let buf := overwrite buf (entry + table.keyLen) (val.take table.valLen)
    return { table with buf := buf, size := table.size + 1 }

/-- The loop of `match_exact` at `i` with some entries left. -/
def matchFrom (table : LogicTcam) (key : List UInt8) (i : Nat) : Nat → Option Nat
  | 0 => some i
  | left + 1 => do
      let entry ← table.getEntry i
      if slice table.buf entry table.keyLen = key.take table.keyLen then
        return i
      else
        matchFrom table key (i + 1) left

def matchExact (table : LogicTcam) (key : List UInt8) : Option Nat :=
  table.matchFrom key 0 table.size

/-- A negative number of bytes becomes one that no buffer has. The size stays. -/
def erase (table : LogicTcam) (key : List UInt8) : Option LogicTcam := do
  let pos ← table.matchExact key
  let entry ← table.getEntry pos
  let count : Int := table.entryLen * (table.size - pos - 1)
  if count < 0 then
    none
  else
    return { table with
               buf := overwrite table.buf entry (slice table.buf (entry + table.entryLen) count.toNat) }

/-! ### The entries of a table -/

def entryAt (table : LogicTcam) (pos : Nat) : Entry :=
  ((record table.entryLen table.buf pos).take table.keyLen,
    (record table.entryLen table.buf pos).drop table.keyLen)

/-- What the search bound covers. -/
def entries (table : LogicTcam) : List Entry :=
  (List.range table.size).map table.entryAt

structure Valid (table : LogicTcam) : Prop where
  bytes : table.buf.length = table.cap * table.entryLen
  bound : table.size ≤ table.cap

theorem new_valid (memory : Nat → UInt8) (keyLen valLen cap : Nat) :
    (new memory keyLen valLen cap).Valid where
  bytes := by simp [new, entryLen, Nat.mul_comm]
  bound := Nat.zero_le cap

@[simp] theorem length_entries (table : LogicTcam) : table.entries.length = table.size := by
  simp [entries]

variable {table : LogicTcam}

theorem entries_getElem? {pos : Nat} (low : pos < table.size) :
    table.entries[pos]? = some (table.entryAt pos) := by
  rw [entries, List.getElem?_map, List.getElem?_range low, Option.map_some]

private theorem entry_inside (valid : table.Valid) {pos : Nat} (low : pos < table.cap) :
    pos * table.entryLen + table.entryLen ≤ table.buf.length := by
  rw [valid.bytes, ← Nat.succ_mul]
  exact Nat.mul_le_mul_right _ low

theorem length_entryAt (valid : table.Valid) {pos : Nat} (low : pos < table.cap) :
    (table.entryAt pos).1.length = table.keyLen := by
  rw [entryAt, List.length_take, record, length_slice (entry_inside valid low), entryLen]
  omega

theorem length_key (valid : table.Valid) {entry : Entry} (member : entry ∈ table.entries) :
    entry.1.length = table.keyLen := by
  obtain ⟨pos, low, rfl⟩ := List.mem_map.mp member
  exact length_entryAt valid (Nat.lt_of_lt_of_le (List.mem_range.mp low) valid.bound)

private theorem slice_key (pos : Nat) :
    slice table.buf (pos * table.entryLen) table.keyLen = (table.entryAt pos).1 := by
  rw [entryAt, record, slice, slice, List.take_take, entryLen, Nat.min_eq_left (Nat.le_add_right _ _)]

/-- The search stops at the first entry of a key. -/
theorem matchExact_eq (valid : table.Valid) (key : List UInt8) :
    table.matchExact key = some (table.entries.findIdx fun entry => entry.1 = key.take table.keyLen) := by
  have run : ∀ left i, i + left = table.size → table.matchFrom key i left =
      some (i + ((List.range' i left).map table.entryAt).findIdx fun entry =>
          entry.1 = key.take table.keyLen) := by
    intro left
    induction left with
    | zero => exact fun i _ => rfl
    | succ left ih =>
        intro i bound
        have low : i < table.cap := by
          have room := valid.bound
          omega
        rw [matchFrom, getEntry, if_pos low, Option.bind_eq_bind, Option.bind_some, slice_key,
          List.range'_succ, List.map_cons, List.findIdx_cons]
        by_cases same : (table.entryAt i).1 = key.take table.keyLen
        · simp [same]
        · rw [if_neg same, ih (i + 1) (by omega)]
          simp [same]
          omega
  rw [matchExact, run table.size 0 (Nat.zero_add _), Nat.zero_add, ← List.range_eq_range']
  rfl

/-- The table with other entries. -/
structure Holds (table : LogicTcam) (entries : List Entry) (after : LogicTcam) : Prop where
  valid : after.Valid
  entries : after.entries = entries
  keyLen : after.keyLen = table.keyLen
  valLen : after.valLen = table.valLen
  cap : after.cap = table.cap

theorem insert_full (full : table.cap ≤ table.size) (key val : List UInt8) : table.insert key val = none :=
  if_pos full

theorem insert_holds (valid : table.Valid) {key val : List UInt8} (keyLength : key.length = table.keyLen)
    (valLength : val.length = table.valLen) (room : table.size < table.cap) :
    ∃ after, table.insert key val = some after ∧ table.Holds (table.entries ++ [(key, val)]) after := by
  have inside := entry_inside valid room
  have whole : (key ++ val).length = 1 * table.entryLen := by
    rw [List.length_append, keyLength, valLength, Nat.one_mul, entryLen]
  have keyInside : table.size * table.entryLen + key.length ≤ table.buf.length := by
    rw [keyLength]
    unfold entryLen at inside ⊢
    omega
  have bothInside : table.size * table.entryLen + (key ++ val).length ≤ table.buf.length := by
    rw [whole, Nat.one_mul]
    exact inside
  have written : table.insert key val = some
      { table with
          buf := overwrite table.buf (table.size * table.entryLen) (key ++ val), size :=
            table.size + 1 } := by
    have whole_ : val.take table.valLen = val := List.take_of_length_le (Nat.le_of_eq valLength)
    rw [insert, if_neg (Nat.not_le.mpr room), getEntry, if_pos room, ← keyLength, List.take_length, whole_]
    simp only [Option.bind_eq_bind, Option.bind_some, overwrite_overwrite keyInside]
    rfl
  refine ⟨_, written, ?_, ?_, rfl, rfl, rfl⟩
  · exact ⟨(length_overwrite bothInside).trans valid.bytes, room⟩
  · rw [entries, List.range_succ, List.map_append, List.map_singleton]
    congr 1
    · refine List.map_congr_left fun pos member => ?_
      have before := List.mem_range.mp member
      simp only [entryAt, entryLen]
      rw [← entryLen, record_overwrite whole bothInside, if_neg (by omega)]
    · simp only [entryAt, entryLen]
      have alone : record table.entryLen (key ++ val) (table.size - table.size) = key ++ val := by
        rw [Nat.sub_self, record, slice, Nat.zero_mul, List.drop_zero]
        exact List.take_of_length_le (by omega)
      rw [← entryLen, record_overwrite whole bothInside, if_pos (by omega), alone, List.take_left' keyLength,
        List.drop_left' keyLength]

theorem erase_absent {key : List UInt8} (missing : table.matchExact key = some table.size) :
    table.erase key = if table.size < table.cap ∧ table.entryLen = 0 then some table else none := by
  rw [erase, missing]
  simp only [Option.bind_eq_bind, Option.bind_some, getEntry]
  by_cases room : table.size < table.cap
  · have back : ((table.size : Int) - table.size - 1) = -1 := by omega
    rw [if_pos room, Option.bind_some, back]
    by_cases empty : table.entryLen = 0
    · simp [room, empty, slice, overwrite_nil]
    · rw [if_pos (by omega), if_neg (fun both => empty both.2)]
  · rw [if_neg room, if_neg (fun both => room both.1)]
    rfl

private theorem entries_moved {after : LogicTcam} {pos : Nat} (low : pos < table.size)
    (size : after.size = table.size) (place : ∀ i, after.entryAt i = if pos ≤ i ∧
      i + 1 < table.size then table.entryAt (i + 1) else table.entryAt i) :
    after.entries = table.entries.eraseIdx pos ++ table.entries.drop (table.size - 1) := by
  have erased : (table.entries.eraseIdx pos).length = table.size - 1 := by
    rw [List.length_eraseIdx_of_lt (by rw [length_entries]; exact low), length_entries]
  apply List.ext_getElem?
  intro i
  rcases Nat.lt_or_ge i table.size with inside | outside
  · rw [entries_getElem? (size.symm ▸ inside), place]
    rcases Nat.lt_or_ge i (table.size - 1) with kept | last
    · rw [List.getElem?_append_left (by omega), List.getElem?_eraseIdx]
      by_cases before : i < pos
      · rw [if_neg (by omega), if_pos before, entries_getElem? inside]
      · rw [if_pos (by omega), if_neg before, entries_getElem? (by omega)]
    · have isLast : table.size - 1 + (i - (table.size - 1)) = i := by omega
      rw [List.getElem?_append_right (by omega), erased, List.getElem?_drop, isLast,
        if_neg (by omega), entries_getElem? inside]
  · rw [List.getElem?_eq_none, List.getElem?_eq_none]
    · rw [List.length_append, erased, List.length_drop, length_entries]
      omega
    · rw [length_entries, size]
      exact outside

theorem erase_holds (valid : table.Valid) {key : List UInt8} {pos : Nat}
    (found : table.matchExact key = some pos)
    (low : pos < table.size) : ∃ after, table.erase key = some after ∧
      table.Holds (table.entries.eraseIdx pos ++ table.entries.drop (table.size - 1)) after ∧
      after.size = table.size := by
  have bound := valid.bound
  obtain ⟨left, isLeft⟩ : ∃ left, table.size = pos + 1 + left := Nat.exists_eq_add_of_le low
  have count : (table.entryLen : Int) * ((table.size : Int) - pos - 1) = (left * table.entryLen : Nat) := by
    have behind : (table.size : Int) - pos - 1 = left := by omega
    rw [behind, Nat.mul_comm, Int.natCast_mul]
  have notNegative : ¬ (table.entryLen : Int) * ((table.size : Int) - pos - 1) < 0 := by
    rw [count]
    omega
  have source : pos * table.entryLen + table.entryLen = (pos + 1) * table.entryLen := (Nat.succ_mul _ _).symm
  have moved : table.erase key = some { table with
      buf := overwrite table.buf (pos * table.entryLen)
        (slice table.buf ((pos + 1) * table.entryLen) (left * table.entryLen)) } := by
    rw [erase, found]
    simp only [Option.bind_eq_bind, Option.bind_some, getEntry]
    rw [if_pos (Nat.lt_of_lt_of_le low bound), Option.bind_some, if_neg notNegative, count, source]
    rfl
  have bytes := valid.bytes
  have sourceInside : (pos + 1) * table.entryLen + left * table.entryLen ≤ table.buf.length := by
    rw [← Nat.add_mul, ← isLeft, bytes]
    exact Nat.mul_le_mul_right _ bound
  have whole := length_slice sourceInside
  have targetInside : pos * table.entryLen +
      (slice table.buf ((pos + 1) * table.entryLen) (left * table.entryLen)).length ≤ table.buf.length := by
    rw [whole]
    exact Nat.le_trans (Nat.add_le_add_right (Nat.mul_le_mul_right _ (Nat.le_succ pos)) _) sourceInside
  generalize copied : slice table.buf ((pos + 1) * table.entryLen) (left * table.entryLen) =
    records at moved whole targetInside
  have place (i : Nat) :
      LogicTcam.entryAt { table with buf := overwrite table.buf (pos * table.entryLen) records } i =
      if pos ≤ i ∧ i + 1 < table.size then table.entryAt (i + 1) else table.entryAt i := by
    have here := record_overwrite whole targetInside i
    simp only [entryAt, entryLen] at here ⊢
    have same : pos ≤ i ∧ i + 1 < table.size ↔ pos ≤ i ∧ i < pos + left := by omega
    rw [here, if_congr same rfl rfl]
    split
    · next inside =>
        rw [← entryLen, ← copied, record_slice table.buf (pos + 1) (by omega : i - pos < left)]
        have next : pos + 1 + (i - pos) = i + 1 := by omega
        rw [next]
    · rfl
  exact ⟨_, moved, ⟨⟨(length_overwrite targetInside).trans bytes, bound⟩,
    entries_moved low rfl place, rfl, rfl, rfl⟩, rfl⟩

end LogicTcam

end Ipbm.Legacy
