import Ipbm.Dataplane.ExactTable
import Ipbm.Dataplane.ThreadStates

/-! The ternary table. A lookup reads `tmp_mask`, which nothing writes, compares with the stored
masks, and searches every row of one slice, written or not. -/

set_option autoImplicit false

namespace Ipbm.Dataplane
open Lib

structure TernaryEntry where
  key : List UInt8
  mask : List UInt8
  value : List UInt8
  deriving DecidableEq, Repr

/-! ### The table as its callers read it -/

def TernaryEntry.Matches (entry : TernaryEntry) (key : List UInt8) : Prop :=
  List.zipWith (· &&& ·) key entry.mask = entry.key

instance (entry : TernaryEntry) (key : List UInt8) : Decidable (entry.Matches key) :=
  inferInstanceAs (Decidable (_ = _))

/-- The value of the earliest entry that matches. -/
def ternaryLookup (entries : List TernaryEntry) (key : List UInt8) : Option (List UInt8) :=
  (entries.find? fun entry => decide (entry.Matches key)).map TernaryEntry.value

/-- A lookup answers with a value or a miss; the value row may be longer than the value. -/
def Reports (result : Option (Option (List UInt8))) : Option (List UInt8) → Prop
  | none => result = some none
  | some value => ∃ row, result = some (some row) ∧ value <+: row

/-! ### The rows of a slice -/

namespace MatcherThread

/-- A ternary table with keys of a number of bytes. -/
structure TcamSized (thread : MatcherThread) (keyLength : Nat) : Prop where
  ternary : thread.matchType ≠ .exact
  depth : 0 < thread.depth
  keyRoom : thread.keyWidth * thread.depth ≤ tcamNumPerCluster
  keyGiven : thread.keyWidth * thread.depth ≤ thread.keyConfig.length
  valueGiven : thread.valueWidth * thread.depth ≤ thread.valueConfig.length
  keyExist : ∀ entry ∈ thread.keyEntries, entry.toNat < tcamNumPerCluster
  valueExist : ∀ entry ∈ thread.valueEntries, entry.toNat < sramNumPerCluster
  keyDistinct : thread.keyEntries.Nodup
  valueDistinct : thread.valueEntries.Nodup
  keyReaches : (thread.keyWidth - 1) * (tcamWidth / 8) ≤ keyLength
  keyFits : keyLength ≤ thread.keyWidth * (tcamWidth / 8)

def tcamBlocks (thread : MatcherThread) (slice : Nat) : List Nat :=
  (sliceEntries thread.keyEntries thread.keyWidth thread.depth slice).map thread.tcamAddress

/-- No block of the table holds anything, and no row is taken. -/
structure TcamEmpty (memory : Memory) (thread : MatcherThread) : Prop where
  rows : thread.tcamIdx = 0
  mask : ∀ entry ∈ thread.keyEntries, ∀ address, memory.masks (thread.tcamAddress entry) address = 0
  value : ∀ entry ∈ thread.valueEntries, ∀ address, memory.srams (thread.sramAddress entry) address = 0

def insertTernary (state : Memory × MatcherThread) (entry : TernaryEntry) : Option (Memory × MatcherThread) :=
  state.2.insertTcamEntry state.1 entry.key entry.mask entry.value

@[mk_iff entryFits_iff]
structure EntryFits (thread : MatcherThread) (keyLength : Nat) (entry : TernaryEntry) : Prop where
  key : entry.key.length = keyLength
  mask : entry.mask.length = keyLength
  value : thread.ValueFits entry.value

/-- The entry that a slice holds in a row. An entry goes to the slice of its key, taken without its mask. -/
def entryAt (thread : MatcherThread) (entries : List TernaryEntry) (slice row : Nat) : Option TernaryEntry :=
  entries[row]?.filter fun entry => keySum entry.key % thread.depth = slice

/-- A field of the entry in a row, with zeros behind it and in every other row. -/
def rowOf (thread : MatcherThread) (entries : List TernaryEntry) (room : Nat)
    (field : TernaryEntry → List UInt8) (slice row : Nat) : List UInt8 :=
  layOver room (List.replicate room 0) (((thread.entryAt entries slice row).map field).getD [])

theorem rowOf_alone {thread : MatcherThread} {entries : List TernaryEntry} {room slice row : Nat}
    {field : TernaryEntry → List UInt8} :
    thread.rowOf entries room field slice row = thread.rowOf entries[row]?.toList room field slice 0 := by
  have same : entries[row]?.toList[0]? = entries[row]? := by cases entries[row]? <;> rfl
  rw [rowOf, rowOf, entryAt, entryAt, same]

def maskRow (thread : MatcherThread) (entries : List TernaryEntry) : Nat → Nat → List UInt8 :=
  thread.rowOf entries (thread.keyWidth * (tcamWidth / 8)) TernaryEntry.mask

def tcamValueRow (thread : MatcherThread) (entries : List TernaryEntry) : Nat → Nat → List UInt8 :=
  thread.rowOf entries (thread.valueWidth * (sramWidth / 8)) TernaryEntry.value

/-- The table holds its entries in order. -/
structure HoldsEntries (thread : MatcherThread) (entries : List TernaryEntry)
    (state : Memory × MatcherThread) : Prop where
  table : state.2 = { thread with tcamIdx := entries.length }
  mask : ∀ slice < thread.depth, ∀ row < 2 ^ tcamDepth,
    readSlices (tcamWidth / 8) row (thread.tcamBlocks slice) state.1.masks = thread.maskRow entries slice row
  value : ∀ slice < thread.depth, ∀ row < 2 ^ tcamDepth,
    readSlices (sramWidth / 8) row (thread.valueBlocks slice) state.1.srams =
      thread.tcamValueRow entries slice row

section TcamSized

variable {thread : MatcherThread} {keyLength : Nat}

theorem tcamAddress_injective (thread : MatcherThread) : Function.Injective thread.tcamAddress := by
  intro left right same
  exact UInt8.toNat_inj.mp (Nat.add_left_cancel same)

/-- Blocks numbered by a configuration of different entries are striped over the slices. -/
theorem striped_blocks {entries : List UInt8} {address : UInt8 → Nat} {width depth : Nat}
    (injective : Function.Injective address) (distinct : entries.Nodup)
    (room : width * depth = entries.length) :
    Striped (fun slice => (sliceEntries entries width depth slice).map address) depth where
  nodup slice inside := (sliceEntries_nodup distinct inside room).map injective
  disjoint slice inside other otherInside block member otherMember := by
    obtain ⟨entry, inSlice, rfl⟩ := List.mem_map.mp member
    obtain ⟨otherEntry, inOther, same⟩ := List.mem_map.mp otherMember
    rw [injective same] at inOther
    exact sliceEntries_disjoint distinct inside otherInside room inSlice inOther

theorem TcamSized.length_keyEntries (sized : thread.TcamSized keyLength) :
    thread.keyWidth * thread.depth = thread.keyEntries.length := by
  rw [keyEntries, List.length_take, Nat.min_eq_left sized.keyGiven]

theorem TcamSized.length_valueEntries (sized : thread.TcamSized keyLength) :
    thread.valueWidth * thread.depth = thread.valueEntries.length := by
  rw [valueEntries, List.length_take, Nat.min_eq_left sized.valueGiven]

theorem TcamSized.stripedMasks (sized : thread.TcamSized keyLength) :
    Striped thread.tcamBlocks thread.depth :=
  striped_blocks thread.tcamAddress_injective sized.keyDistinct sized.length_keyEntries

theorem TcamSized.stripedValues (sized : thread.TcamSized keyLength) :
    Striped thread.valueBlocks thread.depth :=
  striped_blocks thread.sramAddress_injective sized.valueDistinct sized.length_valueEntries

theorem TcamSized.sliceIdx_eq (sized : thread.TcamSized keyLength) (key : List UInt8) :
    thread.sliceIdx key = some (keySum key % thread.depth) := if_neg sized.depth.ne'

theorem TcamSized.slice_lt (sized : thread.TcamSized keyLength) (key : List UInt8) :
    keySum key % thread.depth < thread.depth := Nat.mod_lt _ sized.depth

theorem TcamSized.tcamKeySeq_eq (sized : thread.TcamSized keyLength) {slice : Nat}
    (inSlice : slice < thread.depth) :
    thread.tcamKeySeq slice = some (thread.tcamBlocks slice) := by
  have front : (thread.keyConfig.take tcamNumPerCluster).take (thread.keyWidth * thread.depth) =
      thread.keyEntries := by
    rw [List.take_take, Nat.min_eq_left sized.keyRoom, keyEntries]
  have room : thread.keyWidth * thread.depth ≤ (thread.keyConfig.take tcamNumPerCluster).length := by
    rw [List.length_take]
    exact Nat.le_min.mpr ⟨sized.keyRoom, sized.keyGiven⟩
  have blocks : thread.tcamKeySeq slice = some _ :=
    blockSeq_eq room inSlice fun entry member => tcamBlock_eq (sized.keyExist entry (front ▸ member))
  rw [blocks, front, tcamBlocks]

theorem TcamSized.sramValueSeq_eq (sized : thread.TcamSized keyLength) {slice : Nat}
    (inSlice : slice < thread.depth) :
    thread.sramValueSeq slice = some (thread.valueBlocks slice) :=
  blockSeq_eq sized.valueGiven inSlice fun entry member => sramBlock_eq (sized.valueExist entry member)

theorem length_tcamBlocks (thread : MatcherThread) (slice : Nat) :
    (thread.tcamBlocks slice).length = thread.keyWidth := by
  simp [tcamBlocks, sliceEntries]

/-! ### Inserting -/

theorem entryAt_concat {entries : List TernaryEntry} {entry : TernaryEntry} {slice row : Nat} :
    thread.entryAt (entries ++ [entry]) slice row =
      if row = entries.length then
        if keySum entry.key % thread.depth = slice then some entry else none
      else
        thread.entryAt entries slice row := by
  unfold entryAt
  split
  case isTrue last =>
    rw [last, List.getElem?_concat_length, Option.filter_some]
    simp only [decide_eq_true_eq]
  case isFalse other =>
    rcases Nat.lt_or_gt_of_ne other with below | above
    · rw [List.getElem?_append_left below]
    · rw [List.getElem?_eq_none (by simp; omega), List.getElem?_eq_none (by omega)]

theorem entryAt_beyond {entries : List TernaryEntry} {slice row : Nat} (beyond : entries.length ≤ row) :
    thread.entryAt entries slice row = none := by
  rw [entryAt, List.getElem?_eq_none beyond]
  rfl

/-- A row that was written over a row of zeros. -/
theorem rowOf_concat {entries : List TernaryEntry} {entry : TernaryEntry} {room slice row : Nat}
    {field : TernaryEntry → List UInt8} :
    thread.rowOf (entries ++ [entry]) room field slice row =
      if slice = keySum entry.key % thread.depth ∧ row = entries.length then
        layOver room (thread.rowOf entries room field slice row) (field entry)
      else
        thread.rowOf entries room field slice row := by
  unfold rowOf
  rw [entryAt_concat]
  by_cases last : row = entries.length
  · rw [if_pos last, entryAt_beyond (Nat.le_of_eq last.symm)]
    by_cases inSlice : slice = keySum entry.key % thread.depth
    · rw [if_pos inSlice.symm, if_pos ⟨inSlice, last⟩]
      simp [layOver]
    · rw [if_neg (Ne.symm inSlice), if_neg fun both => inSlice both.1]
  · rw [if_neg last, if_neg fun both => last both.2]

theorem TcamSized.holds_nothing (sized : thread.TcamSized keyLength) {memory : Memory}
    (empty : TcamEmpty memory thread) :
    HoldsEntries thread [] (memory, thread) := by
  have zeros (room : Nat) (field : TernaryEntry → List UInt8) (slice row : Nat) :
      thread.rowOf [] room field slice row = List.replicate room 0 := by
    rw [rowOf, entryAt_beyond (Nat.zero_le row)]
    simp [layOver]
  refine ⟨?_, fun slice inSlice row _ => ?_, fun slice inSlice row _ => ?_⟩
  · rw [List.length_nil, ← empty.rows]
  · rw [maskRow, zeros, ← thread.length_tcamBlocks slice]
    apply readSlices_zero
    intro block member index _
    obtain ⟨entry, inEntries, rfl⟩ := List.mem_map.mp member
    exact empty.mask entry (sliceEntries_mem inSlice sized.length_keyEntries inEntries) _
  · rw [tcamValueRow, zeros, ← thread.length_valueBlocks slice]
    apply readSlices_zero
    intro block member index _
    obtain ⟨entry, inEntries, rfl⟩ := List.mem_map.mp member
    exact empty.value entry (sliceEntries_mem inSlice sized.length_valueEntries inEntries) _

private theorem rowOf_written {selections : Nat → List Nat} {unit room : Nat} {banks after : Banks}
    {field : TernaryEntry → List UInt8} {entries : List TernaryEntry} {entry : TernaryEntry}
    (striped : Striped selections thread.depth) (length : ∀ slice, (selections slice).length * unit = room)
    (held : ∀ slice < thread.depth, ∀ row < 2 ^ tcamDepth,
      readSlices unit row (selections slice) banks = thread.rowOf entries room field slice row)
    (inSlice : keySum entry.key % thread.depth < thread.depth)
    (written : writeSlices unit entries.length (field entry) 0
      (selections (keySum entry.key % thread.depth)) banks =
      some after) :
    ∀ slice < thread.depth, ∀ row < 2 ^ tcamDepth,
      readSlices unit row (selections slice) after =
        thread.rowOf (entries ++ [entry]) room field slice row := by
  intro slice inside row below
  rw [rowOf_concat, striped.readSlices_written inSlice written inside, length]
  split
  case isTrue here => rw [← held slice inside row below, here.1, here.2]
  case isFalse => exact held slice inside row below

/-- An insert takes the next row. -/
theorem TcamSized.insertTernary_holds (sized : thread.TcamSized keyLength) {entries : List TernaryEntry}
    {state : Memory × MatcherThread} {entry : TernaryEntry} (holds : HoldsEntries thread entries state)
    (fits : EntryFits thread keyLength entry) (room : entries.length < 2 ^ tcamDepth) :
    ∃ after, insertTernary state entry = some after ∧ HoldsEntries thread (entries ++ [entry]) after := by
  obtain ⟨memory, current⟩ := state
  obtain ⟨rfl, masks, values⟩ := holds
  have inSlice := sized.slice_lt entry.key
  have reaches {data : List UInt8} (long : data.length = keyLength) :
      (0 + (thread.tcamBlocks (keySum entry.key % thread.depth)).length - 1) * (tcamWidth / 8) ≤
          data.length := by
    rw [length_tcamBlocks, Nat.zero_add, long]
    exact sized.keyReaches
  have valueReaches : (0 + (thread.valueBlocks (keySum entry.key % thread.depth)).length - 1) *
      (sramWidth / 8) ≤ entry.value.length := by
    rw [length_valueBlocks, Nat.zero_add]
    exact fits.value.1
  obtain ⟨tcams, keyWritten⟩ := writeSlices_isSome _ entries.length 0 _ _ memory.tcams (reaches fits.key)
  obtain ⟨newMasks, maskWritten⟩ := writeSlices_isSome _ entries.length 0 _ _ memory.masks (reaches fits.mask)
  obtain ⟨srams, valueWritten⟩ := writeSlices_isSome _ entries.length 0 _ _ memory.srams valueReaches
  refine ⟨(⟨srams, tcams, newMasks⟩, { thread with tcamIdx := entries.length + 1 }), ?_, ?_, ?_, ?_⟩
  · have slice : ({ thread with tcamIdx := entries.length } : MatcherThread).sliceIdx entry.key = _ :=
      sized.sliceIdx_eq entry.key
    have keys : ({ thread with tcamIdx := entries.length } : MatcherThread).tcamKeySeq _ = _ :=
      sized.tcamKeySeq_eq inSlice
    have values : ({ thread with tcamIdx := entries.length } : MatcherThread).sramValueSeq _ = _ :=
      sized.sramValueSeq_eq inSlice
    have sameLength : entry.mask.take entry.key.length = entry.mask :=
      List.take_of_length_le (by rw [fits.key, fits.mask])
    have fit : entry.key.length ≤ entry.mask.length := by rw [fits.key, fits.mask]
    have valueRoom : entries.length < 2 ^ sramDepth := room
    simp only [insertTernary, insertTcamEntry, slice, keys, values, room, fit, valueRoom, and_self,
      or_true, if_true, sameLength, keyWritten, maskWritten, valueWritten, Option.bind_eq_bind,
      Option.bind_some, Option.pure_def]
  · rw [List.length_append, List.length_singleton]
  · exact rowOf_written sized.stripedMasks (fun slice => by rw [length_tcamBlocks]) masks inSlice maskWritten
  · exact rowOf_written sized.stripedValues
      (fun slice => by rw [length_valueBlocks]) values inSlice valueWritten

theorem TcamSized.insertAll_holds (sized : thread.TcamSized keyLength) {memory : Memory}
    (empty : TcamEmpty memory thread) {entries : List TernaryEntry}
    (fits : ∀ entry ∈ entries, EntryFits thread keyLength entry)
    (room : entries.length ≤ 2 ^ tcamDepth) :
    ∃ after, entries.foldlM insertTernary (memory, thread) = some after ∧
      HoldsEntries thread entries after := by
  apply foldlM_runs_along (HoldsEntries thread)
  · intro done entry state within holds
    have below : done.length < entries.length := by
      have length := within.length_le
      rwa [List.length_append, List.length_singleton] at length
    exact sized.insertTernary_holds holds (fits entry (within.subset (by simp)))
      (Nat.lt_of_lt_of_le below room)
  · exact sized.holds_nothing empty

/-- The entry behind the last row writes past the blocks. -/
theorem TcamSized.insertAll_full (sized : thread.TcamSized keyLength) (keyed : 0 < keyLength)
    {memory : Memory} (empty : TcamEmpty memory thread) {entries : List TernaryEntry}
    (fits : ∀ entry ∈ entries, EntryFits thread keyLength entry)
    (full : 2 ^ tcamDepth < entries.length) : entries.foldlM insertTernary (memory, thread) = none := by
  obtain ⟨after, inserted, holds⟩ := @insertAll_holds _ _ sized _ empty (entries.take (2 ^ tcamDepth))
    (fun entry member => fits entry (List.mem_of_mem_take member)) (List.length_take_le ..)
  have rows : after.2.tcamIdx = 2 ^ tcamDepth := by
    rw [holds.table, List.length_take, Nat.min_eq_left full.le]
  rw [← List.take_append_drop (2 ^ tcamDepth) entries, List.foldlM_append, inserted,
    List.drop_eq_getElem_cons full]
  change (insertTernary after _).bind _ = none
  cases done : insertTernary after entries[2 ^ tcamDepth] with
  | none => rfl
  | some next =>
      obtain ⟨slice, keySeq, _, _, keys, _, room, _⟩ := insertTcamEntry_some done
      rw [holds.table] at keys
      have width : keySeq.length = thread.keyWidth := (length_of_mapM_some keys).trans List.length_range
      have wide : thread.keyWidth ≠ 0 := by
        intro none
        have fits := sized.keyFits
        rw [none, Nat.zero_mul] at fits
        omega
      rcases room with none | ⟨below, _⟩
      · rw [none] at width
        exact absurd width.symm wide
      · omega

/-! ### Looking up -/

theorem maskedSameKey_eq {scratch : Nat → UInt8} {key row : List UInt8}
    (fits : key.length ≤ row.length) (index : Nat) :
    maskedSameKey scratch index key row =
      some (decide (key.mapIdx (fun offset byte => byte &&& scratch (index + offset)) =
        row.take key.length)) := by
  induction key generalizing row index with
  | nil => simp [maskedSameKey]
  | cons byte key ih =>
      cases row with
      | nil => simp at fits
      | cons other row =>
          have short : key.length ≤ row.length := by simpa using fits
          have later := ih short (index + 1)
          by_cases same : byte &&& scratch index = other
          · simp [maskedSameKey, same, later, List.mapIdx_cons, Nat.add_comm, Nat.add_left_comm]
          · simp [maskedSameKey, same, List.mapIdx_cons]

theorem findRow_eq_find? {rowMatches : Nat → Option Bool} {accepts : Nat → Bool} {rows : List Nat}
    (each : ∀ row ∈ rows, rowMatches row = some (accepts row)) :
    findRow rowMatches rows = some (rows.find? accepts) := by
  induction rows with
  | nil => rfl
  | cons row rest ih =>
      rw [findRow, each row List.mem_cons_self, List.find?_cons]
      cases accepts row with
      | true => rfl
      | false => exact ih fun other member => each other (List.mem_cons_of_mem _ member)

/-- The comparison that a lookup makes in a row: the key under whatever `tmp_mask` holds, with the
stored mask. -/
def RowAccepts (thread : MatcherThread) (entries : List TernaryEntry) (scratch : Nat → UInt8)
    (key : List UInt8) (row : Nat) : Prop :=
  key.mapIdx (fun index byte => byte &&& scratch index) =
    (thread.maskRow entries (keySum key % thread.depth) row).take key.length

instance (thread : MatcherThread) (entries : List TernaryEntry) (scratch : Nat → UInt8)
    (key : List UInt8) (row : Nat) :
    Decidable (thread.RowAccepts entries scratch key row) := inferInstanceAs (Decidable (_ = _))

theorem getMatchRes_ternary {memory : Memory} {scratch : Nat → UInt8} {key : List UInt8} {slice : Nat}
    {keySeq valueSeq : List Nat} {found : Option Nat} (ternary : thread.matchType ≠ .exact)
    (isSlice : thread.sliceIdx key = some slice) (keys : thread.tcamKeySeq slice = some keySeq)
    (values : thread.sramValueSeq slice = some valueSeq)
    (searched : findRow (fun row => maskedSameKey scratch 0 key
      (readSlices (tcamWidth / 8) row keySeq memory.masks))
      (List.range (2 ^ tcamDepth)) = some found) :
    thread.getMatchRes memory scratch key =
      some (found.map fun row => readSlices (sramWidth / 8) row valueSeq memory.srams) := by
  unfold getMatchRes
  cases type : thread.matchType with
  | exact => exact absurd type ternary
  | ternary | lpm =>
      simp only [isSlice, keys, values, searched, Option.bind_eq_bind, Option.bind_some, Option.pure_def]

theorem TcamSized.getMatchRes_eq (sized : thread.TcamSized keyLength) {entries : List TernaryEntry}
    {state : Memory × MatcherThread} (holds : HoldsEntries thread entries state)
    (scratch : Nat → UInt8) {key : List UInt8} (length : key.length = keyLength) :
    state.2.getMatchRes state.1 scratch key = some
      (((List.range (2 ^ tcamDepth)).find? fun row => decide (thread.RowAccepts entries scratch key row)).map
        fun row => thread.tcamValueRow entries (keySum key % thread.depth) row) := by
  obtain ⟨memory, current⟩ := state
  obtain ⟨rfl, masks, values⟩ := holds
  have inSlice := sized.slice_lt key
  have compared : ∀ row ∈ List.range (2 ^ tcamDepth),
      maskedSameKey scratch 0 key (readSlices (tcamWidth / 8) row
        (thread.tcamBlocks (keySum key % thread.depth)) memory.masks) =
        some (decide (thread.RowAccepts entries scratch key row)) := by
    intro row member
    have width : key.length ≤
        (readSlices (tcamWidth / 8) row (thread.tcamBlocks (keySum key % thread.depth))
            memory.masks).length := by
      rw [length_readSlices, length_tcamBlocks, length]
      exact sized.keyFits
    rw [maskedSameKey_eq width 0, masks _ inSlice row (List.mem_range.mp member)]
    exact congrArg some (decide_eq_decide.mpr (by simp only [Nat.zero_add, RowAccepts]))
  have ternary : ({ thread with tcamIdx := entries.length } : MatcherThread).matchType ≠ .exact :=
    sized.ternary
  rw [getMatchRes_ternary ternary (sized.sliceIdx_eq key) (sized.tcamKeySeq_eq inSlice)
    (sized.sramValueSeq_eq inSlice) (findRow_eq_find? compared)]
  refine congrArg some (Option.map_congr fun row found => ?_)
  exact values _ inSlice row (List.mem_range.mp (List.mem_of_find?_eq_some found))

/-- The comparison in a row is the one with the row's own entry alone, or without entries behind the
last one. -/
theorem rowAccepts_iff {entries : List TernaryEntry} {scratch : Nat → UInt8} {key : List UInt8} {row : Nat} :
    thread.RowAccepts entries scratch key row ↔ thread.RowAccepts entries[row]?.toList scratch key 0 := by
  rw [RowAccepts, RowAccepts, maskRow, maskRow, rowOf_alone]

/-- The first row that accepts the key has the expected value, or no row accepts it and none should. -/
def FirstRowRight (thread : MatcherThread) (entries : List TernaryEntry) (scratch : Nat → UInt8)
    (key : List UInt8) :
    Option (List UInt8) → Prop
  | none => ∀ row < 2 ^ tcamDepth, ¬ thread.RowAccepts entries scratch key row
  | some value => ∃ row < 2 ^ tcamDepth, thread.RowAccepts entries scratch key row ∧
      (∀ earlier < row, ¬ thread.RowAccepts entries scratch key earlier) ∧
      value <+: thread.tcamValueRow entries (keySum key % thread.depth) row

/-- Every entry that accepts the key has the expected value. If there is none, the rows behind the
entries have it, or do not accept the key either and nothing is expected. -/
def RightInAnyOrder (thread : MatcherThread) (entries : List TernaryEntry) (scratch : Nat → UInt8)
    (key : List UInt8) (expected : Option (List UInt8)) : Prop :=
  (∀ entry ∈ entries, thread.RowAccepts [entry] scratch key 0 → ∃ value ∈ expected,
    value <+: thread.tcamValueRow [entry] (keySum key % thread.depth) 0) ∧
  ((∀ entry ∈ entries, ¬ thread.RowAccepts [entry] scratch key 0) →
    if entries.length < 2 ^ tcamDepth ∧ thread.RowAccepts [] scratch key 0 then
      ∃ value ∈ expected, value <+: thread.tcamValueRow [] (keySum key % thread.depth) 0
    else
      expected = none)

instance (thread : MatcherThread) (entries : List TernaryEntry) (scratch : Nat → UInt8) (key : List UInt8)
    (expected : Option (List UInt8)) : Decidable (thread.RightInAnyOrder entries scratch key expected) :=
  inferInstanceAs (Decidable (_ ∧ _))

section AnyOrder

variable {entries : List TernaryEntry} {scratch : Nat → UInt8} {key : List UInt8} {expected :
  Option (List UInt8)}

private theorem rowAccepts_entry {row : Nat} (inside : row < entries.length) :
    thread.RowAccepts entries scratch key row ↔ thread.RowAccepts [entries[row]] scratch key 0 := by
  rw [rowAccepts_iff, List.getElem?_eq_getElem inside]
  rfl

private theorem rowAccepts_beyond {row : Nat} (beyond : entries.length ≤ row) :
    thread.RowAccepts entries scratch key row ↔ thread.RowAccepts [] scratch key 0 := by
  rw [rowAccepts_iff, List.getElem?_eq_none beyond]
  rfl

private theorem FirstRowRight.value (right : thread.FirstRowRight entries scratch key expected) {row : Nat}
    (below : row < 2 ^ tcamDepth) (accepts : thread.RowAccepts entries scratch key row)
    (first : ∀ earlier < row, ¬ thread.RowAccepts entries scratch key earlier) :
    ∃ value, expected = some value ∧
      value <+: thread.tcamValueRow entries[row]?.toList (keySum key % thread.depth) 0 := by
  cases expected with
  | none => exact absurd accepts (right row below)
  | some value =>
      obtain ⟨other, _, otherAccepts, otherFirst, isPrefix⟩ := right
      have same : other = row := by
        rcases Nat.lt_trichotomy other row with earlier | rfl | later
        · exact absurd otherAccepts (first other earlier)
        · rfl
        · exact absurd accepts (otherFirst row later)
      rw [same, tcamValueRow, rowOf_alone] at isPrefix
      exact ⟨value, rfl, isPrefix⟩

private theorem FirstRowRight.of_value {row : Nat} (below : row < 2 ^ tcamDepth)
    (accepts : thread.RowAccepts entries scratch key row)
    (first : ∀ earlier < row, ¬ thread.RowAccepts entries scratch key earlier)
    (right : ∃ value, expected = some value ∧
      value <+: thread.tcamValueRow entries[row]?.toList (keySum key % thread.depth) 0) :
    thread.FirstRowRight entries scratch key expected := by
  obtain ⟨value, rfl, isPrefix⟩ := right
  refine ⟨row, below, accepts, first, ?_⟩
  rw [tcamValueRow, rowOf_alone]
  exact isPrefix

/-- Any entry can come first. -/
theorem rightInAnyOrder_iff (room : entries.length ≤ 2 ^ tcamDepth) :
    (∀ order : List TernaryEntry, order.Perm entries → thread.FirstRowRight order scratch key expected) ↔
      thread.RightInAnyOrder entries scratch key expected := by
  constructor
  · intro right
    constructor
    · intro entry member accepts
      have front := right (entry :: entries.erase entry) (List.perm_cons_erase member).symm
      exact @FirstRowRight.value _ _ _ _ _ front 0 (Nat.two_pow_pos _)
        ((rowAccepts_entry (by simp)).mpr accepts)
        fun _ below => absurd below (Nat.not_lt_zero _)
    · intro noEntry
      have noRow : ∀ row < entries.length, ¬ thread.RowAccepts entries scratch key row :=
        fun row inside accepts =>
        noEntry _ (List.getElem_mem inside) ((rowAccepts_entry inside).mp accepts)
      split
      · next both =>
          have behind :=
            (right entries (.refl entries)).value both.1 ((rowAccepts_beyond le_rfl).mpr both.2) noRow
          rwa [List.getElem?_eq_none le_rfl] at behind
      · next neither =>
          cases expected with
          | none => rfl
          | some value =>
              obtain ⟨row, below, accepts, _⟩ := right entries (.refl entries)
              have beyond : entries.length ≤ row := Nat.le_of_not_lt fun inside => noRow row inside accepts
              exact absurd ⟨lt_of_le_of_lt beyond below, (rowAccepts_beyond beyond).mp accepts⟩ neither
  · rintro ⟨listed, behind⟩ order perm
    have length := perm.length_eq
    by_cases any : ∃ row, row < 2 ^ tcamDepth ∧ thread.RowAccepts order scratch key row
    · have first : ∀ earlier < Nat.find any, ¬ thread.RowAccepts order scratch key earlier :=
        fun earlier below accepts =>
        Nat.find_min any below ⟨below.trans (Nat.find_spec any).1, accepts⟩
      obtain ⟨below, accepts⟩ := Nat.find_spec any
      refine FirstRowRight.of_value below accepts first ?_
      by_cases inside : Nat.find any < order.length
      · rw [List.getElem?_eq_getElem inside]
        exact listed _ (perm.mem_iff.mp (List.getElem_mem inside)) ((rowAccepts_entry inside).mp accepts)
      · have beyond := Nat.le_of_not_lt inside
        have noEntry : ∀ entry ∈ entries, ¬ thread.RowAccepts [entry] scratch key 0 := by
          intro entry member alone
          obtain ⟨row, position, rfl⟩ := List.mem_iff_getElem.mp (perm.mem_iff.mpr member)
          exact first row (by omega) ((rowAccepts_entry position).mpr alone)
        have value := behind noEntry
        rw [if_pos ⟨by omega, (rowAccepts_beyond beyond).mp accepts⟩] at value
        rwa [List.getElem?_eq_none beyond]
    · have noRow : ∀ row < 2 ^ tcamDepth, ¬ thread.RowAccepts order scratch key row :=
        fun row below accepts =>
        any ⟨row, below, accepts⟩
      have noEntry : ∀ entry ∈ entries, ¬ thread.RowAccepts [entry] scratch key 0 := by
        intro entry member alone
        obtain ⟨row, position, rfl⟩ := List.mem_iff_getElem.mp (perm.mem_iff.mpr member)
        exact noRow row (by omega) ((rowAccepts_entry position).mpr alone)
      have value := behind noEntry
      rw [if_neg fun both => noRow order.length (by omega) ((rowAccepts_beyond le_rfl).mpr both.2)] at value
      rw [value]
      exact noRow

end AnyOrder

theorem TcamSized.reports_iff (sized : thread.TcamSized keyLength) {entries : List TernaryEntry}
    {state : Memory × MatcherThread} (holds : HoldsEntries thread entries state)
    (scratch : Nat → UInt8) {key : List UInt8} (length : key.length = keyLength)
    (expected : Option (List UInt8)) :
    Reports (state.2.getMatchRes state.1 scratch key) expected ↔
      thread.FirstRowRight entries scratch key expected := by
  rw [sized.getMatchRes_eq holds scratch length]
  cases expected with
  | none => simp [Reports, FirstRowRight]
  | some value =>
      constructor
      · intro ⟨row, answered, isPrefix⟩
        obtain ⟨index, found, rfl⟩ := Option.map_eq_some_iff.mp (Option.some.inj answered)
        obtain ⟨accepts, inside, earlier⟩ := List.find?_range_eq_some.mp found
        refine ⟨index, List.mem_range.mp inside, of_decide_eq_true accepts, fun other below => ?_, isPrefix⟩
        simpa using earlier other below
      · intro ⟨index, inside, accepts, earlier, isPrefix⟩
        refine ⟨_, congrArg some (Option.map_eq_some_iff.mpr ⟨index, ?_, rfl⟩), isPrefix⟩
        refine List.find?_range_eq_some.mpr ⟨decide_eq_true accepts, List.mem_range.mpr inside,
          fun other below => ?_⟩
        simpa using earlier other below

end TcamSized

end MatcherThread

open MatcherThread in
/-- A lookup returns the value of the earliest matching entry, or misses without one, exactly when
the first row that accepts the key under `tmp_mask` says so. -/
theorem ternary_lookup_iff {memory : Memory} {thread : MatcherThread} {keyLength : Nat}
    {entries : List TernaryEntry} (sized : thread.TcamSized keyLength) (empty : TcamEmpty memory thread)
    (fits : ∀ entry ∈ entries, EntryFits thread keyLength entry) (room : entries.length ≤ 2 ^ tcamDepth) :
    ∃ after, entries.foldlM insertTernary (memory, thread) = some after ∧
      ∀ (scratch : Nat → UInt8) (key : List UInt8), key.length = keyLength →
        (Reports (after.2.getMatchRes after.1 scratch key) (ternaryLookup entries key) ↔
          thread.FirstRowRight entries scratch key (ternaryLookup entries key)) := by
  obtain ⟨after, inserted, holds⟩ := sized.insertAll_holds empty fits room
  exact ⟨after, inserted, fun scratch key length => sized.reports_iff holds scratch length _⟩

/-- A ternary table of one key block and one value block. -/
def ternaryThread : MatcherThread where
  procId := 0
  noTable := false
  keyWidth := 1
  valueWidth := 1
  depth := 1
  matchType := .ternary

theorem ternaryThread_sized : ternaryThread.TcamSized 1 :=
  ⟨by decide, by decide, by decide, by decide, by decide, by decide +kernel, by decide +kernel,
    by decide, by decide, by decide, by decide⟩

theorem ternaryThread_empty : MatcherThread.TcamEmpty Memory.fresh ternaryThread :=
  ⟨rfl, fun _ _ _ => rfl, fun _ _ _ => rfl⟩

def ternaryEntry (key mask value : UInt8) : List TernaryEntry := [⟨[key], [mask], [value]⟩]

theorem ternaryEntry_fits (key mask value : UInt8) :
    ∀ entry ∈ ternaryEntry key mask value, MatcherThread.EntryFits ternaryThread 1 entry := by
  intro entry member
  cases List.mem_singleton.mp member
  exact ⟨rfl, rfl, Nat.zero_le _, by simp [ternaryThread, sramWidth]⟩

/-- One entry for other keys, and two that both match 255. -/
def severalEntries : List TernaryEntry := [⟨[16], [240], [5]⟩, ⟨[255], [255], [7]⟩, ⟨[240], [240], [9]⟩]

/-- A key that equals its entry's mask is found while `tmp_mask` has no zeros. -/
theorem ternary_lookup_full :
    ∃ after, severalEntries.foldlM MatcherThread.insertTernary (Memory.fresh, ternaryThread) = some after ∧
      Reports (after.2.getMatchRes after.1 (fun _ => 255) [255]) (ternaryLookup severalEntries [255]) := by
  have fits : ∀ entry ∈ severalEntries, MatcherThread.EntryFits ternaryThread 1 entry := by
    simp [severalEntries, MatcherThread.entryFits_iff, MatcherThread.ValueFits, ternaryThread, sramWidth]
  obtain ⟨after, inserted, answers⟩ :=
    ternary_lookup_iff ternaryThread_sized ternaryThread_empty fits (by decide)
  refine ⟨after, inserted, (answers (fun _ => 255) [255] rfl).mpr
    ⟨1, by decide, by decide, fun row below => ?_, by decide⟩⟩
  rw [Nat.lt_one_iff.mp below]
  decide

/-- With a cleared `tmp_mask` the row behind the only entry accepts another key. -/
theorem not_ternary_lookup_other :
    ∃ after, (ternaryEntry 1 255 7).foldlM MatcherThread.insertTernary (Memory.fresh,
      ternaryThread) = some after ∧
      ¬ Reports (after.2.getMatchRes after.1 (fun _ => 0) [2]) (ternaryLookup
        (ternaryEntry 1 255 7) [2]) := by
  obtain ⟨after, inserted, holds⟩ :=
    ternaryThread_sized.insertAll_holds ternaryThread_empty (ternaryEntry_fits 1 255 7) (by decide)
  refine ⟨after, inserted, fun answers => ?_⟩
  have missed : ternaryLookup (ternaryEntry 1 255 7) [2] = none := by decide
  rw [missed] at answers
  exact (ternaryThread_sized.reports_iff holds _ rfl none).mp answers 1 (by decide) (by decide)

end Ipbm.Dataplane
