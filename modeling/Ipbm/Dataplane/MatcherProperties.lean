import Ipbm.Dataplane.Matcher
import Ipbm.Dataplane.KeyPackerProperties
import Mathlib.Data.List.GetD
import Mathlib.Data.List.Nodup

/-! What a match field contributes to a key, and what a table answers after an
entry has been written to it. -/

set_option autoImplicit false

namespace Ipbm.Dataplane
open Lib

namespace MatcherThread

theorem emptyBits_eq {bits : Nat} : emptyBits bits = padding bits := by
  unfold emptyBits padding bytesFor
  split <;> omega

theorem fieldByte_eq (packet : List UInt8) (start index : Nat)
    (inside : start / 8 + index + 1 < packet.length) :
    fieldByte packet start index = some (u8 (bitSlice packet (start + 8 * index) 8)) := by
  have slice := bitSlice_bytes packet (start / 8 + index) (start % 8) inside (Nat.mod_lt _ (by decide))
  rw [show 8 * (start / 8 + index) + start % 8 = start + 8 * index by omega] at slice
  rw [fieldByte, List.getElem?_eq_getElem (Nat.lt_of_succ_lt inside),
    List.getElem?_eq_getElem inside, slice, u8_mod]
  rfl

private theorem shifted_byte_bits (packet : List UInt8) (start index emptyLen : Nat)
    (inside : start / 8 + index < packet.length) (within : start % 8 ≤ emptyLen) (small : emptyLen ≤ 8) :
    (u8 (packet[start / 8 + index].toNat <<< (start % 8))).toNat >>> emptyLen =
      bitSlice packet (start + 8 * index) (8 - emptyLen) := by
  have slice := bitSlice_byte packet (start / 8 + index) (start % 8) (8 - emptyLen) inside (by omega)
  have gap : 8 - (start % 8 + (8 - emptyLen)) = emptyLen - start % 8 := by omega
  have byteBits : (256 : Nat) = 2 ^ emptyLen * 2 ^ (8 - emptyLen) := by
    rw [← Nat.pow_add, Nat.add_sub_cancel' small]
  have shifts : 2 ^ emptyLen = 2 ^ (emptyLen - start % 8) * 2 ^ (start % 8) := by
    rw [← Nat.pow_add, Nat.sub_add_cancel within]
  rw [show 8 * (start / 8 + index) + start % 8 = start + 8 * index by omega, gap] at slice
  rw [slice, toNat_u8, Nat.shiftRight_eq_div_pow, Nat.shiftLeft_eq, byteBits,
    Nat.mod_mul_right_div_self, shifts, Nat.mul_div_mul_right _ _ (Nat.two_pow_pos _)]

/-- The last byte read holds the field's remaining bits, followed by bits of no meaning. -/
theorem lastFieldByte_bits (packet : List UInt8) (start index emptyLen : Nat) (small : emptyLen < 8)
    (inside : start + 8 * index + (8 - emptyLen) ≤ 8 * packet.length) :
    ∃ last, lastFieldByte packet start (emptyBits (start + 8 * index + (8 - emptyLen))) index = some last ∧
      last.toNat >>> emptyLen = bitSlice packet (start + 8 * index) (8 - emptyLen) := by
  unfold lastFieldByte emptyBits
  by_cases straddles : 8 ≤ start % 8 + (if (start + 8 * index + (8 - emptyLen)) % 8 = 0 then 0
      else 8 - (start + 8 * index + (8 - emptyLen)) % 8)
  · have next : start / 8 + index + 1 < packet.length := by
      split at straddles <;> omega
    have byteBound : bitSlice packet (start + 8 * index) 8 < 256 := bitSlice_lt _ _ 8
    have split := bitSlice_split packet (start + 8 * index) (8 - emptyLen) emptyLen (by omega)
    rw [Nat.sub_add_cancel small.le] at split
    refine ⟨_, (if_pos straddles).trans (fieldByte_eq packet start index next), ?_⟩
    rw [toNat_u8, Nat.mod_eq_of_lt byteBound, split, Nat.shiftRight_eq_div_pow, Nat.mul_comm,
      Nat.mul_add_div (Nat.two_pow_pos _), Nat.div_eq_of_lt (bitSlice_lt _ _ _), Nat.add_zero]
  · have here : start / 8 + index < packet.length := by omega
    have within : start % 8 ≤ emptyLen := by
      split at straddles <;> omega
    rw [if_neg straddles, List.getElem?_eq_getElem here]
    exact ⟨_, rfl, shifted_byte_bits packet start index emptyLen here within small.le⟩

/-- A field that lies in the packet is read as its bits, left-aligned. -/
theorem getField_eq {fd : FieldInfo} {phv : Phv} {hi : HeaderInfo}
    (kind : fd.fdType ≠ .valid) (header : phv.parsedHeaders[fd.hdrId]? = some hi)
    (positive : 0 < fd.fdLen)
    (inside : hi.hdrOffset + fd.internalOffset + fd.fdLen ≤ 8 * phv.packet.length) :
    getField fd phv = some (keyInfoOf fd.fdLen
      (bitSlice phv.packet (hi.hdrOffset + fd.internalOffset) fd.fdLen)) := by
  obtain ⟨front, bytes⟩ : ∃ front, bytesFor fd.fdLen = front + 1 :=
    ⟨bytesFor fd.fdLen - 1, by unfold bytesFor; omega⟩
  obtain ⟨emptyLen, small, width⟩ : ∃ emptyLen, emptyLen < 8 ∧ fd.fdLen = 8 * front + (8 - emptyLen) :=
    ⟨8 * (front + 1) - fd.fdLen, by unfold bytesFor at bytes; omega, by unfold bytesFor at bytes; omega⟩
  have empty : emptyBits fd.fdLen = emptyLen := by
    rw [emptyBits_eq, padding, bytes]
    omega
  generalize startEq : hi.hdrOffset + fd.internalOffset = start at inside
  have fields : (List.range front).mapM (fieldByte phv.packet start) =
      some (beBytes front (bitSlice phv.packet start (8 * front))) := by
    rw [← map_bitSlice_range _ _ _ (by omega)]
    apply mapM_eq_some_map
    intro index member
    have bound := List.mem_range.mp member
    exact fieldByte_eq phv.packet start index (by omega)
  obtain ⟨last, read, bits⟩ := lastFieldByte_bits phv.packet start front emptyLen small (by omega)
  have value := bitSlice_split phv.packet start (8 * front) (8 - emptyLen) (by omega)
  have lastBound := bitSlice_lt phv.packet (start + 8 * front) (8 - emptyLen)
  have wholeByte : 2 ^ (8 - emptyLen) * 2 ^ emptyLen = 256 := by
    rw [← Nat.pow_add, Nat.sub_add_cancel small.le]
  have assembled : beBytes (front + 1) (bitSlice phv.packet start fd.fdLen * 2 ^ emptyLen) =
      beBytes front (bitSlice phv.packet start (8 * front)) ++
          [u8 (last.toNat >>> emptyLen <<< emptyLen)] := by
    rw [← beBytes_append, toNat_u8, Nat.shiftLeft_eq, bits, width, value, Nat.add_mul, Nat.mul_assoc,
      wholeByte, Nat.mod_eq_of_lt]
    rw [← wholeByte]
    exact Nat.mul_lt_mul_of_pos_right lastBound (Nat.two_pow_pos _)
  rw [Nat.add_assoc, ← width] at read
  rw [getField, if_neg kind, header]
  simp only [Option.bind_eq_bind, Option.bind_some, bytes, startEq, read, fields, empty, ← assembled]
  rw [keyInfoOf, ← emptyBits_eq, empty, bytes]
  rfl

/-- Blocks a record of a number of bits occupies. -/
def slicesFor (bits : Nat) : Nat := (bits + sramWidth - 1) / sramWidth

/-- The key and value blocks the thread is configured with, as configuration entries. -/
def keyEntries (thread : MatcherThread) : List UInt8 :=
  thread.keyConfig.take (thread.keyWidth * thread.depth)

def valueEntries (thread : MatcherThread) : List UInt8 :=
  thread.valueConfig.take (thread.valueWidth * thread.depth)

/-- An exact table whose blocks hold its keys and values and are pairwise different. -/
structure Sized (thread : MatcherThread) (keyBits valueBits : Nat) : Prop where
  table : thread.noTable = false
  exact : thread.matchType = .exact
  keyWidth : thread.keyWidth = slicesFor keyBits
  valueWidth : thread.valueWidth = slicesFor valueBits
  depth : 0 < thread.depth
  keyRoom : thread.keyWidth * thread.depth ≤ thread.keyConfig.length
  valueRoom : thread.valueWidth * thread.depth ≤ thread.valueConfig.length
  inCluster : ∀ entry ∈ thread.keyEntries ++ thread.valueEntries, entry.toNat < sramNumPerCluster
  distinct : (thread.keyEntries ++ thread.valueEntries).Nodup

def sramAddress (thread : MatcherThread) (entry : UInt8) : Nat :=
  thread.procId / procNumPerCluster * sramIdxBase + entry.toNat

/-- No block of the table holds anything. -/
def Empty (memory : Memory) (thread : MatcherThread) : Prop :=
  ∀ entry ∈ thread.keyEntries ++ thread.valueEntries,
    ∀ address, memory.srams (thread.sramAddress entry) address = 0

/-- The entries of one hash slice. -/
def sliceEntries (entries : List UInt8) (width depth slice : Nat) : List UInt8 :=
  (List.range width).map fun index => entries.getD (slice + depth * index) 0

private theorem slice_index_lt {width depth slice index : Nat} (inSlice : slice < depth)
    (inside : index < width) : slice + depth * index < width * depth := by
  calc
    slice + depth * index < depth + depth * index := Nat.add_lt_add_right inSlice _
    _ = (index + 1) * depth := by rw [Nat.succ_mul, Nat.mul_comm, Nat.add_comm]
    _ ≤ width * depth := Nat.mul_le_mul_right depth inside

private theorem getD_mem {entries : List UInt8} {index : Nat} (inside : index < entries.length) :
    entries.getD index 0 ∈ entries := by
  rw [List.getD_eq_getElem _ _ inside]
  exact List.getElem_mem inside

private theorem getD_inj {entries : List UInt8} (distinct : entries.Nodup) {left right : Nat}
    (leftInside : left < entries.length) (rightInside : right < entries.length)
    (same : entries.getD left 0 = entries.getD right 0) : left = right := by
  rw [List.getD_eq_getElem _ _ leftInside, List.getD_eq_getElem _ _ rightInside] at same
  exact (distinct.getElem_inj_iff).mp same

theorem sliceEntries_mem {entries : List UInt8} {width depth slice : Nat} {entry : UInt8}
    (inSlice : slice < depth) (room : width * depth = entries.length)
    (member : entry ∈ sliceEntries entries width depth slice) : entry ∈ entries := by
  obtain ⟨index, inside, rfl⟩ := List.mem_map.mp member
  exact getD_mem (room ▸ slice_index_lt inSlice (List.mem_range.mp inside))

theorem sliceEntries_nodup {entries : List UInt8} {width depth slice : Nat} (distinct : entries.Nodup)
    (inSlice : slice < depth) (room : width * depth = entries.length) :
    (sliceEntries entries width depth slice).Nodup := by
  apply List.Nodup.map_on _ List.nodup_range
  intro left leftInside right rightInside same
  have index := getD_inj distinct (room ▸ slice_index_lt inSlice (List.mem_range.mp leftInside))
    (room ▸ slice_index_lt inSlice (List.mem_range.mp rightInside)) same
  exact Nat.eq_of_mul_eq_mul_left (Nat.zero_lt_of_lt inSlice) (Nat.add_left_cancel index)

/-- Different slices share no entry. -/
theorem sliceEntries_disjoint {entries : List UInt8} {width depth slice other : Nat} {entry : UInt8}
    (distinct : entries.Nodup) (inSlice : slice < depth) (otherInSlice : other < depth)
    (room : width * depth = entries.length)
    (member : entry ∈ sliceEntries entries width depth slice)
    (otherMember : entry ∈ sliceEntries entries width depth other) : slice = other := by
  obtain ⟨index, inside, rfl⟩ := List.mem_map.mp member
  obtain ⟨otherIndex, otherInside, same⟩ := List.mem_map.mp otherMember
  have position := getD_inj distinct (room ▸ slice_index_lt otherInSlice (List.mem_range.mp otherInside))
    (room ▸ slice_index_lt inSlice (List.mem_range.mp inside)) same
  have remainder := congrArg (· % depth) position
  simpa [Nat.mod_eq_of_lt inSlice, Nat.mod_eq_of_lt otherInSlice] using remainder.symm

theorem sramAddress_injective (thread : MatcherThread) : Function.Injective thread.sramAddress := by
  intro left right same
  exact UInt8.toNat_inj.mp (Nat.add_left_cancel same)

theorem sramBlock_eq {thread : MatcherThread} {entry : UInt8} (exist : entry.toNat < sramNumPerCluster) :
    thread.sramBlock entry = some (thread.sramAddress entry) := by
  rw [sramBlock, if_pos exist, sramAddress]

theorem blockSeq_eq {select : UInt8 → Option Nat} {address : UInt8 → Nat} {config : List UInt8}
    {width depth slice : Nat} (room : width * depth ≤ config.length) (inSlice : slice < depth)
    (exist : ∀ entry ∈ config.take (width * depth), select entry = some (address entry)) :
    blockSeq select config width depth slice =
      some ((sliceEntries (config.take (width * depth)) width depth slice).map address) := by
  unfold blockSeq sliceEntries
  rw [List.map_map]
  apply mapM_eq_some_map
  intro index inside
  have bound := slice_index_lt inSlice (List.mem_range.mp inside)
  have short : slice + depth * index < (config.take (width * depth)).length := by
    rw [List.length_take]
    omega
  have entry := exist _ (getD_mem short)
  rw [List.getD_eq_getElem _ _ short, List.getElem_take] at entry
  rw [List.getElem?_eq_getElem (by omega), Function.comp_apply, List.getD_eq_getElem _ _ short,
    List.getElem_take]
  exact entry

/-- The blocks of one hash slice. -/
def keyBlocks (thread : MatcherThread) (slice : Nat) : List Nat :=
  (sliceEntries thread.keyEntries thread.keyWidth thread.depth slice).map thread.sramAddress

def valueBlocks (thread : MatcherThread) (slice : Nat) : List Nat :=
  (sliceEntries thread.valueEntries thread.valueWidth thread.depth slice).map thread.sramAddress

/-- What the table holds in the slot a key hashes to. -/
def keyRow (memory : Memory) (thread : MatcherThread) (key : List UInt8) : List UInt8 :=
  readSlices (sramWidth / 8) (sramRow key) (thread.keyBlocks (keySum key % thread.depth)) memory.srams

def valueRow (memory : Memory) (thread : MatcherThread) (key : List UInt8) : List UInt8 :=
  readSlices (sramWidth / 8) (sramRow key) (thread.valueBlocks (keySum key % thread.depth)) memory.srams

/-- Two keys that hash to the same row of the same blocks. -/
def SameSlot (thread : MatcherThread) (key other : List UInt8) : Prop :=
  keySum key % thread.depth = keySum other % thread.depth ∧ sramRow key = sramRow other

instance (thread : MatcherThread) : DecidableRel thread.SameSlot := fun _ _ => instDecidableAnd

section Sized

variable {thread : MatcherThread} {keyBits valueBits : Nat}

theorem Sized.length_keyEntries (sized : thread.Sized keyBits valueBits) :
    thread.keyWidth * thread.depth = thread.keyEntries.length := by
  rw [keyEntries, List.length_take, Nat.min_eq_left sized.keyRoom]

theorem Sized.length_valueEntries (sized : thread.Sized keyBits valueBits) :
    thread.valueWidth * thread.depth = thread.valueEntries.length := by
  rw [valueEntries, List.length_take, Nat.min_eq_left sized.valueRoom]

theorem Sized.slice_lt (sized : thread.Sized keyBits valueBits) (key : List UInt8) :
    keySum key % thread.depth < thread.depth := Nat.mod_lt _ sized.depth

theorem Sized.sliceIdx_eq (sized : thread.Sized keyBits valueBits) (key : List UInt8) :
    thread.sliceIdx key = some (keySum key % thread.depth) := if_neg sized.depth.ne'

theorem Sized.sramKeySeq_eq (sized : thread.Sized keyBits valueBits) {slice : Nat}
    (inSlice : slice < thread.depth) : thread.sramKeySeq slice = some (thread.keyBlocks slice) :=
  blockSeq_eq sized.keyRoom inSlice fun entry member =>
    sramBlock_eq (sized.inCluster entry (List.mem_append_left _ member))

theorem Sized.sramValueSeq_eq (sized : thread.Sized keyBits valueBits) {slice : Nat}
    (inSlice : slice < thread.depth) : thread.sramValueSeq slice = some (thread.valueBlocks slice) :=
  blockSeq_eq sized.valueRoom inSlice fun entry member =>
    sramBlock_eq (sized.inCluster entry (List.mem_append_right _ member))

theorem Sized.keyBlocks_nodup (sized : thread.Sized keyBits valueBits) {slice : Nat}
    (inSlice : slice < thread.depth) : (thread.keyBlocks slice).Nodup :=
  (sliceEntries_nodup (List.Nodup.of_append_left sized.distinct) inSlice sized.length_keyEntries).map
    thread.sramAddress_injective

theorem Sized.valueBlocks_nodup (sized : thread.Sized keyBits valueBits) {slice : Nat}
    (inSlice : slice < thread.depth) : (thread.valueBlocks slice).Nodup :=
  (sliceEntries_nodup (List.Nodup.of_append_right sized.distinct) inSlice sized.length_valueEntries).map
    thread.sramAddress_injective

theorem Sized.keyBlock_ne_value (sized : thread.Sized keyBits valueBits) {slice other block : Nat}
    (inSlice : slice < thread.depth) (otherInSlice : other < thread.depth)
    (member : block ∈ thread.keyBlocks slice) : block ∉ thread.valueBlocks other := by
  intro valueMember
  obtain ⟨entry, keyEntry, rfl⟩ := List.mem_map.mp member
  obtain ⟨valueEntry, inValue, same⟩ := List.mem_map.mp valueMember
  rw [thread.sramAddress_injective same] at inValue
  exact List.disjoint_of_nodup_append sized.distinct
    (sliceEntries_mem inSlice sized.length_keyEntries keyEntry)
    (sliceEntries_mem otherInSlice sized.length_valueEntries inValue)

theorem Sized.keyBlocks_disjoint (sized : thread.Sized keyBits valueBits) {slice other block : Nat}
    (inSlice : slice < thread.depth) (otherInSlice : other < thread.depth)
    (member : block ∈ thread.keyBlocks slice) (otherMember : block ∈ thread.keyBlocks other) :
    slice = other := by
  obtain ⟨entry, inside, rfl⟩ := List.mem_map.mp member
  obtain ⟨otherEntry, otherInside, same⟩ := List.mem_map.mp otherMember
  rw [thread.sramAddress_injective same] at otherInside
  exact sliceEntries_disjoint (List.Nodup.of_append_left sized.distinct) inSlice otherInSlice
    sized.length_keyEntries inside otherInside

theorem Sized.valueBlocks_disjoint (sized : thread.Sized keyBits valueBits) {slice other block : Nat}
    (inSlice : slice < thread.depth) (otherInSlice : other < thread.depth)
    (member : block ∈ thread.valueBlocks slice) (otherMember : block ∈ thread.valueBlocks other) :
    slice = other := by
  obtain ⟨entry, inside, rfl⟩ := List.mem_map.mp member
  obtain ⟨otherEntry, otherInside, same⟩ := List.mem_map.mp otherMember
  rw [thread.sramAddress_injective same] at otherInside
  exact sliceEntries_disjoint (List.Nodup.of_append_right sized.distinct) inSlice otherInSlice
    sized.length_valueEntries inside otherInside

theorem Sized.keyBlock_zero (sized : thread.Sized keyBits valueBits) {memory : Memory}
    (empty : Empty memory thread) {slice : Nat} (inSlice : slice < thread.depth) :
    ∀ block ∈ thread.keyBlocks slice, ∀ address, memory.srams block address = 0 := by
  intro block member
  obtain ⟨entry, inside, rfl⟩ := List.mem_map.mp member
  exact empty entry (List.mem_append_left _ (sliceEntries_mem inSlice sized.length_keyEntries inside))

theorem Sized.valueBlock_zero (sized : thread.Sized keyBits valueBits) {memory : Memory}
    (empty : Empty memory thread) {slice : Nat} (inSlice : slice < thread.depth) :
    ∀ block ∈ thread.valueBlocks slice, ∀ address, memory.srams block address = 0 := by
  intro block member
  obtain ⟨entry, inside, rfl⟩ := List.mem_map.mp member
  exact empty entry (List.mem_append_right _ (sliceEntries_mem inSlice sized.length_valueEntries inside))

theorem length_keyBlocks (thread : MatcherThread) (slice : Nat) :
    (thread.keyBlocks slice).length = thread.keyWidth := by
  simp [keyBlocks, sliceEntries]

theorem length_valueBlocks (thread : MatcherThread) (slice : Nat) :
    (thread.valueBlocks slice).length = thread.valueWidth := by
  simp [valueBlocks, sliceEntries]

/-- An insert is two sliced writes, to the key blocks and then to the value blocks. -/
theorem Sized.insertSramEntry_eq (sized : thread.Sized keyBits valueBits) (memory : Memory)
    (key value : List UInt8) :
    thread.insertSramEntry memory key value = (do
      let srams ← writeSlices (sramWidth / 8) (sramRow key) key 0
        (thread.keyBlocks (keySum key % thread.depth)) memory.srams
      let srams ← writeSlices (sramWidth / 8) (sramRow key) value 0
        (thread.valueBlocks (keySum key % thread.depth)) srams
      return { memory with srams }) := by
  rw [insertSramEntry, sized.sliceIdx_eq]
  simp only [Option.bind_eq_bind, Option.bind_some]
  rw [sized.sramKeySeq_eq (sized.slice_lt key), sized.sramValueSeq_eq (sized.slice_lt key)]
  rfl

/-- Whether an insert succeeds does not depend on what the memory holds. -/
theorem Sized.insertSramEntry_isSome_congr (sized : thread.Sized keyBits valueBits) (left right : Memory)
    (key value : List UInt8) :
    (thread.insertSramEntry left key value).isSome = (thread.insertSramEntry right key value).isSome := by
  have both (memory : Memory) (other : Memory) (done : (thread.insertSramEntry memory key value).isSome) :
      (thread.insertSramEntry other key value).isSome := by
    obtain ⟨after, inserted⟩ := Option.isSome_iff_exists.mp done
    rw [sized.insertSramEntry_eq] at inserted ⊢
    obtain ⟨middle, keyWritten, inserted⟩ := Option.bind_eq_some_iff.mp inserted
    obtain ⟨final, valueWritten, _⟩ := Option.bind_eq_some_iff.mp inserted
    have keyDone := writeSlices_isSome_congr (sramWidth / 8) (sramRow key) 0 key
      (thread.keyBlocks (keySum key % thread.depth)) memory.srams other.srams
    rw [keyWritten] at keyDone
    obtain ⟨otherMiddle, otherWritten⟩ := Option.isSome_iff_exists.mp keyDone.symm
    have valueDone := writeSlices_isSome_congr (sramWidth / 8) (sramRow key) 0 value
      (thread.valueBlocks (keySum key % thread.depth)) middle otherMiddle
    rw [valueWritten] at valueDone
    obtain ⟨otherFinal, otherValue⟩ := Option.isSome_iff_exists.mp valueDone.symm
    simp [otherWritten, otherValue]
  exact Bool.eq_iff_iff.mpr ⟨both left right, both right left⟩

variable {memory after : Memory} {key value other : List UInt8}

/-- The slot of an inserted key holds the key, laid over what it held. -/
theorem Sized.keyRow_written (sized : thread.Sized keyBits valueBits)
    (inserted : thread.insertSramEntry memory key value = some after)
    (same : thread.SameSlot other key) :
    keyRow after thread other =
      layOver (thread.keyWidth * (sramWidth / 8)) (keyRow memory thread other) key := by
  rw [sized.insertSramEntry_eq] at inserted
  obtain ⟨middle, keyWritten, inserted⟩ := Option.bind_eq_some_iff.mp inserted
  obtain ⟨final, valueWritten, inserted⟩ := Option.bind_eq_some_iff.mp inserted
  cases inserted
  have inSlice := sized.slice_lt key
  have kept := readSlices_writeSlices_start (sized.keyBlocks_nodup inSlice) keyWritten
  rw [length_keyBlocks] at kept
  rw [keyRow, keyRow, same.1, same.2, ← kept]
  apply readSlices_congr
  intro block member index _
  exact writeSlices_frame valueWritten (.inl (sized.keyBlock_ne_value inSlice inSlice member))

/-- The slot of an inserted key holds the value, laid over what it held. -/
theorem Sized.valueRow_written (sized : thread.Sized keyBits valueBits)
    (inserted : thread.insertSramEntry memory key value = some after)
    (same : thread.SameSlot other key) :
    valueRow after thread other =
      layOver (thread.valueWidth * (sramWidth / 8)) (valueRow memory thread other) value := by
  rw [sized.insertSramEntry_eq] at inserted
  obtain ⟨middle, keyWritten, inserted⟩ := Option.bind_eq_some_iff.mp inserted
  obtain ⟨final, valueWritten, inserted⟩ := Option.bind_eq_some_iff.mp inserted
  cases inserted
  have inSlice := sized.slice_lt key
  have kept := readSlices_writeSlices_start (sized.valueBlocks_nodup inSlice) valueWritten
  rw [length_valueBlocks] at kept
  have untouched : readSlices (sramWidth / 8) (sramRow key) (thread.valueBlocks (keySum key % thread.depth))
      middle = valueRow memory thread key := by
    apply readSlices_congr
    intro block member index _
    exact writeSlices_frame keyWritten
      (.inl fun keyMember => sized.keyBlock_ne_value inSlice inSlice keyMember member)
  rw [untouched] at kept
  rw [valueRow, valueRow, same.1, same.2]
  exact kept

/-- Every other slot keeps what it held. -/
theorem Sized.rows_kept (sized : thread.Sized keyBits valueBits)
    (inserted : thread.insertSramEntry memory key value = some after)
    (different : ¬ thread.SameSlot other key) :
    keyRow after thread other = keyRow memory thread other ∧
      valueRow after thread other = valueRow memory thread other := by
  rw [sized.insertSramEntry_eq] at inserted
  obtain ⟨middle, keyWritten, inserted⟩ := Option.bind_eq_some_iff.mp inserted
  obtain ⟨final, valueWritten, inserted⟩ := Option.bind_eq_some_iff.mp inserted
  cases inserted
  have inSlice := sized.slice_lt key
  have otherInSlice := sized.slice_lt other
  -- a block of the other slot belongs to another slice, or its row is another one
  have outside {blocks : Nat → List Nat} {block index : Nat}
      (disjoint : block ∈ blocks (keySum key % thread.depth) →
        keySum other % thread.depth = keySum key % thread.depth)
      (inside : index < sramWidth / 8) :
      block ∉ blocks (keySum key % thread.depth) ∨
        sramRow other * (sramWidth / 8) + index < sramRow key * (sramWidth / 8) ∨
        sramRow key * (sramWidth / 8) + sramWidth / 8 ≤ sramRow other * (sramWidth / 8) + index := by
    by_cases member : block ∈ blocks (keySum key % thread.depth)
    · exact .inr (row_outside (fun row => different ⟨disjoint member, row⟩) inside)
    · exact .inl member
  constructor
  · apply readSlices_congr
    intro block member index inside
    change final block _ = _
    rw [writeSlices_frame valueWritten (.inl (sized.keyBlock_ne_value otherInSlice inSlice member)),
      writeSlices_frame keyWritten
        (outside (sized.keyBlocks_disjoint otherInSlice inSlice member) inside)]
  · apply readSlices_congr
    intro block member index inside
    change final block _ = _
    rw [writeSlices_frame valueWritten
        (outside (sized.valueBlocks_disjoint otherInSlice inSlice member) inside),
      writeSlices_frame keyWritten
        (.inl fun keyMember => sized.keyBlock_ne_value inSlice otherInSlice keyMember member)]

theorem Sized.rows_empty (sized : thread.Sized keyBits valueBits) (empty : Empty memory thread)
    (other : List UInt8) :
    keyRow memory thread other = List.replicate (thread.keyWidth * (sramWidth / 8)) 0 ∧
      valueRow memory thread other = List.replicate (thread.valueWidth * (sramWidth / 8)) 0 := by
  have inSlice := sized.slice_lt other
  constructor
  · rw [keyRow, ← thread.length_keyBlocks (keySum other % thread.depth)]
    exact readSlices_zero fun block member index _ => sized.keyBlock_zero empty inSlice block member _
  · rw [valueRow, ← thread.length_valueBlocks (keySum other % thread.depth)]
    exact readSlices_zero fun block member index _ => sized.valueBlock_zero empty inSlice block member _

/-- The slot of a key inserted into an empty table holds the key, padded with zeros. -/
theorem Sized.keyRow_same (sized : thread.Sized keyBits valueBits) (empty : Empty memory thread)
    (inserted : thread.insertSramEntry memory key value = some after)
    (same : thread.SameSlot other key) :
    keyRow after thread other =
      key.take (thread.keyWidth * (sramWidth / 8)) ++
        List.replicate (thread.keyWidth * (sramWidth / 8) - key.length) 0 := by
  rw [sized.keyRow_written inserted same, (sized.rows_empty empty other).1, layOver, List.drop_replicate]

/-- The slot of a key inserted into an empty table holds the value, padded with zeros. -/
theorem Sized.valueRow_same (sized : thread.Sized keyBits valueBits) (empty : Empty memory thread)
    (inserted : thread.insertSramEntry memory key value = some after)
    (same : thread.SameSlot other key) :
    valueRow after thread other =
      value.take (thread.valueWidth * (sramWidth / 8)) ++
        List.replicate (thread.valueWidth * (sramWidth / 8) - value.length) 0 := by
  rw [sized.valueRow_written inserted same, (sized.rows_empty empty other).2, layOver, List.drop_replicate]

/-- Every other slot of an empty table still holds nothing. -/
theorem Sized.rows_other (sized : thread.Sized keyBits valueBits) (empty : Empty memory thread)
    (inserted : thread.insertSramEntry memory key value = some after)
    (different : ¬ thread.SameSlot other key) :
    keyRow after thread other = List.replicate (thread.keyWidth * (sramWidth / 8)) 0 ∧
      valueRow after thread other = List.replicate (thread.valueWidth * (sramWidth / 8)) 0 := by
  rw [(sized.rows_kept inserted different).1, (sized.rows_kept inserted different).2]
  exact sized.rows_empty empty other

/-- Behind the bytes of the inserted value every value row is zero. -/
theorem Sized.valueRow_beyond (sized : thread.Sized keyBits valueBits) (empty : Empty memory thread)
    (inserted : thread.insertSramEntry memory key value = some after) {index : Nat}
    (beyond : value.length ≤ index) {byte : UInt8}
    (read : (valueRow after thread other)[index]? = some byte) : byte = 0 := by
  by_cases same : thread.SameSlot other key
  · have short : (value.take (thread.valueWidth * (sramWidth / 8))).length ≤ index :=
      Nat.le_trans (List.length_take_le' ..) beyond
    rw [sized.valueRow_same empty inserted same, List.getElem?_append_right short] at read
    exact List.eq_of_mem_replicate (List.mem_of_getElem? read)
  · rw [(sized.rows_other empty inserted same).2] at read
    exact List.eq_of_mem_replicate (List.mem_of_getElem? read)

theorem sameKey_eq {key row : List UInt8} (fits : key.length ≤ row.length) :
    sameKey key row = some (decide (key = row.take key.length)) := by
  induction key generalizing row with
  | nil => simp [sameKey]
  | cons byte key ih =>
      cases row with
      | nil => simp at fits
      | cons other row =>
          have later : sameKey key row = some (decide (key = row.take key.length)) := ih (by simpa using fits)
          by_cases same : byte = other
          · simp [sameKey, same, later]
          · simp [sameKey, same]

/-- A lookup compares with the key row of the key's slot and returns its value row. -/
theorem Sized.getMatchRes_eq (sized : thread.Sized keyBits valueBits) (scratch : Nat → UInt8)
    (fits : key.length ≤ thread.keyWidth * (sramWidth / 8)) :
    thread.getMatchRes memory scratch key =
      some (if key = (keyRow memory thread key).take key.length then
        some (valueRow memory thread key) else none) := by
  have inSlice := sized.slice_lt key
  have width : key.length ≤ (keyRow memory thread key).length := by
    rwa [keyRow, length_readSlices, length_keyBlocks]
  simp only [getMatchRes, sized.exact, sized.sliceIdx_eq, Option.bind_eq_bind, Option.bind_some,
    sized.sramKeySeq_eq inSlice, sized.sramValueSeq_eq inSlice]
  rw [keyRow] at width
  rw [sameKey_eq width]
  simp only [Option.bind_some, decide_eq_true_eq, keyRow, valueRow]
  rfl

end Sized

end MatcherThread

end Ipbm.Dataplane
