import Ipbm.Dataplane.MatcherProperties
import Ipbm.Lib.DirectMapped
import Ipbm.Lib.Traversal

/-! An exact table is a direct-mapped cache: a key has one slot, and a slot holds the entry
that was written there last. Before the first write it reads as a zero key with a zero value. -/

set_option autoImplicit false

namespace Ipbm.Dataplane
open Lib

namespace MatcherThread

/-- The hash slice of a key and its row there. -/
def slot (thread : MatcherThread) (key : List UInt8) : Nat × Nat :=
  (keySum key % thread.depth, sramRow key)

def insertEntries (thread : MatcherThread) (memory : Memory) (entries : List (List UInt8 × List UInt8)) :
    Option Memory :=
  entries.foldlM (fun memory entry => thread.insertSramEntry memory entry.1 entry.2) memory

/-- A value that reaches into the last block of a slice and not behind it. -/
def ValueFits (thread : MatcherThread) (value : List UInt8) : Prop :=
  (thread.valueWidth - 1) * (sramWidth / 8) ≤ value.length ∧
    value.length ≤ thread.valueWidth * (sramWidth / 8)

instance (thread : MatcherThread) (value : List UInt8) : Decidable (thread.ValueFits value) :=
  inferInstanceAs (Decidable (_ ∧ _))

/-- The rows of the table read as the entries of a cache. -/
def Represents (memory : Memory) (thread : MatcherThread) (keyLength : Nat)
    (cache : DirectMapped (Nat × Nat) (List UInt8) (List UInt8)) : Prop :=
  ∀ key : List UInt8, key.length = keyLength →
    (keyRow memory thread key).take keyLength = (cache (thread.slot key)).1 ∧
      (cache (thread.slot key)).2 <+: valueRow memory thread key

/-- What an untouched slot reads as. -/
def zeroEntry (thread : MatcherThread) (keyLength : Nat) : List UInt8 × List UInt8 :=
  (List.replicate keyLength 0, List.replicate (thread.valueWidth * (sramWidth / 8)) 0)

theorem sameSlot_iff {thread : MatcherThread} {key other : List UInt8} :
    thread.SameSlot key other ↔ thread.slot key = thread.slot other := by
  simp [SameSlot, slot]

theorem slicesFor_bytes (bytes : Nat) :
    (slicesFor (8 * bytes) - 1) * (sramWidth / 8) ≤ bytes ∧
      bytes ≤ slicesFor (8 * bytes) * (sramWidth / 8) := by
  unfold slicesFor sramWidth
  omega

section

variable {thread : MatcherThread} {keyLength valueBits : Nat} {memory after : Memory}
  {entries : List (List UInt8 × List UInt8)}

theorem Sized.key_fits (sized : thread.Sized (8 * keyLength) valueBits) :
    keyLength ≤ thread.keyWidth * (sramWidth / 8) := by
  rw [sized.keyWidth]
  exact (slicesFor_bytes keyLength).2

/-- An entry of the right lengths is written. -/
theorem Sized.insertSramEntry_fits (sized : thread.Sized (8 * keyLength) valueBits) {key value : List UInt8}
    (length : key.length = keyLength) (fits : thread.ValueFits value) :
    ∃ after, thread.insertSramEntry memory key value = some after := by
  have keyReaches : (0 + (thread.keyBlocks (keySum key % thread.depth)).length - 1) *
      (sramWidth / 8) ≤ key.length := by
    rw [length_keyBlocks, Nat.zero_add, length, sized.keyWidth]
    exact (slicesFor_bytes keyLength).1
  have valueReaches : (0 + (thread.valueBlocks (keySum key % thread.depth)).length - 1) *
      (sramWidth / 8) ≤ value.length := by
    rw [length_valueBlocks, Nat.zero_add]
    exact fits.1
  obtain ⟨middle, keyWritten⟩ := writeSlices_isSome _ (sramRow key) 0 key _ memory.srams keyReaches
  obtain ⟨final, valueWritten⟩ := writeSlices_isSome _ (sramRow key) 0 value _ middle valueReaches
  exact ⟨{ memory with srams := final }, by
    rw [sized.insertSramEntry_eq, keyWritten, Option.bind_eq_bind, Option.bind_some, valueWritten]
    rfl⟩

theorem Sized.represents_empty (sized : thread.Sized (8 * keyLength) valueBits)
    (empty : Empty memory thread) :
    Represents memory thread keyLength fun _ => thread.zeroEntry keyLength := by
  intro key _
  obtain ⟨keys, values⟩ := sized.rows_empty empty key
  rw [keys, values, List.take_replicate, Nat.min_eq_left sized.key_fits]
  exact ⟨rfl, List.prefix_rfl⟩

/-- An insert is the insert of the cache. -/
theorem Sized.represents_insert (sized : thread.Sized (8 * keyLength) valueBits)
    {cache : DirectMapped (Nat × Nat) (List UInt8) (List UInt8)} {entry : List UInt8 × List UInt8}
    (represents : Represents memory thread keyLength cache) (length : entry.1.length = keyLength)
    (fits : thread.ValueFits entry.2)
    (inserted : thread.insertSramEntry memory entry.1 entry.2 = some after) :
    Represents after thread keyLength (cache.insert thread.slot entry) := by
  intro key keyLength'
  obtain ⟨keys, values⟩ := represents key keyLength'
  by_cases same : thread.slot key = thread.slot entry.1
  · have inSlot := sameSlot_iff.mpr same
    have keyWhole : entry.1.take (thread.keyWidth * (sramWidth / 8)) = entry.1 :=
      List.take_of_length_le (length.symm ▸ sized.key_fits)
    have valueWhole : entry.2.take (thread.valueWidth * (sramWidth / 8)) = entry.2 :=
      List.take_of_length_le fits.2
    rw [DirectMapped.insert, same, Function.update_self, sized.keyRow_written inserted inSlot,
      sized.valueRow_written inserted inSlot, layOver, layOver, keyWhole, valueWhole]
    exact ⟨by rw [← length, List.take_left], List.prefix_append _ _⟩
  · obtain ⟨keysKept, valuesKept⟩ := sized.rows_kept inserted (fun inSlot => same (sameSlot_iff.mp inSlot))
    rw [DirectMapped.insert, Function.update_of_ne same, keysKept, valuesKept]
    exact ⟨keys, values⟩

/-- A run of inserts is the run of the cache. -/
theorem Sized.represents_insertEntries (sized : thread.Sized (8 * keyLength) valueBits)
    {cache : DirectMapped (Nat × Nat) (List UInt8) (List UInt8)}
    (represents : Represents memory thread keyLength cache)
    (wellFormed : ∀ entry ∈ entries, entry.1.length = keyLength ∧ thread.ValueFits entry.2) :
    ∃ after, thread.insertEntries memory entries = some after ∧
      Represents after thread keyLength (cache.insertAll thread.slot entries) := by
  refine foldlM_runs (fun done memory =>
    Represents memory thread keyLength (cache.insertAll thread.slot done)) ?_ represents
  intro done entry memory member here
  obtain ⟨length, fits⟩ := wellFormed entry member
  obtain ⟨after, inserted⟩ : ∃ after, thread.insertSramEntry memory entry.1 entry.2 = some after :=
    sized.insertSramEntry_fits length fits
  refine ⟨after, inserted, ?_⟩
  rw [DirectMapped.insertAll_concat]
  exact sized.represents_insert here length fits inserted

theorem prefix_copyOver {front bytes : List UInt8} (isPrefix : front <+: bytes) (buffer : List UInt8) :
    front <+: copyOver bytes buffer :=
  isPrefix.trans (List.prefix_append _ _)

/-- A lookup fills both buffers and compares with the key row. -/
theorem Sized.matchResult_eq (sized : thread.Sized (8 * keyLength) valueBits) (scratch : Nat → UInt8)
    (outKey outValue : List UInt8) {key : List UInt8} (length : key.length = keyLength) :
    thread.matchResult memory scratch outKey outValue key =
      some ⟨decide (key = (keyRow memory thread key).take keyLength),
        copyOver (keyRow memory thread key) outKey, copyOver (valueRow memory thread key) outValue⟩ := by
  have inSlice := sized.slice_lt key
  have row : key.length ≤ (keyRow memory thread key).length := by
    rw [keyRow, length_readSlices, length_keyBlocks, length]
    exact sized.key_fits
  have buffer : key.length ≤ (copyOver (keyRow memory thread key) outKey).length := by
    rw [copyOver, List.length_append]
    omega
  have same := sameKey_eq buffer
  rw [copyOver, List.take_append_of_le_length row, ← copyOver] at same
  simp only [matchResult, sized.exact, sized.sliceIdx_eq, Option.bind_eq_bind, Option.bind_some,
    sized.sramKeySeq_eq inSlice, sized.sramValueSeq_eq inSlice]
  change (sameKey key (copyOver (keyRow memory thread key) outKey)).bind _ = _
  rw [same, ← length]
  rfl

/-- A configuration of different blocks of the cluster. -/
theorem setMemConfig_sized {configured : MatcherThread} {keyBits valueBits depth : Nat}
    {keyConfig valueConfig : List UInt8} (exact : thread.matchType = .exact) (positive : 0 < depth)
    (done : thread.setMemConfig (slicesFor keyBits)
      (slicesFor valueBits) depth keyConfig valueConfig = some configured)
    (inCluster : ∀ entry ∈ keyConfig.take (slicesFor keyBits * depth) ++
      valueConfig.take (slicesFor valueBits * depth),
      entry.toNat < sramNumPerCluster)
    (distinct : (keyConfig.take (slicesFor keyBits * depth) ++
      valueConfig.take (slicesFor valueBits * depth)).Nodup) :
    configured.Sized keyBits valueBits := by
  have copied : ∀ {capacity count : Nat} {source target result : List UInt8},
      copyConfig capacity count source target = some result →
        result.take count = source.take count ∧ count ≤ result.length := by
    intro capacity count source target result copy
    unfold copyConfig at copy
    split at copy
    · next room =>
        cases copy
        have whole : (source.take count).length = count := List.length_take_of_le room.2
        exact ⟨by rw [List.take_append_of_le_length whole.ge, List.take_take, Nat.min_self], by simp [room.2]⟩
    · cases copy
  obtain ⟨keys, keyCopy, done⟩ := Option.bind_eq_some_iff.mp done
  obtain ⟨values, valueCopy, done⟩ := Option.bind_eq_some_iff.mp done
  cases done
  obtain ⟨keyFront, keyRoom⟩ := copied keyCopy
  obtain ⟨valueFront, valueRoom⟩ := copied valueCopy
  refine ⟨rfl, exact, rfl, rfl, positive, keyRoom, valueRoom, ?_, ?_⟩
  · rw [keyEntries, valueEntries, keyFront, valueFront]
    exact inCluster
  · rw [keyEntries, valueEntries, keyFront, valueFront]
    exact distinct

end

/-! ### The cache -/

section

variable {thread : MatcherThread} {memory : Memory} {entries : List (List UInt8 × List UInt8)}

/-- A lookup hits if the last insert into the slot of the key had that key, or if there was none
and the key is zero; it returns the value of the last insert, or zeros. -/
theorem exact_table_direct_mapped {keyLength valueLength : Nat}
    (sized : thread.Sized (8 * keyLength) (8 * valueLength)) (empty : Empty memory thread)
    (lengths : ∀ entry ∈ entries, entry.1.length = keyLength ∧ entry.2.length = valueLength) :
    ∃ after, thread.insertEntries memory entries = some after ∧
      ∀ (scratch : Nat → UInt8) (outKey outValue key : List UInt8), key.length = keyLength →
        ∃ result, thread.matchResult after scratch outKey outValue key = some result ∧
          (result.hit = true ↔
            (∃ last, DirectMapped.lastIn thread.slot entries (thread.slot key) = some last ∧ last.1 = key) ∨
            DirectMapped.lastIn thread.slot entries (thread.slot key) = none ∧
              key = List.replicate keyLength 0) ∧
          result.outValue.take valueLength =
            ((DirectMapped.lastIn thread.slot entries (thread.slot key)).map Prod.snd).getD
              (List.replicate valueLength 0) := by
  have fits : ∀ entry ∈ entries, entry.1.length = keyLength ∧ thread.ValueFits entry.2 := by
    intro entry member
    obtain ⟨key, value⟩ := lengths entry member
    have room := slicesFor_bytes valueLength
    rw [← sized.valueWidth] at room
    exact ⟨key, value ▸ room.1, value ▸ room.2⟩
  obtain ⟨after, inserted, represents⟩ := sized.represents_insertEntries (sized.represents_empty empty) fits
  refine ⟨after, inserted, fun scratch outKey outValue key length =>
    ⟨_, sized.matchResult_eq scratch outKey outValue length, ?_⟩⟩
  obtain ⟨keys, values⟩ := represents key length
  rw [DirectMapped.insertAll_row] at keys values
  rw [decide_eq_true_eq, keys]
  cases last : DirectMapped.lastIn thread.slot entries (thread.slot key) with
  | some entry =>
      refine ⟨by simp [eq_comm], ?_⟩
      rw [last, Option.getD_some] at values
      rw [← (lengths entry (DirectMapped.lastIn_mem last).1).2]
      exact (List.prefix_iff_eq_take.mp (prefix_copyOver values outValue)).symm
  | none =>
      refine ⟨by simp [zeroEntry], ?_⟩
      have room : valueLength ≤ thread.valueWidth * (sramWidth / 8) := by
        rw [sized.valueWidth]
        exact (slicesFor_bytes valueLength).2
      have zeros : List.replicate valueLength 0 <+: (thread.zeroEntry keyLength).2 :=
        ⟨List.replicate (thread.valueWidth * (sramWidth / 8) - valueLength) 0, by
          rw [zeroEntry, List.replicate_append_replicate, Nat.add_sub_cancel' room]⟩
      rw [last, Option.getD_none] at values
      have front := List.prefix_iff_eq_take.mp (prefix_copyOver (zeros.trans values) outValue)
      rw [List.length_replicate] at front
      exact front.symm

/-- One block of keys and one of values. -/
def oneRowThread : MatcherThread where
  procId := 0
  noTable := false
  keyWidth := 1
  valueWidth := 1
  depth := 1
  valueConfig := 1 :: List.replicate (sramNumPerCluster - 1) 0

theorem oneRowThread_sized {keyBits valueBits : Nat} (key : slicesFor keyBits = 1)
    (value : slicesFor valueBits = 1) :
    oneRowThread.Sized keyBits valueBits :=
  ⟨rfl, rfl, key.symm, value.symm, by decide, by decide, by decide +kernel, by decide +kernel, by decide⟩

/-- Two keys of one byte sum. -/
def permutedEntries : List (List UInt8 × List UInt8) := [([1, 2], [7]), ([2, 1], [8])]

theorem exact_table_direct_mapped_permuted :
    ∃ after, oneRowThread.insertEntries Memory.fresh permutedEntries = some after ∧
      ∀ (scratch : Nat → UInt8) (outKey outValue key : List UInt8), key.length = 2 →
        ∃ result, oneRowThread.matchResult after scratch outKey outValue key = some result ∧
          (result.hit = true ↔
            (∃ last, DirectMapped.lastIn oneRowThread.slot permutedEntries (oneRowThread.slot key) =
              some last ∧ last.1 = key) ∨
            DirectMapped.lastIn oneRowThread.slot permutedEntries (oneRowThread.slot key) = none ∧
              key = List.replicate 2 0) ∧
          result.outValue.take 1 =
            ((DirectMapped.lastIn oneRowThread.slot permutedEntries (oneRowThread.slot key)).map
              Prod.snd).getD (List.replicate 1 0) :=
  exact_table_direct_mapped (oneRowThread_sized rfl rfl) (fun _ _ _ => rfl) (by decide)

/-! ### The table as a store -/

/-- A lookup hits exactly the inserted keys and returns the value inserted last. -/
def FaithfulStore (memory : Memory) (thread : MatcherThread) (keyLength : Nat)
    (entries : List (List UInt8 × List UInt8)) : Prop :=
  ∃ after, thread.insertEntries memory entries = some after ∧
    ∀ (scratch : Nat → UInt8) (outKey outValue key : List UInt8), key.length = keyLength →
      ∃ result, thread.matchResult after scratch outKey outValue key = some result ∧
        (result.hit = true ↔ ∃ entry ∈ entries, entry.1 = key) ∧
        ∀ last, DirectMapped.lastFor entries key = some last → last.2 <+: result.outValue

private theorem FaithfulStore.holds {keyLength valueBits : Nat}
    (faithful : FaithfulStore memory thread keyLength entries)
    (sized : thread.Sized (8 * keyLength) valueBits) (empty : Empty memory thread)
    (wellFormed : ∀ entry ∈ entries, entry.1.length = keyLength ∧ thread.ValueFits entry.2) :
    ∀ key : List UInt8, key.length = keyLength →
      ((DirectMapped.insertAll thread.slot (fun _ => thread.zeroEntry keyLength) entries
        (thread.slot key)).1 = key ↔ ∃ entry ∈ entries, entry.1 = key) := by
  obtain ⟨after, inserted, represents⟩ :=
    sized.represents_insertEntries (sized.represents_empty empty) wellFormed
  obtain ⟨_, same, faithful⟩ := faithful
  cases inserted.symm.trans same
  intro key length
  obtain ⟨result, found, hit, _⟩ := faithful (fun _ => 0) [] [] key length
  cases (sized.matchResult_eq _ _ _ length).symm.trans found
  rw [← hit, decide_eq_true_eq, (represents key length).1]
  exact eq_comm

/-- The table is a store exactly when keys that share a slot are equal and some key was inserted
into the slot of the zero key. -/
theorem faithfulStore_iff {keyLength valueBits : Nat} (sized : thread.Sized (8 * keyLength) valueBits)
    (empty : Empty memory thread)
    (wellFormed : ∀ entry ∈ entries, entry.1.length = keyLength ∧ thread.ValueFits entry.2) :
    FaithfulStore memory thread keyLength entries ↔
      (∀ entry ∈ entries, ∀ other ∈ entries, thread.SameSlot entry.1 other.1 → entry.1 = other.1) ∧
        ∃ entry ∈ entries, thread.SameSlot entry.1 (List.replicate keyLength 0) := by
  have stored := @DirectMapped.holds_stored_iff _ _ _ thread.slot entries _ (fun key : List UInt8 =>
    key.length = keyLength)
    (thread.zeroEntry keyLength) (by simp [zeroEntry]) fun entry member => (wellFormed entry member).1
  simp only [sameSlot_iff]
  rw [zeroEntry] at stored
  refine Iff.trans ⟨fun faithful => faithful.holds sized empty wellFormed, fun holds => ?_⟩ stored
  obtain ⟨after, inserted, represents⟩ :=
    sized.represents_insertEntries (sized.represents_empty empty) wellFormed
  refine ⟨after, inserted, fun scratch outKey outValue key length =>
    ⟨_, sized.matchResult_eq scratch outKey outValue length, ?_, ?_⟩⟩
  · rw [decide_eq_true_eq, (represents key length).1]
    exact eq_comm.trans (holds key length)
  · intro last isLast
    obtain ⟨member, rfl⟩ := DirectMapped.lastFor_mem isLast
    have alone : ∀ entry ∈ entries, thread.slot entry.1 = thread.slot last.1 → entry.1 = last.1 :=
      fun entry inside same => (stored.mp holds).1 entry inside last member same
    have values := (represents last.1 length).2
    rw [DirectMapped.insertAll_row, DirectMapped.lastIn_eq_lastFor alone, isLast, Option.getD_some] at values
    exact prefix_copyOver values outValue

/-- A byte sum of its own for each key, and a key in the slot of the zero key. -/
def separateEntries : List (List UInt8 × List UInt8) := [([0, 0], [7]), ([2, 1], [8]), ([2, 1], [9])]

theorem faithfulStore_separate : FaithfulStore Memory.fresh oneRowThread 2 separateEntries :=
  (faithfulStore_iff (oneRowThread_sized rfl (show slicesFor 8 = 1 from rfl)) (fun _ _ _ => rfl)
    (by decide)).mpr (by decide)

/-- The second key has the byte sum of the first one and takes its place. -/
theorem not_faithfulStore_permuted : ¬ FaithfulStore Memory.fresh oneRowThread 2 permutedEntries := by
  intro faithful
  have holds :=
    faithful.holds (oneRowThread_sized rfl (show slicesFor 8 = 1 from rfl)) (fun _ _ _ => rfl) (by decide)
    [1, 2] rfl
  revert holds
  decide

end

end MatcherThread

end Ipbm.Dataplane
