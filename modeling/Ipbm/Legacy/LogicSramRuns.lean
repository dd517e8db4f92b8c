import Ipbm.Legacy.LogicSram
import Ipbm.Legacy.LogicTcamRuns

/-! Runs of a logical SRAM table. An erase takes the entry of another key of the bucket away, and the
first entry shares a byte with the bits of the last buckets. -/

set_option autoImplicit false

namespace Ipbm.Legacy
open Lib

def Call.Sized (keyLen valLen : Nat) : Call → Prop
  | insert key val => key.length = keyLen ∧ val.length = valLen
  | erase key => key.length = keyLen

instance (keyLen valLen : Nat) (call : Call) : Decidable (call.Sized keyLen valLen) :=
  match call with
  | .insert key val => inferInstanceAs (Decidable (key.length = keyLen ∧ val.length = valLen))
  | .erase key => inferInstanceAs (Decidable (key.length = keyLen))

namespace LogicSram

def apply (table : LogicSram) : Call → Except Fault LogicSram
  | .insert key val => table.insert key val
  | .erase key => table.erase key

/-- The table and what is inserted and not erased. A call that throws changes neither. -/
def step (table : LogicSram) (live : List Entry) (call : Call) : LogicSram × List Entry :=
  match table.apply call with
  | .ok after => (after, call.update live)
  | .error _ => (table, live)

/-- A lookup finds what is live, and reports everything else as missing or throws. -/
structure Faithful (table : LogicSram) (live : List Entry) : Prop where
  found : ∀ key val, (key, val) ∈ live →
    ∃ pos, table.matchExact key = .ok pos ∧ pos < table.endPos ∧ table.entryAt pos = (key, val)
  absent : ∀ key, key.length = table.keyLen → key ∉ live.map Prod.fst →
    table.matchExact key = .ok table.endPos ∨ ∃ text, table.matchExact key = .error (.thrown text)

/-- The table is faithful before and after each call, and no call leaves the memory. -/
def Stores (table : LogicSram) (live : List Entry) : List Call → Prop
  | [] => table.Faithful live
  | call :: rest => table.Faithful live ∧ table.apply call ≠ .error .outside ∧
      Stores (table.step live call).1 (table.step live call).2 rest

/-- The buckets of the live entries. -/
def buckets (table : LogicSram) (live : List Entry) : List Nat :=
  live.map fun entry => table.getBucketId entry.1

/-- A bit in the first byte of the entries changes only while the first entry is not live. -/
def Spares (table : LogicSram) (live : List Entry) (pos : Nat) : Prop :=
  table.Overlaps pos → pos ≠ 0 → 0 ∉ table.buckets live

/-- The first byte of the first entry marks the live buckets among those whose bits it holds. Another
mark is harmless only where the stored key has another bucket. -/
def Agrees (table : LogicSram) (live : List Entry) (bytes : List UInt8) : Prop :=
  ∀ first ∈ bytes.head?, ∀ pos < table.cap, table.Overlaps pos →
    if pos = 0 ∨ pos ∈ table.buckets live then Bitmap.marked first pos = true
    else Bitmap.marked first pos = true → table.getBucketId (table.entryAt pos).1 ≠ pos

/-- A call throws, or it changes nothing but the entry of its key. -/
def Allows (table : LogicSram) (live : List Entry) : Call → Prop
  | .insert key
      val => table.occupied (table.getBucketId key) = true ∨ table.Spares live (table.getBucketId key) ∧
      (table.getBucketId key = 0 → table.Agrees live (key ++ val))
  | .erase key => table.occupied (table.getBucketId key) = false ∨ table.Spares live (table.getBucketId key) ∧
      (table.getBucketId key ∈ table.buckets live → key ∈ live.map Prod.fst)

def AllowsRun (table : LogicSram) (live : List Entry) : List Call → Prop
  | [] => True
  | call :: rest => table.Allows live call ∧ AllowsRun (table.step live call).1 (table.step live call).2 rest

section Decidable

variable (table : LogicSram) (live : List Entry)

instance (pos : Nat) : Decidable (table.Spares live pos) :=
  inferInstanceAs (Decidable (_ → _ → _ ∉ _))

instance (bytes : List UInt8) : Decidable (table.Agrees live bytes) :=
  inferInstanceAs (Decidable (∀ first ∈ bytes.head?, ∀ pos < table.cap, table.Overlaps pos →
    if pos = 0 ∨ pos ∈ table.buckets live then Bitmap.marked first pos = true
    else Bitmap.marked first pos = true → table.getBucketId (table.entryAt pos).1 ≠ pos))

instance (call : Call) : Decidable (table.Allows live call) :=
  match call with
  | .insert _ _ => inferInstanceAs (Decidable (_ ∨ _ ∧ (_ → _)))
  | .erase _ => inferInstanceAs (Decidable (_ ∨ _ ∧ (_ → _)))

end Decidable

instance AllowsRun.decidable (table : LogicSram) (live : List Entry) (calls : List Call) :
    Decidable (table.AllowsRun live calls) :=
  match calls with
  | [] => isTrue trivial
  | call :: rest =>
      have := AllowsRun.decidable (table.step live call).1 (table.step live call).2 rest
      inferInstanceAs (Decidable (_ ∧ _))

/-! ### The invariant -/

/-- A bit that is set and belongs to no live entry. No key of its bucket is found there. -/
def Stray (table : LogicSram) (pos : Nat) : Prop :=
  table.Overlaps pos ∧ pos ≠ 0 ∧ table.getBucketId (table.entryAt pos).1 ≠ pos

structure Represents (table : LogicSram) (live : List Entry) : Prop where
  valid : table.Valid
  sized : ∀ entry ∈ live, entry.1.length = table.keyLen ∧ entry.2.length = table.valLen
  stored : ∀ entry ∈ live, table.occupied (table.getBucketId entry.1) = true ∧
    table.entryAt (table.getBucketId entry.1) = entry
  stray : ∀ pos < table.cap, table.occupied pos = true → pos ∉ table.buckets live → table.Stray pos

variable {table : LogicSram} {live : List Entry} {key val : List UInt8}

theorem mem_buckets {pos : Nat} : pos ∈ table.buckets live ↔
      ∃ entry ∈ live, table.getBucketId entry.1 = pos :=
  List.mem_map

theorem Represents.faithful (represents : table.Represents live) : table.Faithful live where
  found key val member := by
    have keyLength := (represents.sized _ member).1
    obtain ⟨occupied, stored⟩ := represents.stored _ member
    refine ⟨table.getBucketId key, ?_, getBucketId_lt represents.valid key, stored⟩
    rw [matchExact_eq represents.valid keyLength, if_pos occupied, stored, if_pos rfl]
  absent key keyLength unknown := by
    rw [matchExact_eq represents.valid keyLength]
    cases occupied : table.occupied (table.getBucketId key) with
    | false => exact Or.inl rfl
    | true =>
        rw [if_pos rfl, if_neg]
        · exact Or.inr ⟨_, rfl⟩
        · intro same
          by_cases taken : table.getBucketId key ∈ table.buckets live
          · obtain ⟨entry, member, bucket⟩ := mem_buckets.mp taken
            have stored := (represents.stored entry member).2
            rw [bucket] at stored
            rw [stored] at same
            exact unknown (same ▸ List.mem_map_of_mem member)
          · have stray := represents.stray _ (getBucketId_lt represents.valid key) occupied taken
            exact stray.2.2 (congrArg table.getBucketId same)

private theorem Represents.new_bucket (represents : table.Represents live) {pos : Nat}
    (free : table.occupied pos = false) :
    pos ∉ table.buckets live := by
  intro taken
  obtain ⟨entry, member, rfl⟩ := mem_buckets.mp taken
  rw [(represents.stored entry member).1] at free
  cases free

/-- An insertion into a free bucket keeps the invariant if the table allows it. -/
theorem Represents.inserted (represents : table.Represents live) (keyLength : key.length = table.keyLen)
    (valLength : val.length = table.valLen) (free : table.occupied (table.getBucketId key) = false)
    (spares : table.Spares live (table.getBucketId key))
    (agrees : table.getBucketId key = 0 → table.Agrees live (key ++ val)) :
    (table.inserted (table.getBucketId key) (key ++ val)).Represents (live ++ [(key, val)]) := by
  have low := getBucketId_lt represents.valid key
  have bit := represents.valid.bits key keyLength
  have new := represents.new_bucket free
  have self := inserted_entryAt_self represents.valid low keyLength valLength
  have length : (key ++ val).length = table.entryLen := by
    rw [List.length_append, keyLength, valLength, entryLen]
  have kept {pos : Nat} (apart : ¬(pos = 0 ∧ table.Overlaps (table.getBucketId key)))
      (different : pos ≠ table.getBucketId key) :=
    inserted_entryAt represents.valid low length apart different
  have bits {pos : Nat} (posLow : pos < table.cap) :=
    inserted_occupied_cases represents.valid low bit length posLow
  refine ⟨inserted_valid represents.valid low length, ?_, ?_, ?_⟩
  · intro entry member
    rcases List.mem_append.mp member with old | isNew
    · exact represents.sized entry old
    · rw [List.mem_singleton.mp isNew]
      exact ⟨keyLength, valLength⟩
  · intro entry member
    rcases List.mem_append.mp member with old | isNew
    · obtain ⟨occupied, stored⟩ := represents.stored entry old
      have taken : table.getBucketId entry.1 ∈ table.buckets live := mem_buckets.mpr ⟨entry, old, rfl⟩
      have different : table.getBucketId entry.1 ≠ table.getBucketId key := fun same => new (same ▸ taken)
      constructor
      · rcases bits (getBucketId_lt represents.valid entry.1) with joined | ⟨isFirst, overlaps,
          first, isByte, marks⟩
        · exact joined.trans (by rw [occupied, Bool.true_or])
        · have agree := agrees isFirst first isByte _ (getBucketId_lt represents.valid entry.1) overlaps
          rw [if_pos (Or.inr taken)] at agree
          exact marks.trans agree
      · refine (kept ?_ different).trans stored
        rintro ⟨isFirst, overlaps⟩
        exact spares overlaps (isFirst ▸ different.symm) (isFirst ▸ taken)
    · rw [List.mem_singleton.mp isNew]
      refine ⟨?_, self⟩
      rcases bits low with joined | ⟨isFirst, overlaps, first, isByte, marks⟩
      · exact joined.trans (by rw [decide_eq_true rfl, Bool.or_true])
      · have agree := agrees isFirst first isByte _ low overlaps
        rw [if_pos (Or.inl isFirst)] at agree
        exact marks.trans agree
  · intro pos posLow occupied noEntry
    have different : pos ≠ table.getBucketId key := by
      rintro rfl
      exact noEntry (mem_buckets.mpr ⟨(key, val), List.mem_append_right _ List.mem_cons_self, rfl⟩)
    have before : pos ∉ table.buckets live := by
      intro taken
      obtain ⟨entry, member, bucket⟩ := mem_buckets.mp taken
      exact noEntry (mem_buckets.mpr ⟨entry, List.mem_append_left _ member, bucket⟩)
    have stray : table.Stray pos := by
      rcases bits posLow with joined | ⟨isFirst, overlaps, first, isByte, marks⟩
      · rw [joined, decide_eq_false different.symm, Bool.or_false] at occupied
        exact represents.stray pos posLow occupied before
      · have agree := agrees isFirst first isByte pos posLow overlaps
        rw [if_neg (not_or.mpr ⟨isFirst ▸ different, before⟩)] at agree
        exact ⟨overlaps, isFirst ▸ different, agree (marks.symm.trans occupied)⟩
    have same := kept (fun both => stray.2.1 both.1) different
    exact ⟨stray.1, stray.2.1, same ▸ stray.2.2⟩

/-- An erase from a bucket that holds its key keeps the invariant if the table allows it. -/
theorem Represents.erased (represents : table.Represents live) (keyLength : key.length = table.keyLen)
    (occupied : table.occupied (table.getBucketId key) = true)
    (spares : table.Spares live (table.getBucketId key))
    (own : table.getBucketId key ∈ table.buckets live → key ∈ live.map Prod.fst) :
    (table.erased (table.getBucketId key)).Represents ((Call.erase key).update live) := by
  have low := getBucketId_lt represents.valid key
  have bits := erased_occupied (represents.valid.bits key keyLength)
  -- An entry of the bucket is the entry of the key.
  have others : ∀ entry ∈ live, entry.1 ≠ key → table.getBucketId entry.1 ≠ table.getBucketId key := by
    intro entry member different same
    obtain ⟨other, otherMember, rfl⟩ := List.mem_map.mp (own (mem_buckets.mpr ⟨entry, member, same⟩))
    have stored := (represents.stored entry member).2
    rw [same, (represents.stored other otherMember).2] at stored
    exact different (stored ▸ rfl)
  refine ⟨erased_valid represents.valid, ?_, ?_, ?_⟩
  · intro entry member
    exact represents.sized entry (List.mem_of_mem_filter member)
  · intro entry member
    obtain ⟨old, notKey⟩ := List.mem_filter.mp member
    have different := others entry old (of_decide_eq_true notKey)
    obtain ⟨isOccupied, stored⟩ := represents.stored entry old
    constructor
    · exact (bits (table.getBucketId entry.1)).trans
        (by rw [isOccupied, decide_eq_false different.symm, Bool.not_false, Bool.and_true])
    · refine (erased_entryAt low ?_).trans stored
      rintro ⟨isFirst, overlaps⟩
      exact spares overlaps (isFirst ▸ different.symm) (mem_buckets.mpr ⟨entry, old, isFirst⟩)
  · intro pos posLow stays noEntry
    rw [bits, Bool.and_eq_true, Bool.not_eq_true', decide_eq_false_iff_not] at stays
    have before : pos ∉ table.buckets live := by
      intro taken
      obtain ⟨entry, member, rfl⟩ := mem_buckets.mp taken
      refine noEntry (mem_buckets.mpr ⟨entry, List.mem_filter.mpr ⟨member, decide_eq_true ?_⟩, rfl⟩)
      rintro rfl
      exact stays.2 rfl
    have stray := represents.stray pos posLow stays.1 before
    have same := erased_entryAt low fun both : pos = 0 ∧ table.Overlaps (table.getBucketId key) =>
      stray.2.1 both.1
    exact ⟨stray.1, stray.2.1, same ▸ stray.2.2⟩

/-! ### What a faithful table needs -/

theorem Faithful.entry (faithful : table.Faithful live) (valid : table.Valid)
    (keyLength : key.length = table.keyLen) (member : (key, val) ∈ live) :
    table.occupied (table.getBucketId key) = true ∧ table.entryAt (table.getBucketId key) = (key, val) := by
  obtain ⟨pos, here, low, stored⟩ := faithful.found key val member
  rw [matchExact_eq valid keyLength] at here
  split at here
  · next occupied =>
      split at here
      · cases here
        exact ⟨occupied, stored⟩
      · cases here
  · cases here
    exact absurd low (Nat.lt_irrefl _)

/-- A lookup finds what is stored in its own bucket, so it is live. -/
theorem Faithful.own_bucket (faithful : table.Faithful live) (valid : table.Valid) {pos : Nat}
    (low : pos < table.cap) (occupied : table.occupied pos = true)
    (own : table.getBucketId (table.entryAt pos).1 = pos) : pos ∈ table.buckets live := by
  have keyLength := length_entryAt valid low
  have found := matchExact_eq valid keyLength
  rw [own, if_pos occupied, if_pos rfl] at found
  by_contra noEntry
  have unknown : (table.entryAt pos).1 ∉ live.map Prod.fst := by
    intro known
    obtain ⟨entry, member, same⟩ := List.mem_map.mp known
    exact noEntry (mem_buckets.mpr ⟨entry, member, same ▸ own⟩)
  rcases faithful.absent _ keyLength unknown with missing | ⟨text, threw⟩
  · rw [found] at missing
    cases missing
    exact Nat.lt_irrefl _ low
  · rw [found] at threw
    cases threw

/-- The first byte of a live first entry says which buckets are occupied, in every table that stores
the entry. -/
private theorem Represents.first_kept (represents : table.Represents live)
    (keyLength : key.length = table.keyLen) (overlaps : table.Overlaps (table.getBucketId key))
    (notFirst : table.getBucketId key ≠ 0) {entry : Entry} (member : entry ∈ live)
    (first : table.getBucketId entry.1 = 0) {after : LogicSram} (stays : after.entryAt 0 = entry)
    (afterOverlaps : after.Overlaps (table.getBucketId key)) :
    after.occupied (table.getBucketId key) = table.occupied (table.getBucketId key) := by
  have stored := (represents.stored entry member).2
  rw [first] at stored
  cases bytes : entry.1 ++ entry.2 with
  | nil =>
      have noKey := (List.append_eq_nil_iff.mp bytes).1
      have noBytes : key.length = 0 := by
        rw [keyLength, ← (represents.sized entry member).1, noKey]
        rfl
      rw [List.eq_nil_of_length_eq_zero noBytes, ← noKey] at notFirst
      exact absurd first notFirst
  | cons byte rest =>
      rw [occupied_eq_marked overlaps (stored.symm ▸ bytes),
        occupied_eq_marked afterOverlaps (stays.symm ▸ bytes)]

theorem Represents.erased_allows (represents : table.Represents live) (keyLength : key.length = table.keyLen)
    (occupied : table.occupied (table.getBucketId key) = true)
    (faithful : (table.erased (table.getBucketId key)).Faithful ((Call.erase key).update live)) :
    table.Spares live (table.getBucketId key) ∧
      (table.getBucketId key ∈ table.buckets live → key ∈ live.map Prod.fst) := by
  have valid : (table.erased (table.getBucketId key)).Valid := erased_valid represents.valid
  have free : (table.erased (table.getBucketId key)).occupied (table.getBucketId key) = false := by
    rw [erased_occupied (represents.valid.bits key keyLength), decide_eq_true rfl, Bool.not_true,
      Bool.and_false]
  have kept {entry : Entry} (member : entry ∈ live) (different : entry.1 ≠ key) :
      (table.erased (table.getBucketId key)).occupied (table.getBucketId entry.1) = true ∧
        (table.erased (table.getBucketId key)).entryAt (table.getBucketId entry.1) = entry :=
    faithful.entry valid (represents.sized entry member).1
      (List.mem_filter.mpr ⟨member, decide_eq_true different⟩)
  constructor
  · intro overlaps notFirst taken
    obtain ⟨entry, member, first⟩ := mem_buckets.mp taken
    have different : entry.1 ≠ key := fun same => notFirst (same ▸ first)
    have stays := (kept member different).2
    rw [first] at stays
    have same := represents.first_kept keyLength overlaps notFirst member first stays overlaps
    rw [free, occupied] at same
    cases same
  · intro taken
    obtain ⟨entry, member, bucket⟩ := mem_buckets.mp taken
    by_contra unknown
    have different : entry.1 ≠ key := fun same => unknown (same ▸ List.mem_map_of_mem member)
    have stays := (kept member different).1
    rw [bucket, free] at stays
    cases stays

theorem Represents.inserted_allows (represents : table.Represents live)
    (keyLength : key.length = table.keyLen) (valLength : val.length = table.valLen)
    (free : table.occupied (table.getBucketId key) = false)
    (faithful : (table.inserted (table.getBucketId key) (key ++ val)).Faithful (live ++ [(key, val)])) :
    table.Spares live (table.getBucketId key) ∧
      (table.getBucketId key = 0 → table.Agrees live (key ++ val)) := by
  have low := getBucketId_lt represents.valid key
  have length : (key ++ val).length = table.entryLen := by
    rw [List.length_append, keyLength, valLength, entryLen]
  have valid := inserted_valid represents.valid low length
  have sized : ∀ entry ∈ live ++ [(key, val)], entry.1.length = table.keyLen := by
    intro entry member
    rcases List.mem_append.mp member with old | isNew
    · exact (represents.sized entry old).1
    · rw [List.mem_singleton.mp isNew]
      exact keyLength
  have kept {entry : Entry} (member : entry ∈ live ++ [(key, val)]) :
      (table.inserted (table.getBucketId key) (key ++ val)).occupied (table.getBucketId entry.1) = true ∧
        (table.inserted (table.getBucketId key) (key ++ val)).entryAt (table.getBucketId entry.1) = entry :=
    faithful.entry valid (sized entry member) member
  constructor
  · intro overlaps notFirst taken
    obtain ⟨entry, member, first⟩ := mem_buckets.mp taken
    have stays := (kept (List.mem_append_left _ member)).2
    rw [first] at stays
    have same := represents.first_kept keyLength overlaps notFirst member first stays overlaps
    rw [inserted_occupied represents.valid low (represents.valid.bits key keyLength) length
      (Or.inr fun both => notFirst both.1) low,
      decide_eq_true rfl, Bool.or_true, free] at same
    cases same
  · intro isFirst byte isByte pos posLow overlaps
    obtain ⟨rest, isBytes⟩ := List.head?_eq_some_iff.mp isByte
    rw [isFirst, isBytes] at faithful kept valid
    rw [isBytes] at length
    have marks := inserted_occupied_first represents.valid length overlaps
    split
    · next taken =>
        rw [← marks]
        rcases taken with rfl | taken
        · have new := (kept (List.mem_append_right _ List.mem_cons_self)).1
          rwa [isFirst] at new
        · obtain ⟨entry, member, rfl⟩ := mem_buckets.mp taken
          exact (kept (List.mem_append_left _ member)).1
    · next others =>
        intro marked bucket
        obtain ⟨notFirst, noEntry⟩ := not_or.mp others
        have same := inserted_entryAt represents.valid represents.valid.capacity length
          (fun both => notFirst both.1) notFirst
        have taken : pos ∈ table.buckets (live ++ [(key, val)]) :=
          faithful.own_bucket valid posLow (marks.trans marked) (same.symm ▸ bucket)
        obtain ⟨entry, member, isBucket⟩ := mem_buckets.mp taken
        rcases List.mem_append.mp member with old | isNew
        · exact noEntry (mem_buckets.mpr ⟨entry, old, isBucket⟩)
        · rw [List.mem_singleton.mp isNew, isFirst] at isBucket
          exact notFirst isBucket.symm

/-! ### Runs -/

theorem Stores.faithful {calls : List Call} (stores : table.Stores live calls) : table.Faithful live := by
  cases calls with
  | nil => exact stores
  | cons call rest => exact stores.1

/-- One call, and exactly what it needs. -/
theorem Represents.step (represents : table.Represents live) {call : Call}
    (sized : call.Sized table.keyLen table.valLen) :
    table.apply call ≠ .error .outside ∧
      (table.step live call).1.keyLen = table.keyLen ∧ (table.step live call).1.valLen = table.valLen ∧
      (table.Allows live call → (table.step live call).1.Represents (table.step live call).2) ∧
      ((table.step live call).1.Faithful (table.step live call).2 → table.Allows live call) := by
  cases call with
  | insert key val =>
      obtain ⟨keyLength, valLength⟩ := sized
      have applied : table.apply (.insert key val) = _ := insert_eq represents.valid keyLength valLength
      cases taken : table.occupied (table.getBucketId key) with
      | true =>
          rw [taken, if_pos rfl] at applied
          rw [LogicSram.step, applied]
          exact ⟨nofun, rfl, rfl, fun _ => represents, fun _ => Or.inl taken⟩
      | false =>
          rw [taken, if_neg Bool.false_ne_true] at applied
          rw [LogicSram.step, applied]
          refine ⟨nofun, rfl, rfl, ?_, ?_⟩
          · intro allowed
            obtain ⟨spares, agrees⟩ := allowed.resolve_left (by rw [taken]; exact Bool.false_ne_true)
            exact represents.inserted keyLength valLength taken spares agrees
          · intro faithful
            exact Or.inr (represents.inserted_allows keyLength valLength taken faithful)
  | erase key =>
      have applied : table.apply (.erase key) = _ := erase_eq represents.valid sized
      cases taken : table.occupied (table.getBucketId key) with
      | true =>
          rw [taken, if_pos rfl] at applied
          rw [LogicSram.step, applied]
          refine ⟨nofun, rfl, rfl, ?_, ?_⟩
          · intro allowed
            obtain ⟨spares, own⟩ := allowed.resolve_left (by rw [taken]; exact Bool.false_ne_true.symm)
            exact represents.erased sized taken spares own
          · intro faithful
            exact Or.inr (represents.erased_allows sized taken faithful)
      | false =>
          rw [taken, if_neg Bool.false_ne_true] at applied
          rw [LogicSram.step, applied]
          exact ⟨nofun, rfl, rfl, fun _ => represents, fun _ => Or.inl taken⟩

theorem Represents.stores_iff (represents : table.Represents live) {calls : List Call}
    (sized : ∀ call ∈ calls, call.Sized table.keyLen table.valLen) :
    table.Stores live calls ↔ table.AllowsRun live calls := by
  induction calls generalizing table live with
  | nil => exact iff_of_true represents.faithful trivial
  | cons call rest ih =>
      obtain ⟨sizedCall, sizedRest⟩ := List.forall_mem_cons.mp sized
      obtain ⟨inside, keyLen, valLen, keeps, only⟩ := represents.step sizedCall
      rw [← keyLen, ← valLen] at sizedRest
      rw [Stores, AllowsRun, and_iff_right represents.faithful, and_iff_right inside]
      constructor
      · intro stores
        have allowed := only stores.faithful
        exact ⟨allowed, (ih (keeps allowed) sizedRest).mp stores⟩
      · intro ⟨allowed, runs⟩
        exact (ih (keeps allowed) sizedRest).mpr runs

theorem Faithful.holdsBits (faithful : table.Faithful []) : table.HoldsBits := by
  intro key keyLength
  by_contra beyond
  have lost : table.matchExact key = .error .outside := by
    rw [matchExact, Bitmap.test, List.getElem?_eq_none (Nat.le_of_not_lt beyond)]
    rfl
  rcases faithful.absent key keyLength List.not_mem_nil with missing | ⟨text, threw⟩
  · rw [lost] at missing
    cases missing
  · rw [lost] at threw
    cases threw

variable {free keyLen valLen cap : Nat}

theorem new_represents (capacity : 0 < cap)
    (created : new (List.replicate free 0) keyLen valLen cap = .ok table) (bits : table.HoldsBits) :
    table.Represents [] := by
  obtain ⟨room, rfl⟩ := new_eq_ok_iff.mp created
  refine ⟨⟨capacity, bits, ?_⟩, nofun, nofun, ?_⟩
  · exact Nat.le_trans room (Nat.le_of_eq List.length_replicate.symm)
  · intro pos _ occupied
    have noBit : Bitmap.bitAt (List.replicate free 0) pos = false := by
      rw [Bitmap.bitAt, List.getElem?_replicate]
      split
      · exact (Bitmap.marked_eq 0 pos).trans (BitVec.getLsbD_zero)
      · rfl
    exact absurd occupied (by rw [LogicSram.occupied, noBit]; exact Bool.false_ne_true)

/-- A new table in zeroed memory stores what is live in exactly the runs whose every step it allows. -/
theorem sram_stores_iff (capacity : 0 < cap)
    (created : new (List.replicate free 0) keyLen valLen cap = .ok table) {calls : List Call}
    (sized : ∀ call ∈ calls, call.Sized keyLen valLen) :
    table.Stores [] calls ↔ table.HoldsBits ∧ table.AllowsRun [] calls := by
  have sizes : ∀ call ∈ calls, call.Sized table.keyLen table.valLen := by
    obtain ⟨-, rfl⟩ := new_eq_ok_iff.mp created
    exact sized
  constructor
  · intro stores
    have bits := stores.faithful.holdsBits
    exact ⟨bits, ((new_represents capacity created bits).stores_iff sizes).mp stores⟩
  · intro ⟨bits, allowed⟩
    exact ((new_represents capacity created bits).stores_iff sizes).mpr allowed

/-- The ninth bucket of nine has its bit in the first entry. It is taken before that entry comes, which
marks it as well, and a colliding insertion throws. -/
theorem sram_stores_marked : ∃ table, new (List.replicate 19 0) 1 1 9 = .ok table ∧ table.Stores []
    [.insert [2] [20], .insert [129] [30], .insert [11] [40], .erase [129], .insert [4] [50],
      .erase [4]] := by
  have created : new (List.replicate 19 0) 1 1 9 = .ok _ := new_eq_ok_iff.mpr ⟨by decide, rfl⟩
  refine ⟨_, created, (sram_stores_iff (by decide) created (by decide)).mpr ⟨?_, by decide +kernel⟩⟩
  exact holdsBits_of_entryLen (by decide) (by decide) (by decide)

private theorem start_represents {free cap : Nat} (capacity : 0 < cap) (room : cap / 8 + cap * 2 ≤ free) :
    ∃ table, new (List.replicate free 0) 1 1 cap = .ok table ∧
      table = { keyLen := 1, valLen := 1, cap := cap, buf := List.replicate free 0 } ∧
      table.Represents [] := by
  have created : new (List.replicate free 0) 1 1 cap = .ok _ := new_eq_ok_iff.mpr ⟨room, rfl⟩
  refine ⟨_, created, rfl, new_represents capacity created
    (holdsBits_of_entryLen capacity Nat.zero_lt_two ?_)⟩
  exact Nat.le_trans room (Nat.le_of_eq List.length_replicate.symm)

/-- An erase takes the entry of another key away, and an insertion writes into the key of another
entry. -/
theorem not_sram_stores_colliding :
    (∃ table, new (List.replicate 17 0) 1 1 8 = .ok table ∧ ¬table.Stores [] [.insert [0] [10], .erase [8]]) ∧
    ∃ table, new (List.replicate 19 0) 1 1 9 = .ok table ∧
      ¬table.Stores [] [.insert [3] [10], .insert [2] [20]] := by
  constructor
  · obtain ⟨table, created, rfl, represents⟩ := @start_represents 17 8 (by decide) (by decide)
    refine ⟨_, created, ?_⟩
    rw [represents.stores_iff (by decide)]
    decide +kernel
  · obtain ⟨table, created, rfl, represents⟩ := @start_represents 19 9 (by decide) (by decide)
    refine ⟨_, created, ?_⟩
    rw [represents.stores_iff (by decide)]
    decide +kernel

end LogicSram

end Ipbm.Legacy
