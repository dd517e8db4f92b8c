import Ipbm.Legacy.LogicTcam

/-! The logical SRAM table of the first switch (`ipbm-old/src/dataplane/table.h` and `bitmap.h`): a
hash table of one entry a bucket. Its bitmap and its entries are one piece of memory. -/

set_option autoImplicit false

namespace Ipbm.Legacy
open Lib

/-- `aborted` is a failed assertion, and `outside` an access outside the memory. -/
inductive Fault where
  | thrown (text : String)
  | aborted
  | outside
  deriving DecidableEq, Repr

namespace Bitmap

def getBucket (pos : Nat) : Nat := pos / 8

def getBit (pos : Nat) : UInt8 := 0x80 >>> UInt8.ofNat (pos % 8)

/-- The bit of a position in the byte that holds it. -/
def marked (byte : UInt8) (pos : Nat) : Bool := byte &&& getBit pos != 0

def test (bm : List UInt8) (pos : Nat) : Except Fault Bool :=
  match bm[getBucket pos]? with
  | none => .error .outside
  | some byte => .ok (marked byte pos)

/-- A byte of the bitmap is read, changed and written. -/
def change (bm : List UInt8) (pos : Nat) (update : UInt8 → UInt8) : Except Fault (List UInt8) :=
  if getBucket pos < bm.length then .ok (bm.modify (getBucket pos) update) else .error .outside

def set (bm : List UInt8) (pos : Nat) : Except Fault (List UInt8) :=
  change bm pos (· ||| getBit pos)

def reset (bm : List UInt8) (pos : Nat) : Except Fault (List UInt8) :=
  change bm pos (· &&& ~~~getBit pos)

/-! ### One bit of a byte -/

theorem getBit_toBitVec (pos : Nat) : (getBit pos).toBitVec = BitVec.twoPow 8 (7 - pos % 8) := by
  have small : ∀ shift < 8, ((0x80 : UInt8) >>> UInt8.ofNat shift).toBitVec = BitVec.twoPow 8
    (7 - shift) := by decide
  exact small _ (Nat.mod_lt pos (by decide))

private theorem place_lt (pos : Nat) : 7 - pos % 8 < 8 := by omega

theorem marked_eq (byte : UInt8) (pos : Nat) : marked byte pos = byte.toBitVec.getLsbD (7 - pos % 8) := by
  have notZero : BitVec.twoPow 8 (7 - pos % 8) ≠ 0#8 := by
    intro zero
    have bit := congrArg (fun bits => BitVec.getLsbD bits (7 - pos % 8)) zero
    simp only [BitVec.getLsbD_twoPow, BitVec.getLsbD_zero, place_lt, decide_true, Bool.true_and] at bit
    cases bit
  rw [Bool.eq_iff_iff, marked, bne_iff_ne, ne_eq, ← UInt8.toBitVec_inj, UInt8.toBitVec_and,
    getBit_toBitVec, BitVec.and_twoPow]
  cases byte.toBitVec.getLsbD (7 - pos % 8) with
  | false => exact iff_of_false (fun different => different rfl) Bool.false_ne_true
  | true => exact iff_of_true notZero rfl

theorem marked_set (byte : UInt8) (pos other : Nat) :
    marked (byte ||| getBit pos) other = (marked byte other || decide (pos % 8 = other % 8)) := by
  have same : 7 - pos % 8 = 7 - other % 8 ↔ pos % 8 = other % 8 := by omega
  rw [marked_eq, marked_eq, UInt8.toBitVec_or, getBit_toBitVec, BitVec.getLsbD_or, BitVec.getLsbD_twoPow]
  simp only [place_lt, decide_true, Bool.true_and, same]

theorem marked_reset (byte : UInt8) (pos other : Nat) :
    marked (byte &&& ~~~getBit pos) other = (marked byte other && !decide (pos % 8 = other % 8)) := by
  have same : 7 - pos % 8 = 7 - other % 8 ↔ pos % 8 = other % 8 := by omega
  rw [marked_eq, marked_eq, UInt8.toBitVec_and, UInt8.toBitVec_not, getBit_toBitVec,
    BitVec.getLsbD_and, BitVec.getLsbD_not, BitVec.getLsbD_twoPow]
  simp only [place_lt, decide_true, Bool.true_and, same]

private theorem same_bit {pos other : Nat} (same : getBucket pos = getBucket other) :
    pos % 8 = other % 8 ↔ pos = other := by
  unfold getBucket at same
  omega

/-- What `test` reads where the byte exists. -/
def bitAt (bm : List UInt8) (pos : Nat) : Bool :=
  bm[getBucket pos]?.any fun byte => marked byte pos

variable {bm : List UInt8} {pos : Nat}

theorem test_eq (inside : getBucket pos < bm.length) : test bm pos = .ok (bitAt bm pos) := by
  rw [test, bitAt, List.getElem?_eq_getElem inside]
  rfl

theorem bitAt_set (inside : getBucket pos < bm.length) (other : Nat) :
    bitAt (bm.modify (getBucket pos) (· ||| getBit pos)) other =
      (bitAt bm other || decide (pos = other)) := by
  by_cases same : getBucket pos = getBucket other
  · have byte := List.getElem?_eq_getElem (same ▸ inside)
    rw [bitAt, bitAt, same, List.getElem?_modify_eq, byte]
    simp only [Option.map_eq_map, Option.map_some, Option.any_some, marked_set, same_bit same]
  · have different : pos ≠ other := fun equal => same (congrArg getBucket equal)
    rw [bitAt, bitAt, List.getElem?_modify_ne _ _ same, decide_eq_false different, Bool.or_false]

theorem bitAt_reset (inside : getBucket pos < bm.length) (other : Nat) :
    bitAt (bm.modify (getBucket pos) (· &&& ~~~getBit pos)) other =
      (bitAt bm other && !decide (pos = other)) := by
  by_cases same : getBucket pos = getBucket other
  · have byte := List.getElem?_eq_getElem (same ▸ inside)
    rw [bitAt, bitAt, same, List.getElem?_modify_eq, byte]
    simp only [Option.map_eq_map, Option.map_some, Option.any_some, marked_reset, same_bit same]
  · have different : pos ≠ other := fun equal => same (congrArg getBucket equal)
    rw [bitAt, bitAt, List.getElem?_modify_ne _ _ same, decide_eq_false different,
      Bool.not_false, Bool.and_true]

end Bitmap

/-- `buf` is the physical memory from the bitmap of the table to its end. -/
structure LogicSram where
  keyLen : Nat
  valLen : Nat
  cap : Nat
  buf : List UInt8
  deriving DecidableEq, Repr

namespace LogicSram

def entryLen (table : LogicSram) : Nat := table.keyLen + table.valLen

/-- Where the entries start: eight buckets a byte, rounded down. -/
def data (table : LogicSram) : Nat := table.cap / 8

/-- The table takes the front of the free memory and clears its bitmap. -/
def new (memory : List UInt8) (keyLen valLen cap : Nat) : Except Fault LogicSram :=
  let bmLen := cap / 8
  if memory.length < bmLen + cap * (keyLen + valLen) then
    .error (.thrown "Physical SRAM out of memory")
  else
    .ok { keyLen := keyLen, valLen := valLen, cap := cap, buf := overwrite memory 0 (List.replicate bmLen 0) }

def getEntry (table : LogicSram) (pos : Nat) : Nat := table.data + pos * table.entryLen

def endPos (table : LogicSram) : Nat := table.cap

def getBucketId (table : LogicSram) (key : List UInt8) : Nat :=
  let hash := (key.take table.keyLen).foldl (fun (hash : UInt64) byte => hash * 1000000007 + byte.toUInt64) 3
  hash.toNat % table.cap

def insert (table : LogicSram) (key val : List UInt8) : Except Fault LogicSram := do
  let bkt := table.getBucketId key
  if ← Bitmap.test table.buf bkt then
    .error (.thrown "Entry already exists")
  else
    let buf ← Bitmap.set table.buf bkt
    let entry := table.getEntry bkt
    let buf := overwrite buf entry (key.take table.keyLen)
    let buf := overwrite buf (entry + table.keyLen) (val.take table.valLen)
    return { table with buf := buf }

/-- The stored key is not looked at. -/
def erase (table : LogicSram) (key : List UInt8) : Except Fault LogicSram := do
  let bkt := table.getBucketId key
  if ← Bitmap.test table.buf bkt then
    let buf ← Bitmap.reset table.buf bkt
    return { table with buf := buf }
  else
    .error (.thrown "Entry not found")

def matchExact (table : LogicSram) (key : List UInt8) : Except Fault Nat := do
  let bkt := table.getBucketId key
  if ← Bitmap.test table.buf bkt then
    if slice table.buf (table.getEntry bkt) table.keyLen = key.take table.keyLen then
      return bkt
    else
      .error (.thrown "Unsolved hash table conflict")
  else
    return table.cap

/-! ### Buckets and entries -/

def occupied (table : LogicSram) (pos : Nat) : Bool := Bitmap.bitAt table.buf pos

def entryAt (table : LogicSram) (pos : Nat) : Entry :=
  (slice table.buf (table.getEntry pos) table.keyLen,
    slice table.buf (table.getEntry pos + table.keyLen) table.valLen)

/-- The bitmap has no byte for the bit of the bucket. It lies in the first byte of the entries. -/
def Overlaps (table : LogicSram) (pos : Nat) : Prop := Bitmap.getBucket pos = table.data

instance (table : LogicSram) (pos : Nat) : Decidable (table.Overlaps pos) :=
  inferInstanceAs (Decidable (_ = _))

/-- The bits of all keys lie in the memory. Only entries without bytes can fail to give the last ones
room. -/
def HoldsBits (table : LogicSram) : Prop :=
  ∀ key : List UInt8, key.length = table.keyLen → Bitmap.getBucket (table.getBucketId key) < table.buf.length

/-- One byte in an entry is enough. -/
theorem holdsBits_of_entryLen {table : LogicSram} (capacity : 0 < table.cap) (some_ : 0 < table.entryLen)
    (entries : table.data + table.cap * table.entryLen ≤ table.buf.length) : table.HoldsBits := by
  intro key _
  have low : table.getBucketId key < table.cap := Nat.mod_lt _ capacity
  have place : Bitmap.getBucket (table.getBucketId key) ≤ table.data :=
    Nat.div_le_div_right (Nat.le_of_lt low)
  have bytes : 0 < table.cap * table.entryLen := Nat.mul_pos capacity some_
  omega

structure Valid (table : LogicSram) : Prop where
  capacity : 0 < table.cap
  bits : table.HoldsBits
  entries : table.data + table.cap * table.entryLen ≤ table.buf.length

variable {table : LogicSram} {pos : Nat}

theorem getBucketId_lt (valid : table.Valid) (key : List UInt8) : table.getBucketId key < table.cap :=
  Nat.mod_lt _ valid.capacity

private theorem getBucket_le (low : pos < table.cap) : Bitmap.getBucket pos ≤ table.data :=
  Nat.div_le_div_right (Nat.le_of_lt low)

private theorem entry_inside (valid : table.Valid) (low : pos < table.cap) :
    table.getEntry pos + table.entryLen ≤ table.buf.length := by
  have room : pos * table.entryLen + table.entryLen ≤ table.cap * table.entryLen := by
    rw [← Nat.succ_mul]
    exact Nat.mul_le_mul_right _ low
  have entries := valid.entries
  rw [getEntry]
  omega

private theorem test_bucket (valid : table.Valid) {key : List UInt8} (keyLength : key.length = table.keyLen) :
    Bitmap.test table.buf (table.getBucketId key) = .ok (table.occupied (table.getBucketId key)) :=
  Bitmap.test_eq (valid.bits key keyLength)

/-- A lookup reads one bucket. -/
theorem matchExact_eq (valid : table.Valid) {key : List UInt8} (keyLength : key.length = table.keyLen) :
    table.matchExact key =
      if table.occupied (table.getBucketId key) then
        if (table.entryAt (table.getBucketId key)).1 = key then .ok (table.getBucketId key)
        else .error (.thrown "Unsolved hash table conflict")
      else .ok table.endPos := by
  rw [matchExact, test_bucket valid keyLength, List.take_of_length_le (Nat.le_of_eq keyLength)]
  rfl

/-! ### What a call leaves -/

/-- The bit of the bucket is set first, and the entry written behind it. -/
def inserted (table : LogicSram) (pos : Nat) (bytes : List UInt8) : LogicSram :=
  { table with
      buf := overwrite (table.buf.modify (Bitmap.getBucket pos) (· ||| Bitmap.getBit pos))
        (table.getEntry pos) bytes }

def erased (table : LogicSram) (pos : Nat) : LogicSram :=
  { table with buf := table.buf.modify (Bitmap.getBucket pos) (· &&& ~~~Bitmap.getBit pos) }

theorem insert_eq (valid : table.Valid) {key val : List UInt8} (keyLength : key.length = table.keyLen)
    (valLength : val.length = table.valLen) :
    table.insert key val =
      if table.occupied (table.getBucketId key) then .error (.thrown "Entry already exists")
      else .ok (table.inserted (table.getBucketId key) (key ++ val)) := by
  have low := getBucketId_lt valid key
  have wholeKey : key.take table.keyLen = key := List.take_of_length_le (Nat.le_of_eq keyLength)
  have wholeVal : val.take table.valLen = val := List.take_of_length_le (Nat.le_of_eq valLength)
  have inside := entry_inside valid low
  have keyInside : table.getEntry (table.getBucketId key) + key.length ≤
      (table.buf.modify (Bitmap.getBucket (table.getBucketId key))
          (· ||| Bitmap.getBit (table.getBucketId key))).length := by
    rw [List.length_modify, keyLength]
    unfold entryLen at inside
    omega
  have joined := @overwrite_overwrite _ _ _ _ val keyInside
  rw [keyLength] at joined
  rw [insert, test_bucket valid keyLength, Bitmap.set, Bitmap.change,
    if_pos (valid.bits key keyLength), wholeKey, wholeVal]
  cases table.occupied (table.getBucketId key) with
  | true => rfl
  | false =>
      simp only [bind, Except.bind, pure, Except.pure, Bool.false_eq_true, if_false]
      rw [joined]
      rfl

theorem erase_eq (valid : table.Valid) {key : List UInt8} (keyLength : key.length = table.keyLen) :
    table.erase key =
      if table.occupied (table.getBucketId key) then .ok (table.erased (table.getBucketId key))
      else .error (.thrown "Entry not found") := by
  rw [erase, test_bucket valid keyLength, Bitmap.reset, Bitmap.change, if_pos (valid.bits key keyLength)]
  rfl

theorem inserted_valid (valid : table.Valid) (low : pos < table.cap) {bytes : List UInt8}
    (length : bytes.length = table.entryLen) : (table.inserted pos bytes).Valid := by
  have inside := entry_inside valid low
  have same : (table.inserted pos bytes).buf.length = table.buf.length := by
    rw [inserted, length_overwrite, List.length_modify]
    rw [List.length_modify, length]
    exact inside
  exact ⟨valid.capacity, fun key length => same.symm ▸ valid.bits key length, same.symm ▸ valid.entries⟩

theorem erased_valid (valid : table.Valid) : (table.erased pos).Valid := by
  have same : (table.erased pos).buf.length = table.buf.length := List.length_modify ..
  exact ⟨valid.capacity, fun key length => same.symm ▸ valid.bits key length, same.symm ▸ valid.entries⟩

theorem erased_occupied (bit : Bitmap.getBucket pos < table.buf.length) (other : Nat) :
    (table.erased pos).occupied other = (table.occupied other && !decide (pos = other)) :=
  Bitmap.bitAt_reset bit other

section Inserted

variable {bytes : List UInt8} {other : Nat}

private theorem inserted_inside (valid : table.Valid) (low : pos < table.cap)
    (length : bytes.length = table.entryLen) :
    table.getEntry pos + bytes.length ≤
      (table.buf.modify (Bitmap.getBucket pos) (· ||| Bitmap.getBit pos)).length := by
  rw [List.length_modify, length]
  exact entry_inside valid low

/-- A bit that the written entry does not cover. -/
theorem inserted_occupied (valid : table.Valid) (low : pos < table.cap)
    (bit : Bitmap.getBucket pos < table.buf.length) (length : bytes.length = table.entryLen)
    (beside : bytes = [] ∨ ¬(pos = 0 ∧ table.Overlaps other)) (otherLow : other < table.cap) :
    (table.inserted pos bytes).occupied other = (table.occupied other || decide (pos = other)) := by
  have before := getBucket_le otherLow
  have uncovered : ¬(table.getEntry pos ≤ Bitmap.getBucket other ∧ Bitmap.getBucket other <
      table.getEntry pos + bytes.length) := by
    rcases beside with rfl | apart
    · rw [List.length_nil]
      omega
    · rw [getEntry, ← length]
      unfold Overlaps at apart
      rcases Nat.eq_zero_or_pos pos with rfl | behind
      · omega
      · have row := Nat.le_mul_of_pos_left bytes.length behind
        omega
  rw [occupied, Bitmap.bitAt, inserted, overwrite_getElem? (inserted_inside valid low length),
    if_neg uncovered]
  exact Bitmap.bitAt_set bit other

/-- A bit that the first byte of the entry replaces. -/
theorem inserted_occupied_first (valid : table.Valid) {first : UInt8} {rest : List UInt8}
    (length : (first :: rest).length = table.entryLen) (overlaps : table.Overlaps other) :
    (table.inserted 0 (first :: rest)).occupied other = Bitmap.marked first other := by
  have covered : table.getEntry 0 = Bitmap.getBucket other := by
    rw [getEntry, Nat.zero_mul, Nat.add_zero]
    exact overlaps.symm
  rw [occupied, Bitmap.bitAt, inserted,
    overwrite_getElem? (inserted_inside valid valid.capacity length), if_pos, covered, Nat.sub_self]
  · rfl
  · rw [covered, List.length_cons]
    omega

/-- The written entry covers the bits that it shares a byte with. -/
theorem inserted_occupied_cases (valid : table.Valid) (low : pos < table.cap)
    (bit : Bitmap.getBucket pos < table.buf.length)
    (length : bytes.length = table.entryLen) (otherLow : other < table.cap) :
    (table.inserted pos bytes).occupied other = (table.occupied other || decide (pos = other)) ∨
      pos = 0 ∧ table.Overlaps other ∧ ∃ first ∈ bytes.head?,
        (table.inserted pos bytes).occupied other = Bitmap.marked first other := by
  by_cases covers : pos = 0 ∧ table.Overlaps other
  · obtain ⟨rfl, overlaps⟩ := covers
    cases bytes with
    | nil => exact Or.inl (inserted_occupied valid low bit length (Or.inl rfl) otherLow)
    | cons first
      rest => exact Or.inr ⟨rfl, overlaps, first, rfl, inserted_occupied_first valid length overlaps⟩
  · exact Or.inl (inserted_occupied valid low bit length (Or.inr covers) otherLow)

end Inserted

/-! ### Entries -/

private theorem slice_modify (update : UInt8 → UInt8) (low : pos < table.cap) {other : Nat}
    (apart : ¬(other = 0 ∧ table.Overlaps pos)) {start length : Nat} (inside : table.getEntry other ≤ start)
    (short : start + length ≤ table.getEntry other + table.entryLen) :
    slice (table.buf.modify (Bitmap.getBucket pos) update) start length = slice table.buf start length := by
  have before := getBucket_le low
  apply slice_modify_of_beside
  unfold Overlaps at apart
  rw [getEntry] at inside short
  rcases Nat.eq_zero_or_pos other with rfl | behind
  · omega
  · have row := Nat.le_mul_of_pos_left table.entryLen behind
    omega

theorem length_entryAt (valid : table.Valid) (low : pos < table.cap) :
    (table.entryAt pos).1.length = table.keyLen := by
  have inside := entry_inside valid low
  unfold entryLen at inside
  exact length_slice (by omega)

theorem erased_entryAt (low : pos < table.cap) {other : Nat} (apart : ¬(other = 0 ∧ table.Overlaps pos)) :
    (table.erased pos).entryAt other = table.entryAt other := by
  have key := slice_modify (· &&& ~~~Bitmap.getBit pos) low apart (Nat.le_refl _)
    (Nat.add_le_add_left (Nat.le_add_right _ table.valLen) _)
  have val := slice_modify (· &&& ~~~Bitmap.getBit pos) low apart (Nat.le_add_right _ table.keyLen)
    (Nat.le_of_eq (Nat.add_assoc _ _ table.valLen))
  exact Prod.ext key val

theorem inserted_entryAt_self (valid : table.Valid) (low : pos < table.cap) {key val : List UInt8}
    (keyLength : key.length = table.keyLen) (valLength : val.length = table.valLen) :
    (table.inserted pos (key ++ val)).entryAt pos = (key, val) := by
  have length : (key ++ val).length = table.entryLen := by
    rw [List.length_append, keyLength, valLength, entryLen]
  have whole := slice_overwrite_self (inserted_inside valid low length)
  rw [length] at whole
  apply Prod.ext
  · calc slice (table.inserted pos (key ++ val)).buf (table.getEntry pos) table.keyLen
        = (slice (table.inserted pos (key ++ val)).buf (table.getEntry pos) table.entryLen).take
            table.keyLen := by
          rw [slice, slice, List.take_take, entryLen, Nat.min_eq_left (Nat.le_add_right _ _)]
      _ = key := by rw [inserted, whole, List.take_left' keyLength]
  · calc slice (table.inserted pos (key ++ val)).buf (table.getEntry pos + table.keyLen) table.valLen
        = (slice (table.inserted pos (key ++ val)).buf (table.getEntry pos) table.entryLen).drop
            table.keyLen := by
          rw [slice, slice, List.drop_take, List.drop_drop, entryLen, Nat.add_sub_cancel_left]
      _ = val := by rw [inserted, whole, List.drop_left' keyLength]

theorem inserted_entryAt (valid : table.Valid) (low : pos < table.cap) {bytes : List UInt8}
    (length : bytes.length = table.entryLen) {other : Nat}
    (apart : ¬(other = 0 ∧ table.Overlaps pos)) (different : other ≠ pos) :
    (table.inserted pos bytes).entryAt other = table.entryAt other := by
  have rows : (other + 1) * table.entryLen ≤ pos * table.entryLen ∨
      (pos + 1) * table.entryLen ≤ other * table.entryLen :=
    (Nat.lt_or_gt_of_ne different).imp (fun before => Nat.mul_le_mul_right _ before)
      (fun behind => Nat.mul_le_mul_right _ behind)
  rw [Nat.succ_mul, Nat.succ_mul] at rows
  have kept {start count : Nat} (inside : table.getEntry other ≤ start)
      (short : start + count ≤ table.getEntry other + table.entryLen) :
      slice (table.inserted pos bytes).buf start count = slice table.buf start count := by
    rw [inserted, slice_overwrite_of_beside (inserted_inside valid low length)]
    · exact slice_modify _ low apart inside short
    · rw [length]
      unfold getEntry at inside short ⊢
      omega
  have key := kept (Nat.le_refl _) (Nat.add_le_add_left (Nat.le_add_right _ table.valLen) _)
  have val := kept (Nat.le_add_right _ table.keyLen) (Nat.le_of_eq (Nat.add_assoc _ _ table.valLen))
  exact Prod.ext key val

/-- The first byte of the entries holds the bits that the bitmap has no byte for. -/
theorem occupied_eq_marked (overlaps : table.Overlaps pos) {first : UInt8} {rest : List UInt8}
    (bytes : (table.entryAt 0).1 ++ (table.entryAt 0).2 = first :: rest) :
    table.occupied pos = Bitmap.marked first pos := by
  rw [entryAt, slice_append_slice] at bytes
  have byte := congrArg (fun bytes : List UInt8 => bytes[0]?) bytes
  have notEmpty : 0 < table.keyLen + table.valLen := by
    by_contra empty
    rw [Nat.eq_zero_of_not_pos empty, slice, List.take_zero] at bytes
    cases bytes
  have place : table.getEntry 0 + 0 = Bitmap.getBucket pos := by
    rw [getEntry, Nat.zero_mul, Nat.add_zero]
    exact overlaps.symm
  simp only [slice_getElem?, if_pos notEmpty, List.getElem?_cons_zero, place] at byte
  rw [occupied, Bitmap.bitAt, byte]
  rfl

/-! ### A new table -/

theorem new_eq_ok_iff {free keyLen valLen cap : Nat} {table : LogicSram} :
    new (List.replicate free 0) keyLen valLen cap = .ok table ↔ cap / 8 + cap * (keyLen + valLen) ≤ free ∧
      table = { keyLen := keyLen, valLen := valLen, cap := cap, buf := List.replicate free 0 } := by
  rw [new, List.length_replicate]
  by_cases room : cap / 8 + cap * (keyLen + valLen) ≤ free
  · have cleared : overwrite (List.replicate free (0 : UInt8)) 0 (List.replicate (cap / 8) 0) =
        List.replicate free 0 := by
      have parts : cap / 8 + (free - cap / 8) = free := by omega
      rw [overwrite, List.take_zero, List.nil_append, List.length_replicate, Nat.zero_add,
        List.drop_replicate, List.replicate_append_replicate, parts]
    rw [if_neg (Nat.not_lt.mpr room), cleared, and_iff_right room, Except.ok.injEq, eq_comm]
  · rw [if_pos (Nat.lt_of_not_le room)]
    exact iff_of_false (fun equal => by cases equal) (fun both => room both.1)

end LogicSram

end Ipbm.Legacy
