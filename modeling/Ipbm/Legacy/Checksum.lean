import Mathlib.Algebra.Order.BigOperators.Group.List
import Ipbm.Legacy.Executor
import Ipbm.Lib.OnesSum

/-! The checksum operation of the first switch. What it writes brings the one's complement sum of the
region to all ones. -/

set_option autoImplicit false

namespace Ipbm.Legacy
open Lib

variable {order : ByteOrder} {memory : List UInt8} {address count : Nat}

@[simp] theorem ByteOrder.length_arrange (bytes : List UInt8) :
    (order.arrange bytes).length = bytes.length := by
  cases order with
  | little => exact List.length_reverse
  | big => rfl

@[simp] theorem ByteOrder.arrange_arrange (bytes : List UInt8) :
    order.arrange (order.arrange bytes) = bytes := by
  cases order with
  | little => exact List.reverse_reverse bytes
  | big => rfl

theorem load_eq (inside : address + count ≤ memory.length) :
    load order memory address count = .ok (wordAt order memory address count) :=
  if_pos inside

/-- The memory after a number is written. -/
def stored (order : ByteOrder) (memory : List UInt8) (address count value : Nat) : List UInt8 :=
  overwrite memory address (order.arrange (beBytes count value))

private theorem stored_inside (inside : address + count ≤ memory.length) (value : Nat) :
    address + (order.arrange (beBytes count value)).length ≤ memory.length := by
  rw [ByteOrder.length_arrange, length_beBytes]
  exact inside

theorem store_eq (inside : address + count ≤ memory.length) (value : Nat) :
    store order memory address count value = .ok (stored order memory address count value) :=
  if_pos (stored_inside inside value)

theorem length_stored (inside : address + count ≤ memory.length) (value : Nat) :
    (stored order memory address count value).length = memory.length :=
  length_overwrite (stored_inside inside value)

theorem stored_getElem? (inside : address + count ≤ memory.length) (value : Nat) {place : Nat}
    (beside : place < address ∨ address + count ≤ place) :
    (stored order memory address count value)[place]? = memory[place]? := by
  have bounds := @stored_inside order _ _ _ inside value
  rw [stored, overwrite_getElem? bounds, if_neg]
  rw [ByteOrder.length_arrange, length_beBytes]
  omega

theorem wordAt_stored_self (inside : address + count ≤ memory.length) (value : Nat) :
    wordAt order (stored order memory address count value) address count = value % 256 ^ count := by
  have whole := slice_overwrite_self (@stored_inside order _ _ _ inside value)
  rw [ByteOrder.length_arrange, length_beBytes] at whole
  rw [wordAt, stored, whole, ByteOrder.arrange_arrange, beVal_beBytes]

theorem wordAt_stored_of_beside (inside : address + count ≤ memory.length) (value : Nat) {start length : Nat}
    (beside : start + length ≤ address ∨ address + count ≤ start) :
    wordAt order (stored order memory address count value) start length =
      wordAt order memory start length := by
  rw [wordAt, stored, slice_overwrite_of_beside (stored_inside inside value), wordAt]
  rw [ByteOrder.length_arrange, length_beBytes]
  exact beside

theorem wordAt_lt (inside : address + count ≤ memory.length) :
    wordAt order memory address count < 256 ^ count := by
  have below := beVal_lt (order.arrange (slice memory address count))
  rw [ByteOrder.length_arrange, length_slice inside] at below
  exact below

/-! ### The words of a region -/

/-- The 16-bit words from an address on. -/
def words (order : ByteOrder) (memory : List UInt8) (region count : Nat) : List Nat :=
  (List.range count).map fun i => wordAt order memory (region + 2 * i) 2

variable {region : Nat}

@[simp] theorem length_words : (words order memory region count).length = count := by
  rw [words, List.length_map, List.length_range]

theorem words_getElem? {i : Nat} (low : i < count) :
    (words order memory region count)[i]? = some (wordAt order memory (region + 2 * i) 2) := by
  rw [words, List.getElem?_map, List.getElem?_range low]
  rfl

theorem words_cons : words order memory region (count + 1) = wordAt order memory region 2 ::
      words order memory (region + 2) count := by
  rw [words, List.range_succ_eq_map, List.map_cons, List.map_map, words]
  congr 1
  apply List.map_congr_left
  intro i _
  rw [Function.comp_apply, Nat.mul_succ, Nat.add_assoc, Nat.add_comm 2]

theorem words_take {rounds : Nat} (low : rounds ≤ count) :
    (words order memory region count).take rounds = words order memory region rounds := by
  rw [words, ← List.map_take, List.take_range, Nat.min_eq_left low, words]

theorem words_lt (inside : region + 2 * count ≤ memory.length) :
    ∀ word ∈ words order memory region count, word < 65536 := by
  intro word member
  obtain ⟨i, low, rfl⟩ := List.mem_map.mp member
  have before := List.mem_range.mp low
  exact wordAt_lt (by omega)

theorem sum_words_le (inside : region + 2 * count ≤ memory.length) :
    (words order memory region count).sum ≤ count * 65535 := by
  have bound : (words order memory region count).sum ≤ (words order memory region count).length * 65535 := by
    apply List.sum_le_card_nsmul
    exact fun word member => Nat.le_pred_of_lt (words_lt inside word member)
  rwa [length_words] at bound

private theorem sum_set {numbers : List Nat} {j : Nat} (low : j < numbers.length) (value : Nat) :
    (numbers.set j value).sum = (numbers.set j 0).sum + value := by
  rw [List.sum_set, List.sum_set, if_pos low, if_pos low]
  omega

/-- A write to one word of the region. -/
theorem words_stored (inside : region + 2 * count ≤ memory.length) {j : Nat} (low : j < count) (value : Nat) :
    words order (stored order memory (region + 2 * j) 2 value) region count =
      (words order memory region count).set j (value % 65536) := by
  have place : region + 2 * j + 2 ≤ memory.length := by omega
  apply List.ext_getElem?
  intro i
  rcases Nat.lt_or_ge i count with before | behind
  · rw [words_getElem? before, List.getElem?_set, length_words, if_pos low, words_getElem? before]
    by_cases same : j = i
    · rw [if_pos same, ← same, wordAt_stored_self place]
      rfl
    · rw [if_neg same, wordAt_stored_of_beside place]
      omega
  · rw [List.getElem?_eq_none, List.getElem?_eq_none]
    · rw [List.length_set, length_words]
      exact behind
    · rw [length_words]
      exact behind

namespace Executor

theorem sumWords_eq {field rounds i : Nat} (inside : field + i + 2 * rounds ≤ memory.length)
    (cksum : UInt32) :
    sumWords order memory field rounds i cksum =
      .ok (i + 2 * rounds, cksum + UInt32.ofNat (words order memory (field + i) rounds).sum) := by
  induction rounds generalizing i cksum with
  | zero =>
      have none_ : cksum + UInt32.ofNat 0 = cksum := UInt32.add_zero cksum
      rw [words, List.range_zero, List.map_nil, List.sum_nil, none_]
      rfl
  | succ rounds ih =>
      have next : i + 2 + 2 * rounds = i + 2 * (rounds + 1) := by omega
      rw [sumWords, load_eq (by omega)]
      refine (ih (by omega) _).trans ?_
      rw [next, words_cons, List.sum_cons, UInt32.ofNat_add, UInt32.add_assoc, Nat.add_assoc]

private theorem sumWords_start {field rounds : Nat} (inside : field + 2 * rounds ≤ memory.length) :
    sumWords order memory field rounds 0 0 = .ok (2 * rounds,
      UInt32.ofNat (words order memory field rounds).sum) := by
  have run := @sumWords_eq order memory field rounds 0 inside 0
  rwa [Nat.zero_add, UInt32.zero_add] at run

private theorem halves_toNat (cksum : UInt32) :
    ((cksum >>> 16) + (cksum &&& 0xffff)).toNat = cksum.toNat / 65536 + cksum.toNat % 65536 := by
  have small := cksum.toNat_lt
  have low : cksum.toNat &&& 65535 = cksum.toNat % 65536 := Nat.and_two_pow_sub_one_eq_mod cksum.toNat 16
  have high : cksum.toNat >>> 16 = cksum.toNat / 65536 := Nat.shiftRight_eq_div_pow cksum.toNat 16
  rw [UInt32.toNat_add, UInt32.toNat_shiftRight, UInt32.toNat_and]
  simp only [UInt32.toNat_ofNat, Nat.reduceMod, Nat.reducePow, low, high]
  omega

/-- Neither addition of the folding wraps around. -/
theorem foldCksum_toNat (cksum : UInt32) :
    (foldCksum cksum).toNat =
      cksum.toNat / 65536 + cksum.toNat % 65536 + (cksum.toNat / 65536 + cksum.toNat % 65536) / 65536 := by
  have small := cksum.toNat_lt
  have high : (cksum.toNat / 65536 + cksum.toNat % 65536) >>> 16 =
      (cksum.toNat / 65536 + cksum.toNat % 65536) / 65536 :=
    Nat.shiftRight_eq_div_pow _ 16
  rw [foldCksum, UInt32.toNat_add, UInt32.toNat_shiftRight, halves_toNat]
  simp only [UInt32.toNat_ofNat, Nat.reduceMod, Nat.reducePow, high]
  omega

theorem complement_toNat (cksum : UInt32) :
    (~~~foldCksum cksum).toUInt16.toNat = 65535 - onesWord 65536 cksum.toNat := by
  have small := cksum.toNat_lt
  have bound := (foldCksum cksum).toNat_lt
  have word : (foldCksum cksum).toNat % 65536 = onesWord 65536 cksum.toNat := by
    rw [foldCksum_toNat]
    exact onesFold_eq (by decide) small
  rw [UInt32.toNat_toUInt16, UInt32.toNat_not, ← word]
  simp only [UInt32.size, Nat.reducePow]
  omega

/-- No addition of the checksum of a region wraps around. -/
structure Exact (order : ByteOrder) (memory : List UInt8) (field len : Nat) : Prop where
  loop : ∀ rounds ≤ len / 2, ∃ cksum, sumWords order memory field rounds 0 0 = .ok (2 * rounds, cksum) ∧
    cksum.toNat = ((words order memory field (len / 2)).take rounds).sum
  fold : ∀ cksum, sumWords order memory field (len / 2) 0 0 = .ok (len, cksum) →
    (foldCksum cksum).toNat =
      cksum.toNat / 65536 + cksum.toNat % 65536 + (cksum.toNat / 65536 + cksum.toNat % 65536) / 65536

theorem exact {field len : Nat} (inside : field + 2 * (len / 2) ≤ memory.length) (short : len ≤ 2 ^ 17) :
    Exact order memory field len where
  loop rounds low := by
    have before : field + 2 * rounds ≤ memory.length := by omega
    have bound : (words order memory field rounds).sum < 2 ^ 32 := by
      have sum := @sum_words_le order _ _ _ before
      omega
    refine ⟨_, sumWords_start before, ?_⟩
    rw [words_take low, UInt32.toNat_ofNat']
    exact Nat.mod_eq_of_lt bound
  fold cksum _ := foldCksum_toNat cksum

theorem calcCksum_eq {field len : Nat} (inside : field + len ≤ memory.length) (even : 2 ∣ len)
    (short : len ≤ 2 ^ 17) :
    ∃ value, calcCksum order memory field len .csum16 = .ok value ∧
      value.toNat = 65535 - onesWord 65536 (words order memory field (len / 2)).sum := by
  obtain ⟨half, rfl⟩ := even
  have rounds : (2 * half + 1) / 2 = half := by omega
  have halves : 2 * half / 2 = half := by omega
  have bound : (words order memory field half).sum < 2 ^ 32 := by
    have sum := @sum_words_le order memory half field inside
    omega
  have total : (UInt32.ofNat (words order memory field half).sum).toNat =
      (words order memory field half).sum := by
    rw [UInt32.toNat_ofNat']
    exact Nat.mod_eq_of_lt bound
  refine ⟨(~~~foldCksum (UInt32.ofNat (words order memory field half).sum)).toUInt16, ?_, ?_⟩
  · rw [calcCksum, rounds, sumWords_start inside]
    exact if_neg (Nat.lt_irrefl _)
  · rw [halves, complement_toNat, total]

/-- The two writes of the operation leave a region whose words sum to all ones. -/
theorem step_cksum (matchVal : List UInt8) (runtimeArgs : List BufView) {glb : Global}
    (nextProcId : Int) {cksumField dstField : FieldSpec}
    {region dst j : Nat} (isRegion : Executor.address glb cksumField = .ok region)
    (isDst : Executor.address glb dstField = .ok dst)
    (inside : region + cksumField.len ≤ glb.memory.length) (even : 2 ∣ cksumField.len)
    (short : cksumField.len ≤ 2 ^ 17) (aligned : dst = region + 2 * j)
    (contained : dst + 2 ≤ region + cksumField.len) :
    ∃ memory, step order matchVal runtimeArgs (glb, nextProcId) (.cksum cksumField dstField .csum16) =
        .ok ({ glb with memory := memory }, nextProcId) ∧
      onesSum 65536 (words order memory region (cksumField.len / 2)) = 0xffff ∧
      memory.length = glb.memory.length ∧
      (∀ place, place < dst ∨ dst + 2 ≤ place → memory[place]? = glb.memory[place]?) ∧
      Exact order (stored order glb.memory dst 2 0) region cksumField.len := by
  have cleared := @length_stored order glb.memory dst 2 (by omega) 0
  obtain ⟨value, calculated, isValue⟩ :=
    @calcCksum_eq order (stored order glb.memory dst 2 0) region cksumField.len (by omega) even short
  have dstInside : dst + 2 ≤ (stored order glb.memory dst 2 0).length := by omega
  refine ⟨stored order (stored order glb.memory dst 2 0) dst 2 value.toNat, ?_, ?_, ?_, ?_,
    exact (by omega) short⟩
  · rw [step]
    simp only [isRegion, isDst, store_eq (by omega : dst + 2 ≤ glb.memory.length), calculated,
      store_eq dstInside, bind, Except.bind, pure, Except.pure]
  · obtain ⟨half, isHalf⟩ := even
    have halves : cksumField.len / 2 = half := by omega
    have low : j < half := by omega
    subst aligned
    rw [halves, words_stored (by omega) low] at isValue
    have valueSmall : value.toNat < 65536 := value.toNat_lt
    rw [halves, onesSum_eq (by decide) (words_lt ?_), words_stored (by omega) low,
      words_stored (by omega) low, List.set_set, Nat.mod_eq_of_lt valueSmall, sum_set, isValue]
    · exact onesWord_complement (by decide) _
    · rw [length_words]
      exact low
    · rw [length_stored dstInside, cleared]
      omega
  · exact (length_stored dstInside value.toNat).trans cleared
  · intro place beside
    exact (stored_getElem? dstInside value.toNat beside).trans (stored_getElem? (by omega) 0 beside)

/-- An IP header behind an Ethernet header. -/
theorem step_cksum_header : ∃ memory,
    step .little [] [] (⟨List.replicate 14 0 ++ [0x45, 0, 0, 0x54, 0, 0, 0x40, 0, 0x40, 1, 0xbe,
      0xef, 10, 0, 0, 1, 10, 0, 0, 2],
        [some 0, some 14], [], 0, 0⟩, 7) (.cksum ⟨1, 0, 20⟩ ⟨1, 10, 2⟩ .csum16) =
          .ok (⟨memory, [some 0, some 14], [], 0, 0⟩, 7) ∧
      onesSum 65536 (words .little memory 14 10) = 0xffff := by
  obtain ⟨memory, stepped, sum, -⟩ := @step_cksum .little [] []
    ⟨List.replicate 14 0 ++ [0x45, 0, 0, 0x54, 0, 0, 0x40, 0, 0x40, 1, 0xbe, 0xef, 10, 0, 0, 1, 10,
      0, 0, 2], [some 0, some 14], [], 0, 0⟩
    7 ⟨1, 0, 20⟩ ⟨1, 10, 2⟩ 14 24 5 rfl rfl (by decide) (by decide) (by decide) (by decide) (by decide)
  exact ⟨memory, stepped, sum⟩

end Executor

end Ipbm.Legacy
