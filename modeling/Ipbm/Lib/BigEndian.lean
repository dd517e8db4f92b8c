import Mathlib.Tactic.Ring

/-! Big-endian byte strings. A byte string denotes a number, most significant
byte first; a bit range of the string is a quotient and a remainder of that
number. Shifting a string by fewer than eight bits is byte-local, and the two
shift functions below are the loops such code writes. -/

set_option autoImplicit false

namespace Ipbm.Lib

/-- Truncation of a promoted byte computation to an unsigned byte. -/
def u8 (value : Nat) : UInt8 := UInt8.ofNat value

@[simp] theorem toNat_u8 (value : Nat) : (u8 value).toNat = value % 256 := by
  simp [u8]

@[simp] theorem u8_toNat (byte : UInt8) : u8 byte.toNat = byte := by
  simp [u8]

@[simp] theorem u8_mod (value : Nat) : u8 (value % 256) = u8 value := by
  apply UInt8.toNat_inj.mp
  simp only [toNat_u8, Nat.mod_mod]

@[simp] theorem u8_mod_add (value added : Nat) : u8 (value % 256 + added) = u8 (value + added) := by
  apply UInt8.toNat_inj.mp
  simp only [toNat_u8, Nat.mod_add_mod]

theorem byte_lt (byte : UInt8) : byte.toNat < 256 := UInt8.toNat_lt byte

/-- The number a byte string denotes, most significant byte first. -/
def beVal : List UInt8 → Nat
  | [] => 0
  | byte :: rest => byte.toNat * 256 ^ rest.length + beVal rest

/-- The low `count` bytes of a number, most significant byte first. -/
def beBytes : Nat → Nat → List UInt8
  | 0, _ => []
  | count + 1, value => u8 (value / 256 ^ count) :: beBytes count value

/-- The bit range of `width` bits that starts at bit `start`, bit zero being the
most significant bit of the first byte. -/
def bitSlice (bytes : List UInt8) (start width : Nat) : Nat :=
  beVal bytes / 2 ^ (8 * bytes.length - (start + width)) % 2 ^ width

theorem pow_256 (count : Nat) : 256 ^ count = 2 ^ (8 * count) := by
  rw [Nat.pow_mul]

@[simp] theorem beVal_nil : beVal [] = 0 := rfl

theorem beVal_cons (byte : UInt8) (rest : List UInt8) :
    beVal (byte :: rest) = byte.toNat * 256 ^ rest.length + beVal rest := rfl

theorem beVal_lt (bytes : List UInt8) : beVal bytes < 256 ^ bytes.length := by
  induction bytes with
  | nil => simp
  | cons byte rest ih =>
      have small := byte_lt byte
      have top : byte.toNat * 256 ^ rest.length ≤ 255 * 256 ^ rest.length :=
        Nat.mul_le_mul_right _ (by omega)
      rw [beVal_cons, List.length_cons, Nat.pow_succ]
      omega

theorem beVal_append (left right : List UInt8) :
    beVal (left ++ right) = beVal left * 256 ^ right.length + beVal right := by
  induction left with
  | nil => simp
  | cons byte rest ih =>
      rw [List.cons_append, beVal_cons, beVal_cons, ih, List.length_append, Nat.pow_add]
      ring

@[simp] theorem beVal_replicate_zero (count : Nat) : beVal (List.replicate count 0) = 0 := by
  induction count with
  | zero => rfl
  | succ count ih => simp [List.replicate_succ, beVal_cons, ih]

@[simp] theorem length_beBytes (count value : Nat) : (beBytes count value).length = count := by
  induction count with
  | zero => rfl
  | succ count ih => simp [beBytes, ih]

theorem beBytes_getElem? {count index : Nat} (low : index < count) (value : Nat) :
    (beBytes count value)[index]? = some (u8 (value / 256 ^ (count - 1 - index))) := by
  induction count generalizing index with
  | zero => exact absurd low (Nat.not_lt_zero index)
  | succ count ih =>
      cases index with
      | zero => rfl
      | succ index =>
          rw [beBytes, List.getElem?_cons_succ, ih (Nat.lt_of_succ_lt_succ low), Nat.add_sub_cancel,
            Nat.add_comm index, Nat.sub_sub]

theorem beVal_beBytes (count value : Nat) : beVal (beBytes count value) = value % 256 ^ count := by
  induction count with
  | zero => simp [beBytes, Nat.mod_one]
  | succ count ih =>
      rw [beBytes, beVal_cons, length_beBytes, ih, toNat_u8, Nat.pow_succ, Nat.mod_mul,
        Nat.mul_comm (256 ^ count)]
      omega

theorem beVal_injective {left right : List UInt8} (sameLength : left.length = right.length)
    (sameValue : beVal left = beVal right) : left = right := by
  induction left generalizing right with
  | nil =>
      cases right with
      | nil => rfl
      | cons byte rest => simp at sameLength
  | cons byte rest ih =>
      cases right with
      | nil => simp at sameLength
      | cons other others =>
          have lengths : rest.length = others.length := by simpa using sameLength
          have low := beVal_lt rest
          have lowOther := beVal_lt others
          rw [beVal_cons, beVal_cons, lengths] at sameValue
          rw [lengths] at low
          have tails : beVal rest = beVal others := by
            have reduced := congrArg (· % 256 ^ others.length) sameValue
            simpa [Nat.mul_add_mod_self_right, Nat.mod_eq_of_lt low,
              Nat.mod_eq_of_lt lowOther] using reduced
          have positive : 0 < 256 ^ others.length := Nat.pow_pos (by decide)
          have heads : byte.toNat = other.toNat := by
            apply Nat.eq_of_mul_eq_mul_right positive
            omega
          rw [ih lengths tails, UInt8.toNat_inj.mp heads]

theorem beBytes_beVal (bytes : List UInt8) : beBytes bytes.length (beVal bytes) = bytes := by
  apply beVal_injective (by simp)
  rw [beVal_beBytes, Nat.mod_eq_of_lt (beVal_lt bytes)]

theorem beBytes_zero (count : Nat) : beBytes count 0 = List.replicate count 0 := by
  apply beVal_injective (by simp)
  simp [beVal_beBytes]

theorem beBytes_mod (count value : Nat) : beBytes count (value % 256 ^ count) = beBytes count value := by
  apply beVal_injective (by simp)
  simp [beVal_beBytes]

theorem beBytes_inj {count left right : Nat} (leftSmall : left < 256 ^ count)
    (rightSmall : right < 256 ^ count) :
    beBytes count left = beBytes count right ↔ left = right := by
  constructor
  · intro same
    have values := congrArg beVal same
    simpa only [beVal_beBytes, Nat.mod_eq_of_lt leftSmall, Nat.mod_eq_of_lt rightSmall] using values
  · intro same
    rw [same]

theorem beBytes_add (front back value : Nat) :
    beBytes (front + back) value = beBytes front (value / 256 ^ back) ++ beBytes back value := by
  induction front with
  | zero => rw [Nat.zero_add, beBytes, List.nil_append]
  | succ front ih =>
      rw [Nat.succ_add, beBytes, beBytes, ih, List.cons_append, Nat.div_div_eq_div_mul,
        ← Nat.pow_add, Nat.add_comm back]

/-- The last byte of an encoding is its low digit. -/
theorem beBytes_append (count high : Nat) (low : UInt8) :
    beBytes (count + 1) (high * 256 + low.toNat) = beBytes count high ++ [low] := by
  have small := byte_lt low
  apply beVal_injective (by simp)
  rw [beVal_append, beVal_beBytes, beVal_beBytes]
  simp only [List.length_singleton, Nat.pow_one, beVal_cons, List.length_nil, Nat.pow_zero,
    Nat.mul_one, beVal_nil, Nat.add_zero]
  rw [Nat.pow_succ', Nat.mod_mul, Nat.mul_comm high, Nat.mul_add_mod, Nat.mod_eq_of_lt small,
    Nat.mul_add_div (by decide), Nat.div_eq_of_lt small, Nat.add_zero]
  omega

theorem digit_mod (high low count : Nat) (small : low < 256 ^ count) :
    (high * 256 ^ count + low) % 256 ^ (count + 1) = high % 256 * 256 ^ count + low := by
  rw [Nat.pow_succ, Nat.mod_mul, Nat.mul_add_mod_self_right, Nat.mod_eq_of_lt small,
    Nat.mul_comm high, Nat.mul_add_div (Nat.pow_pos (by decide)), Nat.div_eq_of_lt small,
    Nat.add_zero, Nat.mul_comm, Nat.add_comm]

private theorem leading_byte_div (byte : UInt8) (rest : List UInt8) (shift : Nat) (small : shift ≤ 8) :
    beVal (byte :: rest) * 2 ^ shift / 256 ^ (rest.length + 1) = byte.toNat / 2 ^ (8 - shift) := by
  have split : 256 ^ (rest.length + 1) = 256 ^ rest.length * 2 ^ (8 - shift) * 2 ^ shift := by
    rw [Nat.mul_assoc, ← Nat.pow_add, Nat.sub_add_cancel small, Nat.pow_succ]
  rw [split, Nat.mul_div_mul_right _ _ (Nat.two_pow_pos shift), ← Nat.div_div_eq_div_mul,
    beVal_cons, Nat.mul_comm byte.toNat, Nat.mul_add_div (Nat.pow_pos (by decide)),
    Nat.div_eq_of_lt (beVal_lt rest), Nat.add_zero]

/-- Left shift of a whole byte string by at most eight bits, in place from the front. -/
def shlBytes (shift : Nat) : List UInt8 → List UInt8
  | [] => []
  | [byte] => [u8 (byte.toNat <<< shift)]
  | byte :: next :: rest =>
      u8 (byte.toNat <<< shift + next.toNat >>> (8 - shift)) :: shlBytes shift (next :: rest)

@[simp] theorem length_shlBytes (shift : Nat) (bytes : List UInt8) :
    (shlBytes shift bytes).length = bytes.length := by
  fun_induction shlBytes shift bytes <;> simp_all

theorem beVal_shlBytes (shift : Nat) (bytes : List UInt8) (small : shift ≤ 8) :
    beVal (shlBytes shift bytes) = beVal bytes * 2 ^ shift % 256 ^ bytes.length := by
  fun_induction shlBytes shift bytes with
  | case1 => simp [Nat.mod_one]
  | case2 byte => simp [beVal_cons, Nat.shiftLeft_eq]
  | case3 byte next rest ih =>
      have carry := leading_byte_div next rest shift small
      have low : beVal (next :: rest) * 2 ^ shift % 256 ^ (rest.length + 1) < 256 ^ (rest.length + 1) :=
        Nat.mod_lt _ (Nat.pow_pos (by decide))
      have split := Nat.div_add_mod (beVal (next :: rest) * 2 ^ shift) (256 ^ (rest.length + 1))
      rw [beVal_cons, ih, length_shlBytes, toNat_u8, Nat.shiftLeft_eq, Nat.shiftRight_eq_div_pow,
        ← carry, beVal_cons byte, List.length_cons, List.length_cons]
      rw [← digit_mod _ _ _ low]
      congr 1
      rw [Nat.add_mul _ _ (256 ^ (rest.length + 1)), Nat.add_mul _ _ (2 ^ shift)]
      rw [Nat.mul_comm (_ / _)]
      rw [Nat.add_assoc, split]
      ring

/-- The left shift leaves the value of a right-aligned string left-aligned. -/
theorem shlBytes_beBytes (shift count value : Nat) (small : shift ≤ 8) :
    shlBytes shift (beBytes count value) = beBytes count (value * 2 ^ shift) := by
  apply beVal_injective (by simp)
  rw [beVal_shlBytes shift _ small, beVal_beBytes, beVal_beBytes, length_beBytes, Nat.mod_mul_mod]

/-- Right shift of a byte string by at most eight bits, the bits of `carry` entering from the left. -/
def shrBytes (shift : Nat) (carry : UInt8) : List UInt8 → List UInt8
  | [] => []
  | byte :: rest =>
      u8 (carry.toNat <<< (8 - shift) + byte.toNat >>> shift) :: shrBytes shift byte rest

@[simp] theorem length_shrBytes (shift : Nat) (carry : UInt8) (bytes : List UInt8) :
    (shrBytes shift carry bytes).length = bytes.length := by
  induction bytes generalizing carry with
  | nil => rfl
  | cons byte rest ih => simp [shrBytes, ih]

theorem beVal_shrBytes (shift : Nat) (carry : UInt8) (bytes : List UInt8) (small : shift ≤ 8) :
    beVal (shrBytes shift carry bytes) =
      (carry.toNat * 256 ^ bytes.length + beVal bytes) / 2 ^ shift % 256 ^ bytes.length := by
  induction bytes generalizing carry with
  | nil => simp [shrBytes, Nat.mod_one]
  | cons byte rest ih =>
      rw [shrBytes, beVal_cons, ih, length_shrBytes, toNat_u8, Nat.shiftLeft_eq,
        Nat.shiftRight_eq_div_pow, List.length_cons, beVal_cons byte]
      have low : (byte.toNat * 256 ^ rest.length + beVal rest) / 2 ^ shift % 256 ^ rest.length <
          256 ^ rest.length := Nat.mod_lt _ (Nat.pow_pos (by decide))
      rw [← digit_mod _ _ _ low]
      congr 1
      have whole : 256 ^ (rest.length + 1) = 256 ^ rest.length * 2 ^ (8 - shift) * 2 ^ shift := by
        rw [Nat.mul_assoc, ← Nat.pow_add, Nat.sub_add_cancel small, Nat.pow_succ]
      have top : (byte.toNat * 256 ^ rest.length + beVal rest) / 2 ^ shift / 256 ^ rest.length =
          byte.toNat / 2 ^ shift := by
        rw [Nat.div_div_eq_div_mul, Nat.mul_comm (2 ^ shift), ← Nat.div_div_eq_div_mul,
          Nat.mul_comm byte.toNat, Nat.mul_add_div (Nat.pow_pos (by decide)),
          Nat.div_eq_of_lt (beVal_lt rest), Nat.add_zero]
      have split := Nat.div_add_mod
        ((byte.toNat * 256 ^ rest.length + beVal rest) / 2 ^ shift) (256 ^ rest.length)
      rw [top] at split
      have shifted : (carry.toNat * 256 ^ (rest.length + 1) +
          (byte.toNat * 256 ^ rest.length + beVal rest)) / 2 ^ shift =
          carry.toNat * 2 ^ (8 - shift) * 256 ^ rest.length +
            (byte.toNat * 256 ^ rest.length + beVal rest) / 2 ^ shift := by
        have regroup : carry.toNat * (256 ^ rest.length * 2 ^ (8 - shift) * 2 ^ shift) =
            2 ^ shift * (carry.toNat * 2 ^ (8 - shift) * 256 ^ rest.length) := by ring
        rw [whole, regroup, Nat.mul_add_div (Nat.two_pow_pos shift)]
      rw [shifted, Nat.add_mul, Nat.add_assoc, Nat.mul_comm (byte.toNat / _), split]

theorem bitSlice_lt (bytes : List UInt8) (start width : Nat) :
    bitSlice bytes start width < 2 ^ width :=
  Nat.mod_lt _ (Nat.two_pow_pos width)

theorem bitSlice_append_left (left right : List UInt8) (start width : Nat)
    (inside : start + width ≤ 8 * left.length) :
    bitSlice (left ++ right) start width = bitSlice left start width := by
  have split : 8 * (left ++ right).length - (start + width) =
      8 * right.length + (8 * left.length - (start + width)) := by
    rw [List.length_append]
    omega
  rw [bitSlice, bitSlice, split, beVal_append, Nat.pow_add, ← pow_256, ← Nat.div_div_eq_div_mul,
    Nat.mul_comm (beVal left), Nat.mul_add_div (Nat.pow_pos (by decide)),
    Nat.div_eq_of_lt (beVal_lt right), Nat.add_zero]

theorem bitSlice_append_right (left right : List UInt8) (start width : Nat)
    (inside : start + width ≤ 8 * right.length) :
    bitSlice (left ++ right) (8 * left.length + start) width = bitSlice right start width := by
  have split : 8 * (left ++ right).length - (8 * left.length + start + width) =
      8 * right.length - (start + width) := by
    rw [List.length_append]
    omega
  have whole : 256 ^ right.length = 2 ^ (8 * right.length - (start + width)) * (2 ^ start * 2 ^ width) := by
    rw [pow_256, ← Nat.pow_add, ← Nat.pow_add]
    congr 1
    omega
  rw [bitSlice, bitSlice, split, beVal_append, whole, Nat.mul_left_comm,
    Nat.mul_add_div (Nat.two_pow_pos _), ← Nat.mul_assoc, Nat.mul_add_mod_self_right]

theorem bitSlice_split (bytes : List UInt8) (start high low : Nat)
    (inside : start + (high + low) ≤ 8 * bytes.length) :
    bitSlice bytes start (high + low) =
      bitSlice bytes start high * 2 ^ low + bitSlice bytes (start + high) low := by
  have split : 8 * bytes.length - (start + high) = 8 * bytes.length - (start + (high + low)) + low := by
    omega
  rw [bitSlice, bitSlice, bitSlice, split, Nat.add_assoc start high low, Nat.pow_add 2 high low,
    Nat.mul_comm (2 ^ high), Nat.mod_mul, Nat.pow_add, Nat.div_div_eq_div_mul, Nat.mul_comm (2 ^ low),
    Nat.add_comm]

private theorem bitSlice_head (byte : UInt8) (rest : List UInt8) (start width : Nat)
    (inside : start + width ≤ 8) :
    bitSlice (byte :: rest) start width = byte.toNat / 2 ^ (8 - (start + width)) % 2 ^ width := by
  have first := bitSlice_append_left [byte] rest start width (by simpa using inside)
  rw [List.singleton_append] at first
  rw [first]
  simp [bitSlice, beVal_cons]

private theorem bitSlice_straddle (byte next : UInt8) (rest : List UInt8) (shift : Nat) (small : shift < 8) :
    bitSlice (byte :: next :: rest) shift 8 =
      (byte.toNat <<< shift + next.toNat >>> (8 - shift)) % 256 := by
  have pair := bitSlice_split (byte :: next :: rest) shift (8 - shift) shift
    (by simp only [List.length_cons]; omega)
  have eight : 8 - shift + shift = 8 := Nat.sub_add_cancel small.le
  have high : bitSlice (byte :: next :: rest) shift (8 - shift) = byte.toNat % 2 ^ (8 - shift) := by
    rw [bitSlice_head _ _ _ _ (by omega), Nat.add_sub_cancel' small.le, Nat.sub_self, Nat.pow_zero,
      Nat.div_one]
  have low : bitSlice (byte :: next :: rest) (shift + (8 - shift)) shift = next.toNat / 2 ^ (8 - shift) := by
    have moved := bitSlice_append_right [byte] (next :: rest) 0 shift
      (by simp only [List.length_cons]; omega)
    rw [List.singleton_append, List.length_singleton] at moved
    rw [Nat.add_sub_cancel' small.le, moved, bitSlice_head _ _ _ _ (by omega), Nat.zero_add]
    apply Nat.mod_eq_of_lt
    rw [Nat.div_lt_iff_lt_mul (Nat.two_pow_pos _), ← Nat.pow_add, Nat.add_sub_cancel' small.le]
    exact byte_lt next
  rw [eight, high, low] at pair
  have bound : next.toNat / 2 ^ (8 - shift) < 2 ^ shift := low ▸ bitSlice_lt _ _ _
  have whole : (256 : Nat) = 2 ^ shift * 2 ^ (8 - shift) := by
    rw [← Nat.pow_add, Nat.add_sub_cancel' small.le]
  rw [pair, Nat.shiftLeft_eq, Nat.shiftRight_eq_div_pow, whole, Nat.mod_mul,
    Nat.mul_add_mod_self_right, Nat.mod_eq_of_lt bound, Nat.mul_comm byte.toNat,
    Nat.mul_add_div (Nat.two_pow_pos shift), Nat.div_eq_of_lt bound, Nat.add_zero,
    Nat.add_comm, Nat.mul_comm (2 ^ shift)]


theorem bitSlice_drop (bytes : List UInt8) (skipped start width : Nat)
    (inside : 8 * skipped + (start + width) ≤ 8 * bytes.length) :
    bitSlice bytes (8 * skipped + start) width = bitSlice (bytes.drop skipped) start width := by
  have moved := bitSlice_append_right (bytes.take skipped) (bytes.drop skipped) start width
    (by rw [List.length_drop]; omega)
  rwa [List.take_append_drop, List.length_take, Nat.min_eq_left (by omega)] at moved

/-- Some of the bytes hold a bit range. -/
theorem bitSlice_window (bytes : List UInt8) (start width count : Nat)
    (covers : start % 8 + width ≤ 8 * count) (room : start / 8 + count ≤ bytes.length) :
    bitSlice bytes start width = bitSlice ((bytes.drop (start / 8)).take count) (start % 8) width := by
  have length : ((bytes.drop (start / 8)).take count).length = count := by
    rw [List.length_take, List.length_drop]
    omega
  have whole :=
    bitSlice_append_left ((bytes.drop (start / 8)).take count) ((bytes.drop (start / 8)).drop count)
    (start % 8) width (by rw [length]; exact covers)
  rw [List.take_append_drop] at whole
  rw [← whole, ← bitSlice_drop _ _ _ _ (by omega), Nat.div_add_mod]

/-- A bit range depends on the bytes it touches. -/
theorem bitSlice_congr {left right : List UInt8} {start width : Nat} (positive : 0 < width)
    (inside : start + width ≤ 8 * left.length)
    (same : ∀ index, start / 8 ≤ index → index ≤ (start + width - 1) / 8 → right[index]? = left[index]?) :
    start + width ≤ 8 * right.length ∧ bitSlice right start width = bitSlice left start width := by
  have last := same ((start + width - 1) / 8) (by omega) le_rfl
  have lastLow : (start + width - 1) / 8 < left.length := by omega
  rw [List.getElem?_eq_getElem lastLow] at last
  have lastLow' := (List.getElem?_eq_some_iff.mp last).1
  refine ⟨by omega, ?_⟩
  generalize countEq : (start + width - 1) / 8 + 1 - start / 8 = count
  rw [bitSlice_window right start width count (by omega) (by omega),
    bitSlice_window left start width count (by omega) (by omega)]
  congr 1
  refine List.ext_getElem? fun index => ?_
  rw [List.getElem?_take, List.getElem?_take, List.getElem?_drop, List.getElem?_drop]
  split
  · exact same _ (by omega) (by omega)
  · rfl

theorem bitSlice_byte (bytes : List UInt8) (index start width : Nat) (inside : index < bytes.length)
    (within : start + width ≤ 8) :
    bitSlice bytes (8 * index + start) width = bytes[index].toNat / 2 ^ (8 - (start + width)) %
      2 ^ width := by
  rw [bitSlice_drop _ _ _ _ (by omega), List.drop_eq_getElem_cons inside, bitSlice_head _ _ _ _ within]

theorem bitSlice_bytes (bytes : List UInt8) (index shift : Nat) (inside : index + 1 < bytes.length)
    (small : shift < 8) :
    bitSlice bytes (8 * index + shift) 8 =
      (bytes[index].toNat <<< shift + bytes[index + 1].toNat >>> (8 - shift)) % 256 := by
  rw [bitSlice_drop _ _ _ _ (by omega), List.drop_eq_getElem_cons (Nat.lt_of_succ_lt inside),
    List.drop_eq_getElem_cons inside, bitSlice_straddle _ _ _ _ small]

/-- Reading a bit range a byte at a time encodes it. -/
theorem map_bitSlice_range (bytes : List UInt8) (start count : Nat)
    (inside : start + 8 * count ≤ 8 * bytes.length) :
    (List.range count).map (fun index => u8 (bitSlice bytes (start + 8 * index) 8)) =
      beBytes count (bitSlice bytes start (8 * count)) := by
  induction count with
  | zero => rfl
  | succ count ih =>
      have last : bitSlice bytes (start + 8 * count) 8 < 256 := bitSlice_lt bytes (start + 8 * count) 8
      rw [List.range_succ, List.map_append, ih (by omega), Nat.mul_succ,
        bitSlice_split _ _ _ _ (by omega), List.map_singleton, ← beBytes_append, toNat_u8,
        Nat.mod_eq_of_lt last]
      rfl

/-- A left-aligned encoding placed in a byte string is read back by its bit range. -/
theorem bitSlice_embedded (front back : List UInt8) (count width value : Nat)
    (fits : width ≤ 8 * count) (small : value < 2 ^ width) :
    bitSlice (front ++ beBytes count (value * 2 ^ (8 * count - width)) ++ back) (8 * front.length) width =
      value := by
  have whole : value * 2 ^ (8 * count - width) < 256 ^ count := by
    rw [pow_256]
    calc
      value * 2 ^ (8 * count - width) < 2 ^ width * 2 ^ (8 * count - width) :=
        Nat.mul_lt_mul_of_pos_right small (Nat.two_pow_pos _)
      _ = 2 ^ (8 * count) := by rw [← Nat.pow_add, Nat.add_sub_cancel' fits]
  have moved := bitSlice_append_right front (beBytes count (value * 2 ^ (8 * count - width)) ++ back)
    0 width (by rw [List.length_append, length_beBytes]; omega)
  rw [Nat.add_zero] at moved
  rw [List.append_assoc, moved, bitSlice_append_left _ _ _ _ (by rw [length_beBytes]; omega), bitSlice,
    beVal_beBytes, length_beBytes, Nat.mod_eq_of_lt whole, Nat.zero_add,
    Nat.mul_div_cancel _ (Nat.two_pow_pos _), Nat.mod_eq_of_lt small]

/-- A bit range of a string with a single one bit. -/
theorem bitSlice_bit (count position start width : Nat) (inside : position < 8 * count)
    (fits : start + width ≤ 8 * count) :
    bitSlice (beBytes count (2 ^ (8 * count - 1 - position))) start width =
      if start ≤ position ∧ position < start + width then 2 ^ (start + width - 1 - position) else 0 := by
  have bound : 2 ^ (8 * count - 1 - position) < 256 ^ count := by
    rw [pow_256]
    exact Nat.pow_lt_pow_right (by decide) (by omega)
  rw [bitSlice, beVal_beBytes, length_beBytes, Nat.mod_eq_of_lt bound]
  by_cases late : start + width ≤ position
  · rw [Nat.div_eq_of_lt (Nat.pow_lt_pow_right (by decide) (by omega)), Nat.zero_mod, if_neg (by omega)]
  · rw [Nat.pow_div (by omega) (by decide),
      show 8 * count - 1 - position - (8 * count - (start + width)) = start + width - 1 - position by omega]
    by_cases early : position < start
    · rw [if_neg (by omega), show start + width - 1 - position = width + (start - 1 - position) by omega,
        Nat.pow_add, Nat.mul_mod_right]
    · rw [if_pos (by omega), Nat.mod_eq_of_lt (Nat.pow_lt_pow_right (by decide) (by omega))]

theorem add_mod_self_iff {top value modulus : Nat} (small : top < modulus) :
    (top + value) % modulus = top ↔ value % modulus = 0 := by
  constructor
  · intro same
    have split := Nat.mod_add_div (top + value) modulus
    rw [same] at split
    rw [← Nat.add_left_cancel split, Nat.mul_mod_right]
  · intro zero
    rw [Nat.add_mod, zero, Nat.add_zero, Nat.mod_mod, Nat.mod_eq_of_lt small]

/-- A number of some bits behind another. -/
theorem concat_lt {bits used width value : Nat} (small : bits < 2 ^ used) (valueSmall : value < 2 ^ width) :
    bits * 2 ^ width + value < 2 ^ (used + width) := by
  calc
    bits * 2 ^ width + value < (bits + 1) * 2 ^ width := by
      rw [Nat.succ_mul]
      exact Nat.add_lt_add_left valueSmall _
    _ ≤ 2 ^ used * 2 ^ width := Nat.mul_le_mul_right _ small
    _ = 2 ^ (used + width) := (Nat.pow_add 2 used width).symm

end Ipbm.Lib
