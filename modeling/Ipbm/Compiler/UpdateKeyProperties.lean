import Mathlib.Data.List.TakeWhile
import Ipbm.Compiler.UpdateKey

/-! The masks and the literals of table commands as big-endian numbers. -/

set_option autoImplicit false

namespace Ipbm.Compiler
open Lib Dataplane

namespace IpsaTableUpdateKey

/-! ### Masks -/

/-- The loop of `generateMask` with its counters `z` and `i`. -/
def clearLoop (z i : Int) (result : List UInt8) : Option (List UInt8) :=
  if 0 < z then
    if 0 ≤ i ∧ max z 8 < 32 then do
      let byte ← result[i.toNat]?
      clearLoop (z - 8) (i - 1) (result.set i.toNat (u8 (byte.toNat &&& (2 ^ 32 - 2 ^ (max z 8).toNat))))
    else
      none
  else
    some result
termination_by z.toNat
decreasing_by omega

private theorem cleared_byte (byte : UInt8) (shift : Nat) (least : 8 ≤ shift) :
    u8 (byte.toNat &&& (2 ^ 32 - 2 ^ shift)) = 0 := by
  have multiple : (2 ^ 32 - 2 ^ shift) % 2 ^ 8 = 0 := by
    have factor : 2 ^ 32 - 2 ^ shift = 2 ^ 8 * (2 ^ 24 - 2 ^ (shift - 8)) := by
      rw [Nat.mul_sub, ← Nat.pow_add, ← Nat.pow_add, Nat.add_sub_cancel' least]
    rw [factor, Nat.mul_mod_right]
  apply UInt8.toNat_inj.mp
  rw [toNat_u8, show 256 = 2 ^ 8 from rfl, Nat.and_mod_two_pow, multiple, Nat.and_zero]
  rfl

private theorem clearLoop_eq {rest count : Nat} {result : List UInt8} (room : bytesFor rest ≤ count)
    (inside : count ≤ result.length) : clearLoop rest (count - 1) result =
      if rest < 32 then some (result.take (count - bytesFor rest) ++
        List.replicate (bytesFor rest) 0 ++ result.drop count)
      else none := by
  induction rest using Nat.strong_induction_on generalizing count result with
  | _ rest ih =>
      rw [clearLoop]
      rcases Nat.eq_zero_or_pos rest with none_ | positive
      · subst none_
        simp [bytesFor]
      · obtain ⟨before, rfl⟩ : ∃ before, count = before + 1 := ⟨count - 1, by unfold bytesFor at room; omega⟩
        have index : ((before + 1 : Nat) : Int) - 1 = before := by omega
        rw [if_pos (by omega), index]
        by_cases small : rest < 32
        · have here : before < result.length := inside
          have shift : (max (rest : Int) 8).toNat = max rest 8 := by omega
          rw [if_pos (by omega), if_pos small, Int.toNat_natCast, List.getElem?_eq_getElem here,
            Option.bind_eq_bind, Option.bind_some, shift, cleared_byte _ _ (Nat.le_max_right _ _)]
          have placed : result.set before 0 = result.take before ++ 0 :: result.drop (before + 1) :=
            List.set_eq_take_append_cons_drop.trans (if_pos here)
          rcases Nat.lt_or_ge 8 rest with more | last
          · obtain ⟨left, rfl⟩ : ∃ left, rest = left + 8 := ⟨rest - 8, by omega⟩
            have bytes : bytesFor (left + 8) = bytesFor left + 1 := by
              unfold bytesFor
              omega
            have less : ((left + 8 : Nat) : Int) - 8 = left := by omega
            have front : (result.set before 0).take (before - bytesFor left) = result.take
                (before - bytesFor left) :=
              List.take_set_of_le (Nat.sub_le _ _)
            have back : (result.set before 0).drop before = 0 :: result.drop (before + 1) := by
              rw [placed, List.drop_left' (List.length_take_of_le here.le)]
            rw [less, ih left (by omega) (by omega) (by rw [List.length_set]; exact here.le),
              if_pos (by omega), front, back, bytes, Nat.add_sub_add_right, List.replicate_succ',
              List.append_assoc, List.append_assoc, List.append_assoc,
              List.singleton_append]
          · have bytes : bytesFor rest = 1 := by
              unfold bytesFor
              omega
            rw [clearLoop, if_neg (by omega), placed, bytes, Nat.add_sub_cancel, List.append_assoc]
            rfl
        · rw [if_neg (by omega), if_neg small]

private theorem full_eq (width : Nat) :
    (if width % 8 = 0 then List.replicate (bytesFor width) (0xFF : UInt8)
      else (List.replicate (bytesFor width) 0xFF).set 0 (u8 (2 ^ (width % 8) - 1))) =
        beBytes (bytesFor width) (2 ^ width - 1) := by
  have ones (count : Nat) : List.replicate count (0xFF : UInt8) = beBytes count (256 ^ count - 1) := by
    induction count with
    | zero => rfl
    | succ count ih =>
        have positive : 0 < 256 ^ count := Nat.pow_pos (by decide)
        have split : 256 ^ (count + 1) - 1 = (256 ^ count - 1) * 256 + (0xFF : UInt8).toNat := by
          rw [Nat.pow_succ, show (0xFF : UInt8).toNat = 255 from rfl]
          omega
        rw [split, beBytes_append, ← ih, List.replicate_succ']
  by_cases aligned : width % 8 = 0
  · have size : 8 * bytesFor width = width := by
      unfold bytesFor
      omega
    rw [if_pos aligned, ones, pow_256, size]
  · obtain ⟨count, size⟩ : ∃ count, bytesFor width = count + 1 := ⟨width / 8, by unfold bytesFor; omega⟩
    have whole : 8 * count + width % 8 = width := by
      unfold bytesFor at size
      omega
    have lower : 0 < 256 ^ count := Nat.pow_pos (by decide)
    have split : 2 ^ width - 1 = 256 ^ count * (2 ^ (width % 8) - 1) + (256 ^ count - 1) := by
      obtain ⟨top, isTop⟩ := Nat.exists_eq_add_of_lt (Nat.two_pow_pos (width % 8))
      have power : 2 ^ width = 256 ^ count * 2 ^ (width % 8) := by
        rw [pow_256, ← Nat.pow_add, whole]
      rw [power, isTop, Nat.zero_add, Nat.mul_succ, Nat.add_sub_cancel]
      omega
    have small : 256 ^ count - 1 < 256 ^ count := Nat.sub_lt lower (by decide)
    have high : (2 ^ width - 1) / 256 ^ count = 2 ^ (width % 8) - 1 := by
      rw [split, Nat.mul_add_div lower, Nat.div_eq_of_lt small, Nat.add_zero]
    have low : (2 ^ width - 1) % 256 ^ count = 256 ^ count - 1 := by
      rw [split, Nat.mul_add_mod, Nat.mod_eq_of_lt small]
    rw [if_neg aligned, size, List.replicate_succ, List.set_cons_zero, beBytes, high, ones,
      ← low, beBytes_mod]

/-- `generateMask` as it is written, with its loop. -/
theorem generateMask_eq (width : Nat) (prelen : Int) : generateMask width prelen =
    if 0 ≤ prelen then clearLoop (width - prelen) ((bytesFor width : Nat) -
      1) (beBytes (bytesFor width) (2 ^ width - 1))
    else some (beBytes (bytesFor width) (2 ^ width - 1)) := by
  unfold generateMask
  dsimp only
  rw [full_eq]
  by_cases negative : prelen < 0
  · rw [if_neg (Int.not_le.mpr negative)]
    simp only [negative, if_true]
    simp [bytesFor, List.take_of_length_le]
  · rw [if_pos (Int.not_lt.mp negative)]
    simp only [negative, if_false]
    rcases lt_or_ge (width : Int) prelen with beyond | inside
    · have none_ : (width - prelen).toNat = 0 := by omega
      have done : ¬ 0 < (width : Int) - prelen := by omega
      rw [none_, clearLoop, if_neg done]
      simp [bytesFor, List.take_of_length_le]
    · obtain ⟨rest, isRest⟩ : ∃ rest : Nat, (width : Int) - prelen = rest :=
        ⟨(width - prelen).toNat, by omega⟩
      have room : bytesFor rest ≤ bytesFor width := by
        unfold bytesFor
        omega
      have whole := length_beBytes (bytesFor width) (2 ^ width - 1)
      rw [isRest, Int.toNat_natCast, clearLoop_eq room whole.ge, List.drop_eq_nil_of_le whole.le,
        List.append_nil]

/-- The number whose leading bits are one, up to the length of a prefix or, without one, the whole width. -/
def prefixMask (width : Nat) (prelen : Int) : Nat :=
  if prelen < 0 then 2 ^ width - 1 else (2 ^ prelen.toNat - 1) * 2 ^ (width - prelen.toNat)

private theorem take_beBytes {count back : Nat} (room : back ≤ count) (value : Nat) :
    (beBytes count value).take (count - back) ++ List.replicate back 0 =
      beBytes count (value / 256 ^ back * 256 ^ back) := by
  obtain ⟨front, rfl⟩ := Nat.exists_eq_add_of_le' room
  have positive : 0 < 256 ^ back := Nat.pow_pos (by decide)
  have low : beBytes back (value / 256 ^ back * 256 ^ back) = List.replicate back 0 := by
    rw [← beBytes_mod, Nat.mul_mod_left, beBytes_zero]
  rw [beBytes_add, beBytes_add, low, Nat.mul_div_cancel _ positive, Nat.add_sub_cancel,
    List.take_left' (length_beBytes _ _)]

private theorem keptOnes_eq {width rest : Nat} (inside : rest ≤ width) :
    (2 ^ width - 1) / 256 ^ bytesFor rest * 256 ^ bytesFor rest = 2 ^ width - 2 ^ rest ↔
      rest = width ∨ rest % 8 = 0 := by
  have restSmall : 2 ^ rest ≤ 2 ^ width := Nat.pow_le_pow_right (by decide) inside
  have covers : rest ≤ 8 * bytesFor rest := by
    unfold bytesFor
    omega
  rw [pow_256]
  rcases Nat.lt_or_ge width (8 * bytesFor rest) with beyond | within
  · have power : 2 ^ width < 2 ^ (8 * bytesFor rest) := Nat.pow_lt_pow_right (by decide) beyond
    have partial_ : rest % 8 ≠ 0 := by
      unfold bytesFor at beyond
      omega
    rw [Nat.div_eq_of_lt ((Nat.sub_le _ _).trans_lt power), Nat.zero_mul]
    constructor
    · intro none_
      have same : 2 ^ rest = 2 ^ width := by omega
      exact Or.inl (Nat.pow_right_injective (by decide) same)
    · intro condition
      rw [condition.resolve_right partial_, Nat.sub_self]
  · have power : 2 ^ width = 2 ^ (8 * bytesFor rest) * 2 ^ (width - 8 * bytesFor rest) := by
      rw [← Nat.pow_add, Nat.add_sub_cancel' within]
    have step : 0 < 2 ^ (8 * bytesFor rest) := Nat.two_pow_pos _
    have high : (2 ^ width - 1) / 2 ^ (8 * bytesFor rest) = 2 ^ (width - 8 * bytesFor rest) - 1 := by
      rw [power, Nat.mul_sub_div 0 _ _ (Nat.mul_pos step (Nat.two_pow_pos _)), Nat.zero_div]
    rw [high, Nat.sub_mul, Nat.mul_comm (2 ^ (width - _)), ← power, Nat.one_mul]
    have bound : 2 ^ (8 * bytesFor rest) ≤ 2 ^ width := Nat.pow_le_pow_right (by decide) within
    constructor
    · intro same
      have powers : 2 ^ rest = 2 ^ (8 * bytesFor rest) := by omega
      have whole : rest = 8 * bytesFor rest := Nat.pow_right_injective (by decide) powers
      exact Or.inr (by omega)
    · intro condition
      have whole : 8 * bytesFor rest = rest := by
        unfold bytesFor at within ⊢
        omega
      rw [whole]

private theorem generateMask_kept {width kept : Nat} (inside : kept ≤ width) : generateMask width kept =
    if width - kept < 32 then
      some (beBytes (bytesFor width)
        ((2 ^ width - 1) / 256 ^ bytesFor (width - kept) * 256 ^ bytesFor (width - kept)))
    else none := by
  have rest : (if (kept : Int) < 0 then 0 else ((width : Int) - kept).toNat) = width - kept := by
    rw [if_neg (by omega)]
    omega
  have room : bytesFor (width - kept) ≤ bytesFor width := by
    unfold bytesFor
    omega
  unfold generateMask
  dsimp only
  rw [full_eq, rest, take_beBytes room]

/-- The mask of a prefix is exactly right if less than 32 bits are left behind it, and these are
whole bytes or all of the width. -/
theorem generateMask_exact_iff {width : Nat} {prelen : Int} (inside : prelen ≤ width) :
    generateMask width prelen = some (beBytes (bytesFor width) (prefixMask width prelen)) ↔
      prelen < 0 ∨ width - prelen < 32 ∧ (prelen = 0 ∨ (width - prelen) % 8 = 0) := by
  rcases lt_or_ge prelen 0 with negative | positive
  · rw [generateMask_eq, if_neg (Int.not_le.mpr negative), prefixMask, if_pos negative]
    exact iff_of_true rfl (Or.inl negative)
  · obtain ⟨kept, rfl⟩ := Int.eq_ofNat_of_zero_le positive
    have keptInside : kept ≤ width := Int.ofNat_le.mp inside
    have left : (width : Int) - kept = (width - kept : Nat) := by omega
    have keptMask : prefixMask width kept = 2 ^ width - 2 ^ (width - kept) := by
      rw [prefixMask, if_neg (Int.not_lt.mpr positive), Int.toNat_natCast, Nat.sub_mul,
        Nat.one_mul, ← Nat.pow_add, Nat.add_sub_cancel' keptInside]
    have fits : 2 ^ width ≤ 256 ^ bytesFor width := by
      rw [pow_256]
      apply Nat.pow_le_pow_right (by decide)
      unfold bytesFor
      omega
    have keptSmall : 2 ^ width - 2 ^ (width - kept) < 256 ^ bytesFor width :=
      (Nat.sub_lt (Nat.two_pow_pos width) (Nat.two_pow_pos _)).trans_le fits
    have clearedSmall : (2 ^ width - 1) / 256 ^ bytesFor (width - kept) * 256 ^ bytesFor
        (width - kept) < 256 ^ bytesFor width :=
      (Nat.div_mul_le_self _ _).trans_lt ((Nat.sub_lt (Nat.two_pow_pos width) Nat.one_pos).trans_le fits)
    rw [generateMask_kept keptInside, keptMask]
    by_cases short : width - kept < 32
    · rw [if_pos short, Option.some.injEq, beBytes_inj clearedSmall keptSmall, keptOnes_eq (Nat.sub_le _ _)]
      omega
    · rw [if_neg short]
      simp only [reduceCtorEq, false_iff]
      omega

theorem generateMask_exact_class : generateMask 32 24 = some (beBytes (bytesFor 32) (prefixMask 32 24)) :=
  (@generateMask_exact_iff 32 24 (by decide)).mpr (Or.inr ⟨by decide, Or.inr (by decide)⟩)

theorem generateMask_not_exact_classless : generateMask 32 20 = some [0xFF, 0xFF, 0, 0] ∧
    generateMask 32 20 ≠ some (beBytes (bytesFor 32) (prefixMask 32 20)) := by
  decide

/-! ### Literals -/

def numerals : List Char :=
  ['0', '1', '2', '3', '4', '5', '6', '7', '8', '9', 'a', 'b', 'c', 'd', 'e', 'f']

def digitValue (base : Nat) (c : Char) : Option Nat :=
  (numerals.take base).idxOf? c.toLower

def digitsValue (base : Nat) (digits : List Char) : Option Nat :=
  digits.foldlM (fun value c => return value * base + (← digitValue base c)) 0

/-- The number that a text denotes. -/
inductive Literal : List Char → Nat → Prop where
  | decimal {digits : List Char} {value : Nat} (some_ : digits ≠ [])
      (denotes : digitsValue 10 digits = some value) :
      Literal digits value
  | hexadecimal {digits : List Char} {value : Nat} (some_ : digits ≠ [])
      (denotes : digitsValue 16 digits = some value) :
      Literal ('0' :: 'x' :: digits) value

theorem digitsValue_concat (base : Nat) (digits : List Char) (c : Char) :
    digitsValue base (digits ++
      [c]) = do return (← digitsValue base digits) * base + (← digitValue base c) := by
  simp [digitsValue, List.foldlM_append]

private theorem digitValue_ascii {base value : Nat} {c : Char}
    (denotes : digitValue base c = some value) : c.toNat < 128 := by
  have found : c.toLower ∈ numerals := by
    apply List.mem_of_mem_take
    by_contra missing
    rw [digitValue, List.idxOf?_eq_none_iff.mpr missing] at denotes
    cases denotes
  have small : ∀ digit, digit ∈ numerals → digit.toNat < 128 := by
    simp [numerals]
  have lower := small _ found
  unfold Char.toLower at lower
  split at lower
  · next upper => exact Nat.lt_of_le_of_lt upper.2 (by decide)
  · exact lower

private theorem digitValue_sixteen {c : Char} {value : Nat} (denotes : digitValue 16 c = some value) :
    convert c = some value ∧ value < 16 := by
  have ascii : ∀ code : Fin 128, (digitValue 16 (Char.ofNat code)).all fun value =>
      convert (Char.ofNat code) = some value ∧ value < 16 := by
    decide
  have here := ascii ⟨c.toNat, digitValue_ascii denotes⟩
  rw [Char.ofNat_toNat, denotes] at here
  exact of_decide_eq_true here

private theorem digitValue_ten {c : Char} {value : Nat} (denotes : digitValue 10 c = some value) :
    c.isDigit ∧ c.toNat - 48 = value := by
  have ascii : ∀ code : Fin 128, (digitValue 10 (Char.ofNat code)).all fun value =>
      (Char.ofNat code).isDigit ∧ (Char.ofNat code).toNat - 48 = value := by
    decide
  have here := ascii ⟨c.toNat, digitValue_ascii denotes⟩
  rw [Char.ofNat_toNat, denotes] at here
  exact of_decide_eq_true here

private theorem digitsValue_concat_some {base value : Nat} {digits : List Char} {c : Char}
    (denotes : digitsValue base (digits ++ [c]) = some value) :
    ∃ high low, digitsValue base digits = some high ∧ digitValue base c = some low ∧
      high * base + low = value := by
  rw [digitsValue_concat] at denotes
  obtain ⟨high, highEq, rest⟩ := Option.bind_eq_some_iff.mp denotes
  obtain ⟨low, lowEq, same⟩ := Option.bind_eq_some_iff.mp rest
  exact ⟨high, low, highEq, lowEq, Option.some.inj same⟩

private theorem hexBytes_reverse (reversed : List Char) {value : Nat}
    (denotes : digitsValue 16 reversed.reverse = some value) :
    ∃ bytes, hexBytes reversed = some bytes ∧ bytes.reverse = beBytes ((reversed.length + 1) / 2) value ∧
      value < 256 ^ ((reversed.length + 1) / 2) := by
  fun_induction hexBytes reversed generalizing value with
  | case1 =>
      cases denotes
      exact ⟨[], rfl, rfl, Nat.one_pos⟩
  | case2 low =>
      have alone : digitsValue 16 ([] ++ [low]) = some value := denotes
      obtain ⟨above, digit, none_, digitEq, rfl⟩ := digitsValue_concat_some alone
      obtain ⟨digitEq, digitSmall⟩ := digitValue_sixteen digitEq
      cases none_
      refine ⟨[u8 digit], ?_, ?_, ?_⟩
      · simp [digitEq]
      · simp [beBytes]
      · simp only [List.length_singleton, Nat.reduceAdd, Nat.reduceDiv, Nat.pow_one]
        omega
  | case3 low high rest ih =>
      rw [List.reverse_cons] at denotes
      obtain ⟨upper, last, upperEq, lastEq, rfl⟩ := digitsValue_concat_some denotes
      rw [List.reverse_cons] at upperEq
      obtain ⟨front, next, frontEq, nextEq, rfl⟩ := digitsValue_concat_some upperEq
      obtain ⟨bytes, bytesEq, reverseEq, frontSmall⟩ := ih frontEq
      obtain ⟨lastEq, lastSmall⟩ := digitValue_sixteen lastEq
      obtain ⟨nextEq, nextSmall⟩ := digitValue_sixteen nextEq
      have byte : (u8 (last ||| next <<< 4)).toNat = next * 16 + last := by
        rw [toNat_u8, Nat.or_comm, ← Nat.shiftLeft_add_eq_or_of_lt lastSmall, Nat.shiftLeft_eq]
        omega
      have whole : (front * 16 + next) * 16 + last = front * 256 + (u8 (last ||| next <<< 4)).toNat := by
        rw [byte]
        omega
      have count : ((low :: high :: rest).length + 1) / 2 = (rest.length + 1) / 2 + 1 := by
        simp only [List.length_cons]
        omega
      refine ⟨u8 (last ||| next <<< 4) :: bytes, ?_, ?_, ?_⟩
      · simp [lastEq, nextEq, bytesEq]
      · rw [count, whole, beBytes_append, List.reverse_cons, reverseEq]
      · rw [count, Nat.pow_succ]
        omega

private theorem decimal_digits {digits : List Char} {above value : Nat}
    (denotes : digits.foldlM (fun value c => return value * 10 + (← digitValue 10 c)) above = some value) :
    (∀ c ∈ digits, c.isDigit) ∧
      digits.foldl (fun value digit => value * 10 +
        ((digit.toNat - 48 : Nat) : Int)) (above : Int) = value := by
  induction digits generalizing above with
  | nil =>
      cases denotes
      exact ⟨nofun, rfl⟩
  | cons c rest ih =>
      rw [List.foldlM_cons] at denotes
      obtain ⟨next, nextEq, restEq⟩ := Option.bind_eq_some_iff.mp denotes
      obtain ⟨digit, digitEq, isNext⟩ := Option.bind_eq_some_iff.mp nextEq
      obtain ⟨isDigit, isValue⟩ := digitValue_ten digitEq
      obtain ⟨restDigits, total⟩ := ih restEq
      cases isNext
      refine ⟨List.forall_mem_cons.mpr ⟨isDigit, restDigits⟩, ?_⟩
      rw [List.foldl_cons, isValue, ← total]
      simp only [Int.natCast_add, Int.natCast_mul, Int.cast_ofNat_Int]

private theorem stoi_decimal {digits : List Char} {value : Nat} (some_ : digits ≠ [])
    (denotes : digitsValue 10 digits = some value) :
    stoi digits = if value < 2 ^ 31 then some (value : Int) else none := by
  obtain ⟨all, total⟩ := decimal_digits denotes
  have taken : digits.takeWhile Char.isDigit = digits := List.takeWhile_eq_self_iff.mpr all
  obtain ⟨first, rest, rfl⟩ := List.exists_cons_of_ne_nil some_
  have digit : first.isDigit := all first List.mem_cons_self
  have low : 48 ≤ first.toNat ∧ first.toNat ≤ 57 := by
    simpa [Char.isDigit, UInt32.le_iff_toNat_le] using digit
  have noBlank : (first :: rest).dropWhile (fun c => c = ' ' ∨ 9 ≤ c.toNat ∧ c.toNat ≤ 13) =
      first :: rest := by
    apply List.dropWhile_cons_of_neg
    simp only [decide_eq_true_eq, not_or, not_and]
    constructor
    · rintro rfl
      cases digit
    · omega
  unfold stoi
  rw [noBlank]
  dsimp only
  split
  · next same => cases same; cases digit
  · next same => cases same; cases digit
  · rw [Int.natCast_zero] at total
    dsimp only
    rw [taken, total, Int.one_mul]
    refine if_congr ?_ rfl rfl
    constructor
    · intro inside
      exact Int.ofNat_lt.mp inside.2.2
    · intro small
      exact ⟨some_, (by decide : (-2 : Int) ^ 31 ≤ 0).trans (Int.natCast_nonneg value),
        Int.ofNat_lt.mpr small⟩

/-- A literal is encoded exactly if its hexadecimal digits fit the bytes of the width, or if its
decimal value is an `int`. -/
theorem parseNumber_exact_iff {text : List Char} {value : Nat} (literal : Literal text value) (width : Nat) :
    parseNumber text width = some (beBytes (bytesFor width) value) ↔
      if text.take 2 = ['0', 'x'] then text.length ≤ 2 + 2 * bytesFor width else value < 2 ^ 31 := by
  cases literal with
  | decimal some_ denotes =>
      obtain ⟨all, -⟩ := decimal_digits denotes
      have noPrefix : text.take 2 ≠ ['0', 'x'] := by
        intro isPrefix
        have found : 'x' ∈ text.take 2 := isPrefix ▸ List.mem_cons_of_mem '0' List.mem_cons_self
        cases all 'x' (List.mem_of_mem_take found)
      have plain : parseNumber text width = do return beBytes (bytesFor width) (← stoi text).toNat := by
        unfold parseNumber
        split
        · cases noPrefix rfl
        · rfl
      rw [plain, stoi_decimal some_ denotes, if_neg noPrefix]
      split
      · next small => exact iff_of_true rfl small
      · next large => exact iff_of_false nofun large
  | @hexadecimal digits value some_ denotes =>
      have back : digitsValue 16 digits.reverse.reverse = some value := by
        rw [List.reverse_reverse]
        exact denotes
      obtain ⟨bytes, bytesEq, reverseEq, small⟩ := hexBytes_reverse digits.reverse back
      rw [List.length_reverse] at reverseEq small
      have count : bytes.length = (digits.length + 1) / 2 := by
        rw [← List.length_reverse, reverseEq, length_beBytes]
      have isPrefix : ('0' :: 'x' :: digits).take 2 = ['0', 'x'] := rfl
      simp only [parseNumber, bytesEq, Option.bind_eq_bind, Option.bind_some]
      rw [if_pos isPrefix, List.length_cons, List.length_cons]
      split
      · next room =>
          obtain ⟨front, isFront⟩ := Nat.exists_eq_add_of_le' room
          have padded : List.replicate (bytesFor width - bytes.length) 0 ++ bytes.reverse = beBytes
              (bytesFor width) value := by
            rw [isFront, Nat.add_sub_cancel, reverseEq, count, beBytes_add,
              Nat.div_eq_of_lt small, beBytes_zero]
          exact iff_of_true (congrArg some padded) (by omega)
      · next short => exact iff_of_false nofun (by omega)

theorem parseNumber_exact_zeros :
    parseNumber ['0', 'x', '0', '1', 'F', '4'] 12 = some (beBytes (bytesFor 12) 500) :=
  (parseNumber_exact_iff (@Literal.hexadecimal ['0', '1', 'F', '4'] 500 (List.cons_ne_nil _ _)
    (by decide)) 12).mpr (by decide)

theorem parseNumber_not_exact_broadcast :
    Literal ['4', '2', '9', '4', '9', '6', '7', '2', '9', '5'] (2 ^ 32 - 1) ∧
    parseNumber ['4', '2', '9', '4', '9', '6', '7', '2', '9', '5'] 32 = none ∧
    Literal ['0', 'x', '0', '0', '1'] 1 ∧ parseNumber ['0', 'x', '0', '0', '1'] 8 = none := by
  refine ⟨.decimal (List.cons_ne_nil _ _) ?_, ?_, .hexadecimal (List.cons_ne_nil _ _) ?_, ?_⟩ <;> decide

end IpsaTableUpdateKey

end Ipbm.Compiler
