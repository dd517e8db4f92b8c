import Mathlib.Algebra.BigOperators.Group.List.Basic
import Mathlib.Tactic.Ring

/-! One's complement sums. A carry out of the top digit is added back at the bottom, so a word is a
remainder by the base less one, except that only zero is zero. -/

set_option autoImplicit false

namespace Ipbm.Lib

/-- Two words, with the carry of their sum added back. -/
def onesAdd (base left right : Nat) : Nat := (left + right) % base + (left + right) / base

def onesSum (base : Nat) (words : List Nat) : Nat := words.foldl (onesAdd base) 0

/-- The word of a number. -/
def onesWord (base number : Nat) : Nat :=
  if number = 0 then 0 else (number - 1) % (base - 1) + 1

/-- A sum folded to a word in two steps. -/
def onesFold (base number : Nat) : Nat :=
  let folded := number / base + number % base
  (folded + folded / base) % base

variable {base : Nat}

@[simp] theorem onesWord_zero : onesWord base 0 = 0 := rfl

theorem onesWord_of_lt {number : Nat} (small : number < base) : onesWord base number = number := by
  rw [onesWord]
  split
  · next zero => exact zero.symm
  · rw [Nat.mod_eq_of_lt (by omega)]
    omega

theorem onesWord_lt (two : 2 ≤ base) (number : Nat) : onesWord base number < base := by
  rw [onesWord]
  split
  · omega
  · have below := Nat.mod_lt (number - 1) (by omega : base - 1 > 0)
    omega

theorem onesWord_add (left right : Nat) :
    onesWord base (onesWord base left + right) = onesWord base (left + right) := by
  rcases Nat.eq_zero_or_pos left with rfl | positive
  · rfl
  · have isWord : onesWord base left = (left - 1) % (base - 1) + 1 := if_neg (by omega)
    have before : (left - 1) % (base - 1) + 1 + right - 1 = (left - 1) % (base - 1) + right := by omega
    have after : left + right - 1 = left - 1 + right := by omega
    rw [isWord, onesWord, onesWord, if_neg (by omega), if_neg (by omega), before, after, Nat.mod_add_mod]

/-- Adding the carry back keeps the word. -/
theorem onesWord_fold (two : 2 ≤ base) (number : Nat) :
    onesWord base (number / base + number % base) = onesWord base number := by
  have parts := Nat.div_add_mod number base
  rcases Nat.eq_zero_or_pos number with rfl | positive
  · rw [Nat.zero_div, Nat.zero_mod]
  · have split_ : number = (base - 1) * (number / base) + (number / base + number % base) := by
      rw [Nat.sub_one_mul, ← Nat.add_assoc, Nat.sub_add_cancel (Nat.le_mul_of_pos_left _ (by omega)), parts]
    have some_ : number / base + number % base ≠ 0 := by
      intro zero
      rw [zero, (Nat.add_eq_zero_iff.mp zero).1] at split_
      omega
    have before : number - 1 = (base - 1) * (number / base) + (number / base + number % base - 1) := by
      rw [← Nat.add_sub_assoc (Nat.pos_of_ne_zero some_), ← split_]
    rw [onesWord, onesWord, if_neg some_, if_neg (by omega), before, Nat.mul_add_mod]

theorem onesAdd_eq {left right : Nat} (leftSmall : left < base) (rightSmall : right < base) :
    onesAdd base left right = onesWord base (left + right) := by
  have two : left = 0 ∧ right = 0 ∨ 2 ≤ base := by omega
  rcases two with ⟨rfl, rfl⟩ | two
  · simp [onesAdd]
  · rw [onesAdd, Nat.add_comm, ← onesWord_fold two, onesWord_of_lt]
    rcases Nat.lt_or_ge (left + right) base with none_ | carry
    · rw [Nat.div_eq_of_lt none_, Nat.mod_eq_of_lt none_]
      omega
    · rw [Nat.div_eq_of_lt_le (by omega : 1 * base ≤ left + right) (by omega),
        Nat.mod_eq_sub_mod carry, Nat.mod_eq_of_lt (by omega)]
      omega

theorem onesSum_eq (two : 2 ≤ base) {words : List Nat} (small : ∀ word ∈ words, word < base) :
    onesSum base words = onesWord base words.sum := by
  have run : ∀ (words : List Nat) (start : Nat), (∀ word ∈ words, word < base) →
      words.foldl (onesAdd base) (onesWord base start) = onesWord base (start + words.sum) := by
    intro words
    induction words with
    | nil => exact fun _ _ => rfl
    | cons word rest ih =>
        intro start small
        obtain ⟨smallWord, smallRest⟩ := List.forall_mem_cons.mp small
        rw [List.foldl_cons, onesAdd_eq (onesWord_lt two start) smallWord, onesWord_add,
          ih _ smallRest, List.sum_cons, Nat.add_assoc]
  have whole := run words 0 small
  rwa [Nat.zero_add] at whole

/-- Two steps are enough for a sum of two digits, also where the first of them carries. -/
theorem onesFold_eq (two : 2 ≤ base) {number : Nat} (small : number < base * base) :
    onesFold base number = onesWord base number := by
  have high : number / base < base := Nat.div_lt_of_lt_mul small
  have low := Nat.mod_lt number (by omega : base > 0)
  rw [← onesWord_fold two, onesFold]
  generalize number / base = top at high
  generalize number % base = bottom at low
  rw [← onesAdd_eq high low, onesAdd]
  have parts := Nat.div_add_mod (top + bottom) base
  have whole : top + bottom + (top + bottom) / base = base * ((top + bottom) / base) +
      ((top + bottom) % base + (top + bottom) / base) := by
    omega
  have word := onesAdd_eq high low
  rw [onesAdd] at word
  show (top + bottom + (top + bottom) / base) % base = _
  rw [whole, Nat.mul_add_mod, word, Nat.mod_eq_of_lt (onesWord_lt two _)]

/-- The complement of a sum brings it to all ones, also where the sum is zero. -/
theorem onesWord_complement (two : 2 ≤ base) (number : Nat) :
    onesWord base (number + (base - 1 - onesWord base number)) = base - 1 := by
  rcases Nat.eq_zero_or_pos number with rfl | positive
  · rw [onesWord_zero, Nat.zero_add, Nat.sub_zero]
    exact onesWord_of_lt (by omega)
  · have isWord : onesWord base number = (number - 1) % (base - 1) + 1 := if_neg (by omega)
    have below := Nat.mod_lt (number - 1) (by omega : base - 1 > 0)
    have parts := Nat.div_add_mod (number - 1) (base - 1)
    have before : number + (base - 1 - ((number - 1) % (base - 1) + 1)) - 1 = (base - 1) *
        ((number - 1) / (base - 1)) + (base - 2) := by
      omega
    rw [isWord, onesWord, if_neg (by omega), before, Nat.mul_add_mod, Nat.mod_eq_of_lt (by omega)]
    omega

end Ipbm.Lib
