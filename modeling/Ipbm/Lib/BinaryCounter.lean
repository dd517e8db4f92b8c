import Mathlib.Data.Bool.Basic
import Mathlib.Data.List.Lex
import Mathlib.Data.List.Sort
import Mathlib.Tactic.Ring

/-! Bit strings of one width as the numbers they denote: a wrapping counter over them, their
lexicographic order, and the list of all of them. -/

set_option autoImplicit false

namespace Ipbm.Lib

/-- The lowest `width` binary digits of a number, least significant first. -/
def binaryLE : Nat → Nat → List Bool
  | 0, _ => []
  | width + 1, number => decide (number % 2 = 1) :: binaryLE width (number / 2)

/-- The lowest `width` binary digits of a number, most significant first. -/
def binary (width number : Nat) : List Bool := (binaryLE width number).reverse

/-- One more, from the least significant digit on; the last carry is lost. -/
def increment : List Bool → List Bool
  | [] => []
  | true :: rest => false :: increment rest
  | false :: rest => true :: rest

@[simp] theorem length_binaryLE (width number : Nat) : (binaryLE width number).length = width := by
  induction width generalizing number with
  | zero => rfl
  | succ width ih => rw [binaryLE, List.length_cons, ih]

@[simp] theorem length_binary (width number : Nat) : (binary width number).length = width := by
  rw [binary, List.length_reverse, length_binaryLE]

theorem increment_binaryLE (width number : Nat) :
    increment (binaryLE width number) = binaryLE width (number + 1) := by
  induction width generalizing number with
  | zero => rfl
  | succ width ih =>
      rcases Nat.mod_two_eq_zero_or_one number with even | odd
      · have next : (number + 1) % 2 = 1 := by omega
        have half : (number + 1) / 2 = number / 2 := by omega
        simp [binaryLE, even, next, half, increment]
      · have next : (number + 1) % 2 = 0 := by omega
        have half : (number + 1) / 2 = number / 2 + 1 := by omega
        simp [binaryLE, odd, next, half, increment, ih]

theorem binaryLE_mod (width number : Nat) : binaryLE width (number % 2 ^ width) = binaryLE width number := by
  induction width generalizing number with
  | zero => rfl
  | succ width ih =>
      have low : number % 2 ^ (width + 1) % 2 = number % 2 := Nat.mod_mod_of_dvd _ ⟨2 ^ width, Nat.pow_succ'⟩
      have high : number % 2 ^ (width + 1) / 2 = number / 2 % 2 ^ width := by
        rw [Nat.pow_succ', Nat.mod_mul_right_div_self]
      rw [binaryLE, binaryLE, low, high, ih]

theorem binaryLE_append (low high number : Nat) :
    binaryLE (low + high) number = binaryLE low number ++ binaryLE high (number / 2 ^ low) := by
  induction low generalizing number with
  | zero => simp [binaryLE]
  | succ low ih =>
      rw [Nat.succ_add, binaryLE, binaryLE, ih, List.cons_append, Nat.div_div_eq_div_mul, ← Nat.pow_succ']

theorem binary_zero (width : Nat) : binary width 0 = List.replicate width false := by
  have digits : binaryLE width 0 = List.replicate width false := by
    induction width with
    | zero => rfl
    | succ width ih => simp [binaryLE, List.replicate_succ, ih]
  rw [binary, digits, List.reverse_replicate]

theorem binary_ones (width : Nat) : binary width (2 ^ width - 1) = List.replicate width true := by
  have digits : binaryLE width (2 ^ width - 1) = List.replicate width true := by
    induction width with
    | zero => rfl
    | succ width ih =>
        have positive := Nat.two_pow_pos width
        have odd : (2 ^ (width + 1) - 1) % 2 = 1 := by omega
        have half : (2 ^ (width + 1) - 1) / 2 = 2 ^ width - 1 := by omega
        rw [binaryLE, odd, half, ih]
        rfl
  rw [binary, digits, List.reverse_replicate]

/-- The counter starts again behind its last number. -/
theorem binary_wraps (width : Nat) : binary width (2 ^ width) = binary width 0 := by
  rw [binary, ← binaryLE_mod, Nat.mod_self, binary]

/-- The digits of a number behind those of another one. -/
theorem binary_concat {low : Nat} (high front back : Nat) (small : back < 2 ^ low) :
    binary (high + low) (front * 2 ^ low + back) = binary high front ++ binary low back := by
  have lowDigits : (front * 2 ^ low + back) % 2 ^ low = back := by
    rw [Nat.mul_add_mod_self_right, Nat.mod_eq_of_lt small]
  have highDigits : (front * 2 ^ low + back) / 2 ^ low = front := by
    rw [Nat.add_comm, Nat.add_mul_div_right _ _ (Nat.two_pow_pos low), Nat.div_eq_of_lt small, Nat.zero_add]
  rw [binary, Nat.add_comm high, binaryLE_append, highDigits, ← binaryLE_mod low, lowDigits,
    List.reverse_append]
  rfl

private theorem binary_succ {width number : Nat} (small : number < 2 ^ (width + 1)) :
    binary (width + 1) number = decide (2 ^ width ≤ number) :: binary width (number % 2 ^ width) := by
  have split :=
    binary_concat 1 (number / 2 ^ width) (number % 2 ^ width) (Nat.mod_lt number (Nat.two_pow_pos width))
  rw [Nat.mul_comm, Nat.div_add_mod, Nat.add_comm] at split
  have top : number / 2 ^ width < 2 := Nat.div_lt_of_lt_mul (by rwa [Nat.pow_succ] at small)
  have first : binary 1 (number / 2 ^ width) = [decide (2 ^ width ≤ number)] := by
    by_cases above : 2 ^ width ≤ number
    · have one : number / 2 ^ width = 1 := by
        have := Nat.div_pos above (Nat.two_pow_pos width)
        omega
      rw [one, decide_eq_true above]
      rfl
    · rw [Nat.div_eq_of_lt (Nat.lt_of_not_le above), decide_eq_false above]
      rfl
  rw [split, first, List.singleton_append]

/-- The lexicographic order of the digits is that of the numbers. -/
theorem binary_lt {width first second : Nat} (less : first < second) (small : second < 2 ^ width) :
    binary width first < binary width second := by
  induction width generalizing first second with
  | zero => omega
  | succ width ih =>
      have power : 2 ^ (width + 1) = 2 * 2 ^ width := Nat.pow_succ'
      rw [binary_succ (less.trans small), binary_succ small, List.cons_lt_cons_iff]
      by_cases low : 2 ^ width ≤ first
      · right
        have high := low.trans less.le
        rw [decide_eq_true low, decide_eq_true high, Nat.mod_eq_sub_mod low, Nat.mod_eq_sub_mod high,
          Nat.mod_eq_of_lt (by omega), Nat.mod_eq_of_lt (by omega)]
        exact ⟨rfl, ih (by omega) (by omega)⟩
      · by_cases high : 2 ^ width ≤ second
        · left
          rw [decide_eq_false low, decide_eq_true high]
          decide
        · right
          rw [decide_eq_false low, decide_eq_false high, Nat.mod_eq_of_lt (by omega),
            Nat.mod_eq_of_lt (by omega)]
          exact ⟨rfl, ih less (by omega)⟩

theorem binary_inj {width first second : Nat} (firstSmall : first < 2 ^ width)
    (secondSmall : second < 2 ^ width) (same : binary width first = binary width second) :
    first = second := by
  rcases Nat.lt_trichotomy first second with less | equal | more
  · exact absurd same (binary_lt less secondSmall).ne
  · exact equal
  · exact absurd same.symm (binary_lt more firstSmall).ne

theorem exists_binary (bits : List Bool) : ∃ number < 2 ^ bits.length, bits = binary bits.length number := by
  induction bits with
  | nil => exact ⟨0, by decide, rfl⟩
  | cons bit rest ih =>
      obtain ⟨number, small, digits⟩ := ih
      have power : 2 ^ (rest.length + 1) = 2 * 2 ^ rest.length := Nat.pow_succ'
      refine ⟨bit.toNat * 2 ^ rest.length + number, ?_, ?_⟩
      · rw [List.length_cons]
        cases bit <;> simp <;> omega
      · rw [List.length_cons, Nat.add_comm rest.length, binary_concat 1 _ _ small, ← digits]
        cases bit <;> rfl

/-- All bit strings of a width, in increasing order. -/
def assignments (width : Nat) : List (List Bool) := (List.range (2 ^ width)).map (binary width)

theorem mem_assignments {width : Nat} {bits : List Bool} :
    bits ∈ assignments width ↔ bits.length = width := by
  rw [assignments, List.mem_map]
  constructor
  · intro ⟨number, _, same⟩
    rw [← same, length_binary]
  · intro length
    obtain ⟨number, small, same⟩ := exists_binary bits
    rw [length] at small same
    exact ⟨number, List.mem_range.mpr small, same.symm⟩

theorem pairwise_assignments (width : Nat) : (assignments width).Pairwise (· < ·) := by
  rw [assignments, List.pairwise_map]
  refine List.Pairwise.imp_of_mem (fun {first second} _ member less =>
    binary_lt less (List.mem_range.mp member))
    List.pairwise_lt_range

end Ipbm.Lib
