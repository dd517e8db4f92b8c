import Mathlib.Data.List.TakeWhile

/-! Scanners, which split one lexeme at a time off a text. A lexeme may carry no
token, as a blank does. -/

set_option autoImplicit false

namespace Ipbm.Lib

/-- What a text that begins with a character is split into: a token and what is left. -/
structure Scanner (α τ : Type) where
  scan : α → List α → Option τ × List α
  shorter : ∀ first rest, (scan first rest).2.length ≤ rest.length

namespace Scanner

variable {α τ : Type} (scanner : Scanner α τ)

def run : Nat → List α → List τ
  | _, [] => []
  | 0, _ :: _ => []
  | fuel + 1, first :: rest =>
      (scanner.scan first rest).1.toList ++ run fuel (scanner.scan first rest).2

def tokens (text : List α) : List τ := scanner.run text.length text

@[simp] theorem tokens_nil : scanner.tokens [] = [] := rfl

/-- Fuel for every character is enough. -/
theorem run_of_le {fuel : Nat} {text : List α} (enough : text.length ≤ fuel) :
    scanner.run fuel text = scanner.tokens text := by
  induction fuel using Nat.strong_induction_on generalizing text with
  | _ fuel ih =>
      cases text with
      | nil => cases fuel <;> rfl
      | cons first rest =>
          obtain ⟨less, rfl⟩ : ∃ less, fuel = less + 1 :=
            ⟨fuel - 1, by simp only [List.length_cons] at enough; omega⟩
          have shorter := scanner.shorter first rest
          simp only [List.length_cons, Nat.add_le_add_iff_right] at enough
          have here := ih less (Nat.lt_succ_self _) (Nat.le_trans shorter enough)
          have there : scanner.run rest.length (scanner.scan first rest).2 =
              scanner.tokens (scanner.scan first rest).2 := by
            rcases Nat.lt_or_eq_of_le enough with less' | same
            · exact ih rest.length (Nat.lt_succ_of_lt less') shorter
            · exact same ▸ here
          change _ ++ scanner.run less _ = _ ++ scanner.run rest.length _
          rw [here, there]

theorem tokens_cons (first : α) (rest : List α) :
    scanner.tokens (first :: rest) =
      (scanner.scan first rest).1.toList ++ scanner.tokens (scanner.scan first rest).2 := by
  rw [← scanner.run_of_le (scanner.shorter first rest)]
  rfl

/-- What holds of every scanned token holds of the tokens of a text. -/
theorem forall_tokens {P : τ → Prop}
    (each : ∀ first rest token, (scanner.scan first rest).1 = some token → P token)
    (text : List α) : ∀ token ∈ scanner.tokens text, P token := by
  unfold tokens
  generalize text.length = fuel
  induction fuel generalizing text with
  | zero => cases text <;> simp [run]
  | succ fuel ih =>
      cases text with
      | nil => simp [run]
      | cons first rest =>
          intro token member
          rcases List.mem_append.mp member with here | later
          · exact each first rest token (Option.mem_toList.mp here)
          · exact ih _ token later

end Scanner

/-- A run of characters that what follows does not continue. -/
theorem takeWhile_run {α : Type} {p : α → Bool} {run rest : List α} (all : ∀ c ∈ run, p c)
    (stop : ∀ c ∈ rest.head?, p c = false) :
    (run ++ rest).takeWhile p = run ∧ (run ++ rest).dropWhile p = rest := by
  have none : rest.takeWhile p = [] ∧ rest.dropWhile p = rest := by
    cases rest with
    | nil => exact ⟨rfl, rfl⟩
    | cons c rest =>
        have first := stop c rfl
        exact ⟨List.takeWhile_cons_of_neg (by simp [first]), List.dropWhile_cons_of_neg (by simp [first])⟩
  rw [List.takeWhile_append_of_pos all, List.dropWhile_append_of_pos all, none.1, none.2, List.append_nil]
  exact ⟨rfl, rfl⟩

end Ipbm.Lib
