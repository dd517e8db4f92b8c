import Mathlib.Data.Nat.Init

/-! Runs of a deterministic machine, and simulations in which one step of the
simulating machine stands for one or more steps of the other. Such a simulation
keeps the end of every run, and keeps a run without end going. -/

set_option autoImplicit false

namespace Ipbm.Lib

variable {σ τ : Type}

/-- The states a run goes through; a machine without a next step has ended. -/
inductive Runs (step : σ → Option σ) : Nat → σ → σ → Prop
  | done (state : σ) : Runs step 0 state state
  | turn {count : Nat} {state next last : σ} (here : step state = some next)
      (rest : Runs step count next last) :
      Runs step (count + 1) state last

/-- A run to its end. -/
def Ends (step : σ → Option σ) (count : Nat) (state last : σ) : Prop :=
  Runs step count state last ∧ step last = none

theorem Runs.trans {step : σ → Option σ} {first second : Nat} {state middle last : σ}
    (front : Runs step first state middle) (back : Runs step second middle last) :
    Runs step (first + second) state last := by
  induction front with
  | done state => rwa [Nat.zero_add]
  | turn here _ ih =>
      rw [Nat.add_right_comm]
      exact .turn here (ih back)

/-- A run to the end goes through every state the machine comes to. -/
theorem Ends.split {step : σ → Option σ} {count first : Nat} {state middle last : σ}
    (ends : Ends step count state last) (front : Runs step first state middle) :
    ∃ rest, count = first + rest ∧ Ends step rest middle last := by
  induction front generalizing count with
  | done state => exact ⟨count, (Nat.zero_add count).symm, ends⟩
  | turn here _ ih =>
      obtain ⟨runs, ended⟩ := ends
      cases runs with
      | done => cases here.symm.trans ended
      | turn here' rest =>
          cases here.symm.trans here'
          obtain ⟨others, same, ends⟩ := ih ⟨rest, ended⟩
          exact ⟨others, by omega, ends⟩

/-- A machine has one end at most. -/
theorem Ends.unique {step : σ → Option σ} {first second : Nat} {state last other : σ}
    (left : Ends step first state last) (right : Ends step second state other) : last = other := by
  obtain ⟨rest, _, runs, _⟩ := right.split left.1
  cases runs with
  | done => rfl
  | turn here _ => cases here.symm.trans left.2

/-- Related states have ended both, or the right one takes a step that stands for some of the left. -/
structure Simulates (left : σ → Option σ) (right : τ → Option τ) (related : σ → τ → Prop) : Prop where
  ended : ∀ first second, related first second → right second = none → left first = none
  step : ∀ first second next, related first second → right second = some next →
    ∃ count last, Runs left (count + 1) first last ∧ related last next

variable {left : σ → Option σ} {right : τ → Option τ} {related : σ → τ → Prop}

theorem Simulates.ends_right (simulates : Simulates left right related) {count : Nat}
    {first last : σ} {second : τ} (start : related first second) (ends : Ends left count first last) :
    ∃ steps final, Ends right steps second final ∧ related last final := by
  -- on the length of the run: a step on the right takes at least one on the left
  induction count using Nat.strongRecOn generalizing first second with
  | ind count ih =>
      cases next : right second with
      | none =>
          have stopped := simulates.ended first second start next
          obtain ⟨runs, _⟩ := ends
          cases runs with
          | done => exact ⟨0, second, ⟨.done second, next⟩, start⟩
          | turn here _ => cases here.symm.trans stopped
      | some after =>
          obtain ⟨taken, middle, runs, relatedAfter⟩ := simulates.step first second after start next
          obtain ⟨rest, rfl, others⟩ := ends.split runs
          obtain ⟨steps, final, ⟨runsRight, ended⟩, relatedFinal⟩ := ih rest (by omega) relatedAfter others
          exact ⟨steps + 1, final, ⟨.turn next runsRight, ended⟩, relatedFinal⟩

theorem Simulates.ends_left (simulates : Simulates left right related) {count : Nat} {first : σ}
    {second last : τ} (start : related first second) (ends : Ends right count second last) :
    ∃ steps final, Ends left steps first final ∧ related final last := by
  obtain ⟨runs, ended⟩ := ends
  induction runs generalizing first with
  | done state => exact ⟨0, first, ⟨.done first, simulates.ended first state start ended⟩, start⟩
  | turn here _ ih =>
      obtain ⟨taken, middle, runsLeft, relatedMiddle⟩ := simulates.step _ _ _ start here
      obtain ⟨steps, final, ⟨others, endedLeft⟩, relatedFinal⟩ := ih relatedMiddle ended
      exact ⟨_, final, ⟨runsLeft.trans others, endedLeft⟩, relatedFinal⟩

end Ipbm.Lib
