import Mathlib.Logic.Relation

/-! A run of a machine next to the run with some of its commands left out. A step
may end the machine; nothing that comes later has an output then. -/

set_option autoImplicit false

namespace Ipbm.Lib

variable {State Command Output : Type} {step : State → Command → Option (State × Output)}
  {leaves : State → Command → Bool}

/-- The outputs of a run, from a state or from a machine that has ended. -/
def outputs (step : State → Command → Option (State × Output)) :
    Option State → List Command → List (Option Output)
  | _, [] => []
  | state, command :: rest =>
      let result := state.bind (step · command)
      result.map Prod.snd :: outputs step (result.map Prod.fst) rest

/-- The commands that are not left out where they come in the run. -/
def remaining (step : State → Command → Option (State × Output)) (leaves : State → Command → Bool) :
    Option State → List Command → List Command
  | _, [] => []
  | state, command :: rest =>
      let others := remaining step leaves (state.bind (step · command) |>.map Prod.fst) rest
      if state.any (leaves · command) then others else command :: others

/-- The outputs of these commands in the run itself. -/
def observed (step : State → Command → Option (State × Output)) (leaves : State → Command → Bool) :
    Option State → List Command → List (Option Output)
  | _, [] => []
  | state, command :: rest =>
      let result := state.bind (step · command)
      let others := observed step leaves (result.map Prod.fst) rest
      if state.any (leaves · command) then others else result.map Prod.snd :: others

/-- A command that is left out is the last one or keeps the relation to the short run; the others do
the same in both runs. -/
structure Unwinds (step : State → Command → Option (State × Output)) (leaves : State → Command → Bool)
    (Related : List Command → State → State → Prop) : Prop where
  left : ∀ command rest full short, Related (command :: rest) full short → leaves full command = true →
    rest = [] ∨ ∃ next output, step full command = some (next, output) ∧ Related rest next short
  kept : ∀ command rest full short, Related (command :: rest) full short → leaves full command = false →
    Option.Rel (fun one two => one.2 = two.2 ∧ Related rest one.1 two.1) (step full command)
      (step short command)

theorem observed_ended (commands : List Command) :
    observed step leaves none commands = outputs step none (remaining step leaves none commands) := by
  induction commands with
  | nil => rfl
  | cons command rest ih => exact congrArg (none :: ·) ih

theorem Unwinds.observed_eq {Related : List Command → State → State → Prop}
    (unwinds : Unwinds step leaves Related) {commands : List Command} {full short : State}
    (related : Related commands full short) :
    observed step leaves (some full) commands =
      outputs step (some short) (remaining step leaves (some full) commands) := by
  induction commands generalizing full short with
  | nil => rfl
  | cons command rest ih =>
      cases leave : leaves full command with
      | true =>
          rcases unwinds.left command rest full short related leave with rfl | ⟨next, output, done, related⟩
          · simp [observed, remaining, outputs, leave]
          · simpa [observed, remaining, leave, done] using ih related
      | false =>
          have same := unwinds.kept command rest full short related leave
          cases one : step full command with
          | none =>
              cases two : step short command with
              | none => simpa [observed, remaining, outputs, leave, one, two] using observed_ended rest
              | some _ =>
                  rw [one, two] at same
                  cases same
          | some result =>
              cases two : step short command with
              | none =>
                  rw [one, two] at same
                  cases same
              | some result' =>
                  rw [one, two] at same
                  cases same with
                  | some related =>
                      simpa [observed, remaining, outputs, leave, one, two, related.1] using ih related.2

end Ipbm.Lib
