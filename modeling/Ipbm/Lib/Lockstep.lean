import Mathlib.Data.List.Forall2
import Mathlib.Logic.Function.Basic

/-! Fallible programs side by side: both fail, or both succeed with related results. -/

set_option autoImplicit false

namespace Ipbm.Lib

variable {α β γ δ σ τ : Type}

theorem rel_bind_of {related : α → β → Prop} {after : γ → δ → Prop} {first : Option α} {second : Option β}
    {next : α → Option γ} {next' : β → Option δ} (here : Option.Rel related first second)
    (later : ∀ left right, first = some left → second = some right → related left right →
      Option.Rel after (next left) (next' right)) : Option.Rel after (first >>= next) (second >>= next') := by
  cases here with
  | none => exact .none
  | some holds => exact later _ _ rfl rfl holds

theorem rel_bind {related : α → β → Prop} {after : γ → δ → Prop} {first : Option α} {second : Option β}
    {next : α → Option γ} {next' : β → Option δ} (here : Option.Rel related first second)
    (later : ∀ left right, related left right → Option.Rel after (next left) (next' right)) :
    Option.Rel after (first >>= next) (second >>= next') :=
  rel_bind_of here fun left right _ _ => later left right

theorem rel_map {related : α → β → Prop} {after : γ → δ → Prop} {first : Option α} {second : Option β}
    {change : α → γ} {change' : β → δ} (here : Option.Rel related first second)
    (later : ∀ left right, related left right → after (change left) (change' right)) :
    Option.Rel after (first.map change) (second.map change') := by
  cases here with
  | none => exact .none
  | some holds => exact .some (later _ _ holds)

theorem rel_of_eq {related : α → α → Prop} (refl : ∀ value, related value value) (value : Option α) :
    Option.Rel related value value := by
  cases value with
  | none => exact .none
  | some value => exact .some (refl value)

/-- Loops over items that correspond. -/
theorem rel_foldlM {items : α → β → Prop} {states : σ → τ → Prop} {first : List α} {second : List β}
    {step : σ → α → Option σ} {step' : τ → β → Option τ} (lists : List.Forall₂ items first second)
    (each : ∀ left right state state', items left right → states state state' →
      Option.Rel states (step state left) (step' state' right)) {start : σ} {start' : τ} (holds :
    states start start') :
    Option.Rel states (first.foldlM step start) (second.foldlM step' start') := by
  induction lists generalizing start start' with
  | nil => exact .some holds
  | cons here _ ih =>
      rw [List.foldlM_cons, List.foldlM_cons]
      exact rel_bind (each _ _ _ _ here holds) fun _ _ next => ih next

theorem rel_mapM {items : α → β → Prop} {related : γ → δ → Prop} {first : List α} {second : List β}
    {step : α → Option γ} {step' : β → Option δ} (lists : List.Forall₂ items first second)
    (each : ∀ left right, items left right → Option.Rel related (step left) (step' right)) :
    Option.Rel (List.Forall₂ related) (first.mapM step) (second.mapM step') := by
  induction lists with
  | nil => exact .some .nil
  | cons here _ ih =>
      rw [List.mapM_cons, List.mapM_cons]
      exact rel_bind (each _ _ here) fun _ _ head => rel_bind ih fun _ _ tail => .some (.cons head tail)

theorem forall₂_foldl {items : α → β → Prop} {states : σ → τ → Prop} {first : List α} {second : List β}
    {step : σ → α → σ} {step' : τ → β → τ} (lists : List.Forall₂ items first second)
    (each : ∀ left right state state', items left right → states state state' →
      states (step state left) (step' state' right))
    {start : σ} {start' : τ} (holds : states start start') :
    states (first.foldl step start) (second.foldl step' start') := by
  induction lists generalizing start start' with
  | nil => exact holds
  | cons here _ ih => exact ih (each _ _ _ _ here holds)

theorem rel_getElem? {related : α → β → Prop} {first : List α} {second : List β}
    (lists : List.Forall₂ related first second)
    (index : Nat) : Option.Rel related first[index]? second[index]? := by
  induction lists generalizing index with
  | nil => exact .none
  | cons here _ ih =>
      cases index with
      | zero => exact .some here
      | succ index => exact ih index

theorem rel_update {ι : Type} [DecidableEq ι] {related : α → β → Prop} {first : ι → Option α}
    {second : ι → Option β} (maps : ∀ key, Option.Rel related (first key) (second key)) {left : α}
    {right : β} (here : related left right) (key other : ι) :
    Option.Rel related (Function.update first key (some left) other) (Function.update second key
      (some right) other) := by
  by_cases same : other = key
  · subst same
    rw [Function.update_self, Function.update_self]
    exact .some here
  · rw [Function.update_of_ne same, Function.update_of_ne same]
    exact maps other

/-! ### Steps that a change goes through -/

/-- It makes no difference whether a state is changed before the step or after it. -/
def Commutes (change : σ → σ) (step : σ → Option σ) : Prop :=
  ∀ state, step (change state) = (step state).map change

namespace Commutes

variable {change : σ → σ}

theorem bind {first second : σ → Option σ} (one : Commutes change first) (two : Commutes change second) :
    Commutes change fun state => first state >>= second := by
  intro state
  dsimp only
  rw [one]
  cases first state with
  | none => rfl
  | some middle => exact two middle

theorem foldlM {step : σ → α → Option σ} (each : ∀ item, Commutes change (step · item)) (items : List α) :
    Commutes change fun state => items.foldlM step state := by
  induction items with
  | nil => exact fun _ => rfl
  | cons item rest ih =>
      intro state
      dsimp only
      rw [List.foldlM_cons, List.foldlM_cons]
      exact (each item).bind ih state

end Commutes

end Ipbm.Lib
