import Mathlib.Data.List.Induction
import Mathlib.Data.List.Nodup

/-! Fallible traversals. A loop that can fault is a `mapM` or a `foldlM` in
`Option`, or in `Except` where the faults differ; these rules turn one that does
not fault into the pure loop and invert one that is known to have succeeded. -/

set_option autoImplicit false

namespace Ipbm.Lib

variable {α β σ : Type}

/-- What holds at every element of a list, and at one behind it, holds at every element. -/
theorem forall_splits_concat {items : List α} {last : α} {holds : List α → α → Prop}
    (before : ∀ front item back, items = front ++ item :: back → holds front item) (here : holds items last) :
    ∀ front item back, items ++ [last] = front ++ item :: back → holds front item := by
  intro front item back split
  rcases List.eq_nil_or_concat back with rfl | ⟨others, final, rfl⟩
  · obtain ⟨rfl, same⟩ := List.append_inj' split rfl
    cases same
    exact here
  · have regrouped : items ++ [last] = (front ++ item :: others) ++ [final] := by
      simpa using split
    exact before front item others (List.append_inj' regrouped rfl).1

theorem mapM_eq_some_map {items : List α} {step : α → Option β} {pureStep : α → β}
    (each : ∀ item ∈ items, step item = some (pureStep item)) :
    items.mapM step = some (items.map pureStep) := by
  induction items with
  | nil => rfl
  | cons item rest ih =>
      have later : ∀ item ∈ rest, step item = some (pureStep item) :=
        fun other member => each other (List.mem_cons_of_mem _ member)
      simp [List.mapM_cons, each item List.mem_cons_self, ih later]

theorem mapM_congr {items : List α} {left right : α → Option β}
    (same : ∀ item ∈ items, left item = right item) :
    items.mapM left = items.mapM right := by
  induction items with
  | nil => rfl
  | cons item rest ih =>
      rw [List.mapM_cons, List.mapM_cons, same item List.mem_cons_self,
        ih fun other member => same other (List.mem_cons_of_mem _ member)]

theorem mapM_cons_some {item : α} {rest : List α} {step : α → Option β} {results : List β}
    (done : (item :: rest).mapM step = some results) :
    ∃ first others, step item = some first ∧ rest.mapM step = some others ∧ results = first :: others := by
  rw [List.mapM_cons] at done
  obtain ⟨first, here, done⟩ := Option.bind_eq_some_iff.mp done
  obtain ⟨others, later, done⟩ := Option.bind_eq_some_iff.mp done
  cases done
  exact ⟨first, others, here, later, rfl⟩

theorem mapM_cons_eq_some {item : α} {rest : List α} {step : α → Option β} {first : β} {others : List β}
    (here : step item = some first) (later : rest.mapM step = some others) :
    (item :: rest).mapM step = some (first :: others) := by
  rw [List.mapM_cons, here, later]
  rfl

theorem length_of_mapM_some {items : List α} {step : α → Option β} {results : List β}
    (done : items.mapM step = some results) : results.length = items.length := by
  induction items generalizing results with
  | nil =>
      cases done
      rfl
  | cons item rest ih =>
      obtain ⟨first, others, _, later, rfl⟩ := mapM_cons_some done
      simp [ih later]

theorem getElem_of_mapM_some {items : List α} {step : α → Option β} {results : List β}
    (done : items.mapM step = some results) {index : Nat} (inside : index < items.length) :
    step items[index] = results[index]? := by
  induction items generalizing results index with
  | nil => cases inside
  | cons item rest ih =>
      obtain ⟨first, others, here, later, rfl⟩ := mapM_cons_some done
      cases index with
      | zero => exact here
      | succ index => exact ih later (Nat.lt_of_succ_lt_succ inside)

theorem mapM_map {γ : Type} (items : List α) (step : α → Option β) (change : β → γ) :
    items.mapM (fun item => (step item).map change) = (items.mapM step).map (List.map change) := by
  induction items with
  | nil => rfl
  | cons item rest ih =>
      rw [List.mapM_cons, List.mapM_cons, ih]
      cases step item with
      | none => rfl
      | some result => cases rest.mapM step <;> rfl

/-- One pass that takes two steps with each item, for two passes. -/
theorem mapM_bind {γ : Type} (items : List α) (first : α → Option β) (second : β → Option γ) :
    (items.mapM first).bind (List.mapM second) = items.mapM fun item => (first item).bind second := by
  induction items with
  | nil => rfl
  | cons item rest ih =>
      rw [List.mapM_cons, List.mapM_cons, ← ih]
      cases first item with
      | none => rfl
      | some result =>
          cases rest.mapM first with
          | none => cases h : second result <;> simp [h]
          | some results => exact List.mapM_cons

/-- A loop over the positions of a list, for one over its items. -/
theorem mapM_range {items : List α} {step : Nat → Option β} {other : α × Nat → Option β}
    (same : ∀ index item, items[index]? = some item → step index = other (item, index)) :
    (List.range items.length).mapM step = items.zipIdx.mapM other := by
  have positions : List.range items.length = items.zipIdx.map Prod.snd := by
    rw [List.zipIdx_map_snd, List.range_eq_range']
  rw [positions, List.mapM_map]
  exact mapM_congr fun pair member => same pair.2 pair.1 (List.mem_zipIdx_iff_getElem?.mp member)

theorem mem_of_mapM_some {items : List α} {step : α → Option β} {results : List β}
    (done : items.mapM step = some results) {result : β} (member : result ∈ results) :
    ∃ item ∈ items, step item = some result := by
  induction items generalizing results with
  | nil =>
      cases done
      cases member
  | cons item rest ih =>
      obtain ⟨first, others, here, later, rfl⟩ := mapM_cons_some done
      rcases List.mem_cons.mp member with rfl | member
      · exact ⟨item, List.mem_cons_self, here⟩
      · obtain ⟨other, inside, found⟩ := ih later member
        exact ⟨other, List.mem_cons_of_mem _ inside, found⟩

theorem mem_mapM_some {items : List α} {step : α → Option β} {results : List β}
    (done : items.mapM step = some results) {item : α} (member : item ∈ items) :
    ∃ result ∈ results, step item = some result := by
  obtain ⟨position, bound, rfl⟩ := List.mem_iff_getElem.mp member
  have here := getElem_of_mapM_some done bound
  cases result : results[position]? with
  | none =>
      rw [List.getElem?_eq_none_iff, length_of_mapM_some done] at result
      omega
  | some result' => exact ⟨result', List.mem_of_getElem? result, here.trans result⟩

/-- Searches through lists that correspond find items that correspond. -/
theorem find?_rel {related : α → β → Prop} {items : List α} {others : List β} {wanted : α → Bool}
    {wanted' : β → Bool} (lists : List.Forall₂ related items others)
    (same : ∀ item other, item ∈ items → related item other → wanted item = wanted' other) :
    Option.Rel related (items.find? wanted) (others.find? wanted') := by
  induction lists with
  | nil => exact .none
  | @cons item other items others here _ ih =>
      have own := same item other List.mem_cons_self here
      rw [List.find?_cons, List.find?_cons, ← own]
      cases wanted item with
      | true => exact .some here
      | false => exact ih fun item other member => same item other (List.mem_cons_of_mem _ member)

/-- A traversal whose steps all succeed, with what is known of every result. -/
theorem mapM_forall₂ {related : α → β → Prop} {items : List α} {step : α → Option β}
    (each : ∀ item ∈ items, ∃ result, step item = some result ∧ related item result) :
    ∃ results, items.mapM step = some results ∧ List.Forall₂ related items results := by
  induction items with
  | nil => exact ⟨[], rfl, .nil⟩
  | cons item rest ih =>
      obtain ⟨first, here, holds⟩ := each item List.mem_cons_self
      obtain ⟨others, later, hold⟩ := ih fun other member => each other (List.mem_cons_of_mem _ member)
      exact ⟨first :: others, mapM_cons_eq_some here later, .cons holds hold⟩

/-- What is listed under a key of its own is found by it. -/
theorem find?_of_key {κ : Type} [DecidableEq κ] {key : α → κ} {items : List α}
    (unique : (items.map key).Nodup) {item : α} (member : item ∈ items) :
    items.find? (fun other => key other = key item) = some item := by
  cases found : items.find? fun other => key other = key item with
  | none => simpa using List.find?_eq_none.mp found item member
  | some other =>
      have same : key other = key item := by simpa using List.find?_some found
      rw [List.inj_on_of_nodup_map unique (List.mem_of_find?_eq_some found) member same]

/-- An invariant of every step of a loop is an invariant of the loop. -/
theorem foldlM_preserves {items : List α} {step : σ → α → Option σ} {state result : σ}
    (invariant : σ → Prop)
    (each : ∀ state item after, item ∈ items → invariant state → step state item = some after →
      invariant after)
    (done : items.foldlM step state = some result) (holds : invariant state) : invariant result := by
  induction items generalizing state with
  | nil =>
      cases done
      exact holds
  | cons item rest ih =>
      rw [List.foldlM_cons] at done
      obtain ⟨middle, first, done⟩ := Option.bind_eq_some_iff.mp done
      exact ih (fun state other after member => each state other after (List.mem_cons_of_mem _ member))
        done (each state item middle List.mem_cons_self holds first)

/-- A loop does on one state what it does on another, if every step does. -/
theorem foldlM_follows {τ : Type} {items : List α} {step : σ → α → Option σ}
    {other : τ → α → Option τ} {state : σ} {start last : τ} (related : σ → τ → Prop)
    (each : ∀ item ∈ items, ∀ state start next, related state start → other start item = some next →
      ∃ after, step state item = some after ∧ related after next)
    (holds : related state start) (run : items.foldlM other start = some last) :
    ∃ result, items.foldlM step state = some result ∧ related result last := by
  induction items generalizing state start with
  | nil =>
      cases run
      exact ⟨state, rfl, holds⟩
  | cons item rest ih =>
      rw [List.foldlM_cons] at run
      obtain ⟨next, first, run⟩ := Option.bind_eq_some_iff.mp run
      obtain ⟨after, step, holds⟩ := each item List.mem_cons_self _ _ _ holds first
      obtain ⟨result, steps, holds⟩ :=
        ih (fun other member => each other (List.mem_cons_of_mem _ member)) holds run
      exact ⟨result, by rw [List.foldlM_cons, step]; exact steps, holds⟩

/-- A loop whose steps all succeed, with an invariant that knows what is done. -/
theorem foldlM_runs_along {items : List α} {step : σ → α → Option σ} {state : σ}
    (invariant : List α → σ → Prop) (each : ∀ done item state, done ++ [item] <+: items →
      invariant done state →
      ∃ after, step state item = some after ∧ invariant (done ++ [item]) after)
    (start : invariant [] state) : ∃ result, items.foldlM step state = some result ∧
      invariant items result := by
  induction items using List.reverseRecOn with
  | nil => exact ⟨state, rfl, start⟩
  | append_singleton items item ih =>
      obtain ⟨middle, first, before⟩ := ih fun done other state within =>
        each done other state (within.trans (List.prefix_append ..))
      obtain ⟨after, last, holds⟩ := each items item middle List.prefix_rfl before
      refine ⟨after, ?_, holds⟩
      rw [List.foldlM_append, first]
      simp [last]

theorem foldlM_runs {items : List α} {step : σ → α → Option σ} {state : σ} (invariant : List α → σ → Prop)
    (each : ∀ done item state, item ∈ items → invariant done state →
      ∃ after, step state item = some after ∧ invariant (done ++ [item]) after)
    (start : invariant [] state) : ∃ result, items.foldlM step state = some result ∧ invariant items result :=
  foldlM_runs_along invariant (fun done item state within =>
    each done item state (within.subset (by simp))) start

/-- A loop over the numbers below a bound, with an invariant that knows the number. -/
theorem foldlM_range {bound : Nat} {step : σ → Nat → Option σ} {state result : σ} (invariant : Nat → σ → Prop)
    (each : ∀ index state after, index < bound → invariant index state → step state index = some after →
      invariant (index + 1) after)
    (done : (List.range bound).foldlM step state = some result) (start : invariant 0 state) :
    invariant bound result := by
  induction bound generalizing result with
  | zero =>
      cases done
      exact start
  | succ bound ih =>
      rw [List.range_succ, List.foldlM_append] at done
      obtain ⟨middle, first, done⟩ := Option.bind_eq_some_iff.mp done
      rw [List.foldlM_cons] at done
      obtain ⟨last, step, done⟩ := Option.bind_eq_some_iff.mp done
      cases done
      have before :=
        ih (fun index state after small => each index state after (Nat.lt_succ_of_lt small)) first
      exact each bound middle _ (Nat.lt_succ_self bound) before step

/-- The same when every step succeeds. -/
theorem foldlM_range_runs {bound : Nat} {step : σ → Nat → Option σ} {state : σ} (invariant : Nat → σ → Prop)
    (each : ∀ index state, index < bound → invariant index state →
      ∃ after, step state index = some after ∧ invariant (index + 1) after)
    (start : invariant 0 state) : ∃ result, (List.range bound).foldlM step state = some result ∧
      invariant bound result := by
  induction bound with
  | zero => exact ⟨state, rfl, start⟩
  | succ bound ih =>
      obtain ⟨middle, first, before⟩ := ih fun index state small => each index state (Nat.lt_succ_of_lt small)
      obtain ⟨after, last, holds⟩ := each bound middle (Nat.lt_succ_self bound) before
      refine ⟨after, ?_, holds⟩
      rw [List.range_succ, List.foldlM_append, first]
      simp [last]

theorem bind_eq_ok {ε : Type} {source : Except ε α} {next : α → Except ε β} {result : β}
    (done : (source >>= next) = .ok result) : ∃ value, source = .ok value ∧ next value = .ok result := by
  cases source with
  | error error => cases done
  | ok value => exact ⟨value, rfl, done⟩

/-- A loop that succeeds, with an invariant that knows what is done. -/
theorem foldlM_ok {ε : Type} {items : List α} {step : σ → α → Except ε σ} {state result : σ}
    (invariant : List α → σ → Prop)
    (each : ∀ done item state after, done ++ [item] <+: items → invariant done state →
      step state item = .ok after → invariant (done ++ [item]) after)
    (run : items.foldlM step state = .ok result) (start : invariant [] state) : invariant items result := by
  induction items using List.reverseRecOn generalizing result with
  | nil =>
      cases run
      exact start
  | append_singleton items item ih =>
      rw [List.foldlM_append] at run
      obtain ⟨middle, first, run⟩ := bind_eq_ok run
      rw [List.foldlM_cons] at run
      obtain ⟨last, step, run⟩ := bind_eq_ok run
      cases run
      have before := ih (fun done other state after front =>
        each done other state after (front.trans (List.prefix_append items [item]))) first
      exact each items item middle _ (List.prefix_refl _) before step

/-- The same for a loop that cannot tell its faults apart. -/
theorem foldlM_some {items : List α} {step : σ → α → Option σ} {state result : σ}
    (invariant : List α → σ → Prop) (each : ∀ done item state after, done ++ [item] <+: items →
      invariant done state → step state item = some after →
      invariant (done ++ [item]) after)
    (run : items.foldlM step state = some result) (start : invariant [] state) : invariant items result := by
  induction items using List.reverseRecOn generalizing result with
  | nil =>
      cases run
      exact start
  | append_singleton items item ih =>
      rw [List.foldlM_append] at run
      obtain ⟨middle, first, run⟩ := Option.bind_eq_some_iff.mp run
      rw [List.foldlM_cons] at run
      obtain ⟨last, step, run⟩ := Option.bind_eq_some_iff.mp run
      cases run
      have before := ih (fun done other state after front =>
        each done other state after (front.trans (List.prefix_append items [item]))) first
      exact each items item middle _ (List.prefix_refl _) before step

/-- The same for a loop without faults. -/
theorem foldl_along {items : List α} {step : σ → α → σ} {state : σ} (invariant : List α → σ → Prop)
    (each : ∀ done item state, done ++ [item] <+: items → invariant done state →
      invariant (done ++ [item]) (step state item))
    (start : invariant [] state) : invariant items (items.foldl step state) := by
  induction items using List.reverseRecOn with
  | nil => exact start
  | append_singleton items item ih =>
      have before := ih fun done other state front =>
        each done other state (front.trans (List.prefix_append items [item]))
      rw [List.foldl_append]
      exact each items item _ (List.prefix_refl _) before

end Ipbm.Lib
