import Ipbm.Dataplane.GatewayProperties
import Mathlib.Data.List.Infix

/-! The calls on one gateway, with the bitmap it keeps between them. The loop bound is the
capacity of the vector, which is what the largest number of expressions so far has left. -/

set_option autoImplicit false

namespace Ipbm.Dataplane
open Lib

/-- A gateway with the member an evaluation adds to. -/
structure GatewayObject where
  gateway : Gateway := .fresh
  bitmap : Nat := 0

inductive GatewayCall where
  | configure (request : GatewayRequest)
  | execute (phv : Phv)

namespace GatewayObject

/-- What the loop adds to the member. -/
def evaluate (object : GatewayObject) (phv : Phv) : Option Nat :=
  (List.range object.gateway.capacity).foldlM (fun bits index => do
    let exp ← object.gateway.exps[index]?
    let holds ← Gateway.conditionHolds phv exp
    if index < 8 then return (bits + holds.toNat <<< (7 - index)) % 256 else none) object.bitmap

def execute (object : GatewayObject) (phv : Phv) : Option (Phv × GatewayObject) := do
  let bits ← object.evaluate phv
  match object.gateway.resNext bits with
  | some entry => return ({ phv with nextOp := entry }, { object with bitmap := 0 })
  | none => do
      let entry ← object.gateway.defaultEntry
      return ({ phv with nextOp := entry }, { object with bitmap := 0 })

def apply (object : GatewayObject) : GatewayCall → Option GatewayObject
  | .configure request => some { object with gateway := object.gateway.apply request }
  | .execute phv => (object.execute phv).map Prod.snd

def runCalls (history : List GatewayCall) : Option GatewayObject := history.foldlM apply {}

end GatewayObject

/-- An evaluation leaves the gateway as it was, and no bits. -/
theorem GatewayObject.execute_object {object after : GatewayObject} {phv decided : Phv}
    (run : object.execute phv = some (decided, after)) : after = { object with bitmap := 0 } := by
  obtain ⟨bits, _, run⟩ := Option.bind_eq_some_iff.mp run
  split at run
  · cases run
    rfl
  · obtain ⟨entry, _, run⟩ := Option.bind_eq_some_iff.mp run
    cases run
    rfl

/-! ### What the calls say -/

/-- The expressions since the last clear, and the entries for their results. -/
structure GatewayMeaning where
  exps : List RelationExp := []
  entry : Nat → Option GateEntry := fun _ => none
  default : Option GateEntry := none

namespace GatewayMeaning

def apply (meaning : GatewayMeaning) : GatewayCall → GatewayMeaning
  | .configure (.insertRelationExp exp) => { meaning with exps := meaning.exps ++ [exp] }
  | .configure .clearRelationExp => { default := some .zero }
  | .configure .clearResMap => { meaning with entry := fun _ => none }
  | .configure (.modResMap key entry) =>
      { meaning with entry := Function.update meaning.entry (key % 256).toNat (some entry) }
  | .configure (.setDefaultGateEntry entry) => { meaning with default := some entry }
  | .execute _ => meaning

def current (history : List GatewayCall) : GatewayMeaning := history.foldl apply {}

theorem current_concat (history : List GatewayCall) (call : GatewayCall) :
    current (history ++ [call]) = (current history).apply call := by
  simp [current]

end GatewayMeaning

open GatewayMeaning

/-- Bit `7 - i` is the `i`-th result, and the others are zero. -/
def ShowsResults (bits : Nat) (results : List Bool) : Prop :=
  bits < 256 ∧ ∀ index < 8, bits.testBit (7 - index) = results[index]?.getD false

/-- The run gets to an evaluation of a packet for which the current expressions have these results, and
the entry that is mapped to them, or else the default, is there. -/
structure Executes (calls history : List GatewayCall) (object : GatewayObject) (phv : Phv)
    (results : List Bool) (bits : Nat) (entry : GateEntry) : Prop where
  listed : history ++ [.execute phv] <+: calls
  reached : GatewayObject.runCalls history = some object
  evaluated : (current history).exps.mapM (Gateway.conditionHolds phv) = some results
  shows : ShowsResults bits results
  chosen : ((current history).entry bits).or (current history).default = some entry

/-- The evaluation of the current expressions, which leaves nothing behind. -/
def EvaluatesCurrent (object : GatewayObject) (phv : Phv) (bits : Nat) (entry : GateEntry) : Prop :=
  object.evaluate phv = some bits ∧
    object.execute phv = some ({ phv with nextOp := entry }, { object with bitmap := 0 })

/-- The vector is full: a power of two of expressions, or none, and never more before. -/
structure FillsVector (history : List GatewayCall) : Prop where
  size : (current history).exps.length ∈ [0, 1, 2, 4, 8]
  most : ∀ earlier, earlier <+: history → (current earlier).exps.length ≤ (current history).exps.length

namespace Gateway

/-! ### Bits of the results -/

private theorem bitString_testBit (results : List Bool) (bit : Nat) :
    (bitString results).testBit bit = results.reverse[bit]?.getD false := by
  induction results using List.reverseRecOn generalizing bit with
  | nil => simp [bitString]
  | append_singleton results holds ih =>
      rw [bitString_concat, List.reverse_append]
      cases bit with
      | zero => cases holds <;> simp
      | succ bit =>
          rw [Nat.testBit_succ]
          have half : (2 * bitString results + holds.toNat) / 2 = bitString results := by
            have small : holds.toNat ≤ 1 := Bool.toNat_le holds
            omega
          rw [half, ih]
          simp

theorem padded_shows {results : List Bool} (few : results.length ≤ 8) :
    ShowsResults (padded results) results := by
  constructor
  · have small := bitString_lt results
    have whole : 2 ^ results.length * 2 ^ (8 - results.length) = 256 := by
      rw [← Nat.pow_add, Nat.add_sub_cancel' few]
    rw [padded, ← whole]
    exact Nat.mul_lt_mul_of_pos_right small (Nat.two_pow_pos _)
  · intro index low
    rw [padded, Nat.testBit_mul_two_pow, bitString_testBit]
    by_cases inside : index < results.length
    · have early : 8 - results.length ≤ 7 - index := by omega
      have place : 7 - index - (8 - results.length) < results.length := by omega
      have back : results.length - 1 - (7 - index - (8 - results.length)) = index := by omega
      rw [decide_eq_true early, Bool.true_and, List.getElem?_reverse place, back]
    · have late : ¬8 - results.length ≤ 7 - index := by omega
      rw [decide_eq_false late, Bool.false_and, List.getElem?_eq_none (Nat.le_of_not_lt inside),
        Option.getD_none]

theorem ShowsResults.unique {first second : Nat} {results : List Bool} (shows : ShowsResults first results)
    (others : ShowsResults second results) : first = second := by
  apply Nat.eq_of_testBit_eq
  intro bit
  by_cases low : bit < 8
  · have place : 7 - (7 - bit) = bit := by omega
    rw [← place, shows.2 (7 - bit) (by omega), others.2 (7 - bit) (by omega)]
  · have wide : 2 ^ 8 ≤ 2 ^ bit := Nat.pow_le_pow_right (by decide) (Nat.le_of_not_lt low)
    rw [Nat.testBit_lt_two_pow (shows.1.trans_le wide), Nat.testBit_lt_two_pow (others.1.trans_le wide)]

/-! ### The capacity -/

/-- A vector that had `peak` elements once. -/
structure Grown (peak : Nat) (gateway : Gateway) : Prop where
  fits : gateway.exps.length ≤ peak
  enough : peak ≤ gateway.capacity
  power : gateway.capacity = 0 ∨ ∃ exponent, gateway.capacity = 2 ^ exponent
  tight : gateway.capacity = 0 ∨ gateway.capacity < 2 * peak

theorem Grown.insertExp {peak : Nat} {gateway : Gateway} (grown : Grown peak gateway) (exp : RelationExp) :
    Grown (max peak (gateway.exps.length + 1)) (gateway.insertExp exp) := by
  have storage := insertExp_storage ⟨grown.power, grown.fits.trans grown.enough⟩ exp
  obtain ⟨fits, enough, _, tight⟩ := grown
  have length : (gateway.insertExp exp).exps.length = gateway.exps.length + 1 := by simp [Gateway.insertExp]
  refine ⟨length ▸ le_max_right _ _, ?_, storage.doubled, ?_⟩
  · have holdsAll := storage.holdsAll
    have same : gateway.capacity ≤ (gateway.insertExp exp).capacity := by
      simp only [Gateway.insertExp, grownCapacity]
      split
      · exact le_rfl
      · split <;> omega
    exact max_le (enough.trans same) (length ▸ holdsAll)
  · simp only [Gateway.insertExp, grownCapacity]
    split
    · omega
    · split <;> omega

theorem Grown.kept {peak : Nat} {gateway after : Gateway} (grown : Grown peak gateway)
    (capacity : after.capacity = gateway.capacity) (fewer : after.exps.length ≤ gateway.exps.length) :
    Grown (max peak after.exps.length) after := by
  have same : max peak after.exps.length = peak := max_eq_left (fewer.trans grown.fits)
  rw [same]
  exact ⟨fewer.trans grown.fits, capacity ▸ grown.enough, capacity ▸ grown.power, capacity ▸ grown.tight⟩

/-- The vector is full exactly if a power of two of elements, or none, are as many as there ever were. -/
theorem Grown.full_iff {peak : Nat} {gateway : Gateway} (grown : Grown peak gateway) (few : peak ≤ 8) :
    gateway.capacity = gateway.exps.length ↔ gateway.exps.length ∈ [0, 1, 2, 4, 8] ∧
      peak = gateway.exps.length := by
  obtain ⟨fits, enough, power, tight⟩ := grown
  have sizes : gateway.capacity ∈ [0, 1, 2, 4, 8] := by
    cases power with
    | inl none => simp [none]
    | inr some_ =>
        obtain ⟨exponent, isPower⟩ := some_
        have positive := Nat.two_pow_pos exponent
        rw [isPower]
        exact List.mem_cons_of_mem _ (small_power (by omega))
  constructor
  · intro full
    exact ⟨full ▸ sizes, by omega⟩
  · rintro ⟨size, most⟩
    simp only [List.mem_cons, List.not_mem_nil, or_false] at size sizes
    omega

/-- What a run leaves: the meaning of its calls, no bits, and a vector grown to the most expressions
so far. -/
structure Follows (history : List GatewayCall) (object : GatewayObject) : Prop where
  exps : object.gateway.exps = (current history).exps
  entry : object.gateway.resNext = (current history).entry
  default : object.gateway.defaultEntry = (current history).default
  bitmap : object.bitmap = 0
  grown : ∃ peak, Grown peak object.gateway ∧
    (∃ earlier, earlier <+: history ∧ peak = (current earlier).exps.length) ∧
    ∀ earlier, earlier <+: history → (current earlier).exps.length ≤ peak

private theorem peak_concat {history : List GatewayCall} {call : GatewayCall} {peak : Nat}
    (attained : ∃ earlier, earlier <+: history ∧ peak = (current earlier).exps.length)
    (most : ∀ earlier, earlier <+: history → (current earlier).exps.length ≤ peak) :
    (∃ earlier, earlier <+: history ++ [call] ∧
      max peak (current (history ++ [call])).exps.length = (current earlier).exps.length) ∧
    ∀ earlier, earlier <+: history ++ [call] →
      (current earlier).exps.length ≤ max peak (current (history ++ [call])).exps.length := by
  constructor
  · cases le_total peak (current (history ++ [call])).exps.length with
    | inl more => exact ⟨_, List.prefix_rfl, max_eq_right more⟩
    | inr less =>
        obtain ⟨earlier, listed, same⟩ := attained
        exact ⟨earlier, listed.trans (List.prefix_append _ _), (max_eq_left less).trans same⟩
  · intro earlier listed
    cases List.prefix_concat_iff.mp listed with
    | inl all => exact all ▸ le_max_right _ _
    | inr before => exact (most earlier before).trans (le_max_left _ _)

private theorem Follows.next {history : List GatewayCall} {object after : GatewayObject} {call : GatewayCall}
    (follows : Follows history object) (exps : after.gateway.exps = ((current history).apply call).exps)
    (entry : after.gateway.resNext = ((current history).apply call).entry)
    (default : after.gateway.defaultEntry = ((current history).apply call).default)
    (bitmap : after.bitmap = 0) (grows : ∀ peak, Grown peak object.gateway →
      Grown (max peak after.gateway.exps.length) after.gateway) :
    Follows (history ++ [call]) after := by
  obtain ⟨peak, grown, attained, most⟩ := follows.grown
  have same : after.gateway.exps = (current (history ++ [call])).exps := exps.trans (by rw [current_concat])
  refine ⟨same, entry.trans (by rw [current_concat]), default.trans (by rw [current_concat]), bitmap,
    max peak after.gateway.exps.length, grows peak grown, ?_⟩
  rw [same]
  exact peak_concat attained most

/-- A call does what it says. -/
theorem Follows.apply {history : List GatewayCall} {object after : GatewayObject} {call : GatewayCall}
    (follows : Follows history object) (step : object.apply call = some after) :
    Follows (history ++ [call]) after := by
  cases call with
  | execute phv =>
      obtain ⟨⟨decided, final⟩, run, same⟩ := Option.map_eq_some_iff.mp step
      obtain rfl : after = { object with bitmap := 0 } := same.symm.trans (GatewayObject.execute_object run)
      exact follows.next follows.exps follows.entry follows.default rfl fun _ grown => grown.kept rfl le_rfl
  | configure request =>
      cases step
      cases request with
      | insertRelationExp exp =>
          refine follows.next ?_ follows.entry follows.default follows.bitmap fun peak grown => ?_
          · exact congrArg (· ++ [exp]) follows.exps
          · have grows := grown.insertExp exp
            simpa [Gateway.apply, Gateway.insertExp] using grows
      | clearRelationExp =>
          exact follows.next rfl rfl rfl follows.bitmap fun _ grown => grown.kept rfl (Nat.zero_le _)
      | clearResMap =>
          exact follows.next follows.exps rfl follows.default follows.bitmap fun _ grown =>
            grown.kept rfl le_rfl
      | modResMap key entry =>
          refine follows.next follows.exps ?_ follows.default follows.bitmap fun _ grown =>
            grown.kept rfl le_rfl
          exact congrArg (Function.update · (key % 256).toNat (some entry)) follows.entry
      | setDefaultGateEntry entry =>
          exact follows.next follows.exps follows.entry rfl follows.bitmap fun _ grown =>
            grown.kept rfl le_rfl

theorem runCalls_follows {history : List GatewayCall} {object : GatewayObject}
    (reached : GatewayObject.runCalls history = some object) : Follows history object := by
  induction history using List.reverseRecOn generalizing object with
  | nil =>
      cases reached
      refine ⟨rfl, rfl, rfl, rfl, 0, ⟨le_rfl, le_rfl, .inl rfl, .inl rfl⟩, ⟨[], List.prefix_rfl, rfl⟩, ?_⟩
      intro earlier listed
      rw [List.prefix_nil.mp listed]
      exact le_rfl
  | append_singleton history call ih =>
      rw [GatewayObject.runCalls, List.foldlM_append] at reached
      obtain ⟨before, run, step⟩ := Option.bind_eq_some_iff.mp reached
      rw [List.foldlM_cons] at step
      obtain ⟨next, applied, same⟩ := Option.bind_eq_some_iff.mp step
      cases same
      exact (ih run).apply applied

/-! ### Evaluations -/

private theorem follows_full_iff {history : List GatewayCall} {object : GatewayObject}
    (follows : Follows history object)
    (few : ∀ earlier, earlier <+: history → (current earlier).exps.length ≤ 8) :
    object.gateway.capacity = object.gateway.exps.length ↔ FillsVector history := by
  obtain ⟨peak, grown, ⟨earlier, listed, attained⟩, most⟩ := follows.grown
  rw [grown.full_iff (attained ▸ few earlier listed), follows.exps]
  constructor
  · rintro ⟨size, full⟩
    exact ⟨size, fun other before => full ▸ most other before⟩
  · intro fills
    refine ⟨fills.size, le_antisymm ?_ ?_⟩
    · exact attained ▸ fills.most earlier listed
    · exact most history List.prefix_rfl

private theorem evaluate_eq {object : GatewayObject} (bitmap : object.bitmap = 0) (phv : Phv) :
    object.evaluate phv = object.gateway.bitmap phv := by
  rw [GatewayObject.evaluate, bitmap]
  rfl

private theorem evaluatesCurrent_iff {calls history : List GatewayCall} {object : GatewayObject} {phv : Phv}
    {results : List Bool} {bits : Nat} {entry : GateEntry}
    (executes : Executes calls history object phv results bits entry)
    (few : ∀ earlier, earlier <+: history → (current earlier).exps.length ≤ 8) :
    EvaluatesCurrent object phv bits entry ↔ FillsVector history := by
  have follows := runCalls_follows executes.reached
  rw [← follows_full_iff follows few, EvaluatesCurrent, GatewayObject.execute, evaluate_eq follows.bitmap]
  have evaluated : object.gateway.exps.mapM (conditionHolds phv) = some results :=
    follows.exps ▸ executes.evaluated
  have most : object.gateway.exps.length ≤ 8 := follows.exps ▸ few history List.prefix_rfl
  constructor
  · intro right
    by_contra spare
    have holdsAll := (Grown.fits follows.grown.choose_spec.1).trans (Grown.enough follows.grown.choose_spec.1)
    rw [bitmap_overrun phv (lt_of_le_of_ne holdsAll (Ne.symm spare))] at right
    cases right.1
  · intro full
    have read := bitmap_full evaluated most full
    have length : results.length ≤ 8 := length_of_mapM_some evaluated ▸ most
    rw [ShowsResults.unique (padded_shows length) executes.shows] at read
    have chosen := executes.chosen
    rw [← follows.entry, ← follows.default] at chosen
    refine ⟨read, ?_⟩
    rw [read, Option.bind_eq_bind, Option.bind_some]
    cases mapped : object.gateway.resNext bits with
    | some found =>
        rw [mapped, Option.some_or] at chosen
        cases chosen
        rfl
    | none =>
        rw [mapped, Option.none_or] at chosen
        simp only [chosen]
        rfl

end Gateway

/-- Every evaluation of a run is one of the current expressions exactly if every evaluation finds
the vector full. -/
theorem everyExecute_iff (calls : List GatewayCall)
    (few : ∀ history, history <+: calls → (current history).exps.length ≤ 8) :
    (∀ history object phv results bits entry, Executes calls history object phv results bits entry →
        EvaluatesCurrent object phv bits entry) ↔
      ∀ history object phv results bits entry, Executes calls history object phv results bits entry →
        FillsVector history := by
  have each : ∀ history object phv results bits entry, Executes calls history object phv results bits entry →
      (EvaluatesCurrent object phv bits entry ↔ FillsVector history) :=
    fun history _ _ _ _ _ executes => Gateway.evaluatesCurrent_iff executes fun earlier before =>
      few earlier (before.trans ((List.prefix_append _ _).trans executes.listed))
  constructor
  · exact fun right history object phv results bits entry executes =>
      (each history object phv results bits entry executes).mp
        (right history object phv results bits entry executes)
  · exact fun fills history object phv results bits entry executes =>
      (each history object phv results bits entry executes).mpr
        (fills history object phv results bits entry executes)

/-- The first header is not valid. -/
private def notValid : RelationExp := ⟨.field ⟨0, 0, 1, .valid⟩, .constant ⟨8, [0]⟩, .eq⟩

/-- A new configuration of one expression, after some calls. -/
private def oneExpression (before : List GatewayCall) : List GatewayCall :=
  before ++ [.configure .clearRelationExp, .configure (.insertRelationExp notValid)]

private theorem oneExpression_executes (before : List GatewayCall)
    (which : before = [] ∨ before = [.configure (.insertRelationExp notValid),
      .configure (.insertRelationExp notValid)]) :
    ∃ object, Executes (oneExpression before ++
      [.execute .fresh]) (oneExpression before) object .fresh [true] 128 .zero := by
  cases which with
  | inl alone =>
      subst alone
      exact ⟨_, List.prefix_rfl, rfl, by decide, ⟨by decide, by decide⟩, rfl⟩
  | inr after =>
      subst after
      exact ⟨_, List.prefix_rfl, rfl, by decide, ⟨by decide, by decide⟩, rfl⟩

private theorem few_of_inits {calls : List GatewayCall} {most : Nat}
    (inits : ∀ history ∈ calls.inits, (current history).exps.length ≤ most) (history : List GatewayCall)
    (listed : history <+: calls) : (current history).exps.length ≤ most :=
  inits history ((List.mem_inits _ _).mpr listed)

private theorem oneExpression_last {history : List GatewayCall} {phv : Phv}
    (listed : history ++ [.execute phv] <+: oneExpression [] ++ [.execute .fresh]) :
    history = oneExpression [] := by
  obtain ⟨rest, same⟩ := listed
  match history with
  | [] => cases same
  | [_] => cases same
  | [_, _] =>
      cases same
      rfl
  | _ :: _ :: _ :: _ =>
      have lengths := congrArg List.length same
      simp [oneExpression] at lengths

theorem everyExecute_one : ∃ object,
    Executes (oneExpression [] ++ [.execute .fresh]) (oneExpression []) object .fresh [true] 128 .zero ∧
      EvaluatesCurrent object .fresh 128 .zero := by
  obtain ⟨object, executes⟩ := oneExpression_executes [] (.inl rfl)
  have few : ∀ history, history <+: oneExpression [] ++ [.execute .fresh] →
      (current history).exps.length ≤ 1 :=
    few_of_inits (by decide)
  have fills : FillsVector (oneExpression []) :=
    ⟨by decide, fun earlier before => few earlier (before.trans (List.prefix_append _ _))⟩
  refine ⟨object, executes,
    (everyExecute_iff _ fun history listed => (few history listed).trans (by decide)).mpr
    ?_ _ _ _ _ _ _ executes⟩
  intro history _ _ _ _ _ other
  exact oneExpression_last other.listed ▸ fills

private def twoExpressions : List GatewayCall :=
  [.configure (.insertRelationExp notValid), .configure (.insertRelationExp notValid)]

/-- An expression is alone in storage for two: the loop reads the second place as well. -/
theorem not_everyExecute : ∃ object,
    (∀ history, history <+: oneExpression twoExpressions ++ [.execute .fresh] →
      (current history).exps.length ≤ 8) ∧
    Executes (oneExpression twoExpressions ++
      [.execute .fresh]) (oneExpression twoExpressions) object .fresh [true] 128 .zero ∧
      ¬EvaluatesCurrent object .fresh 128 .zero := by
  obtain ⟨object, executes⟩ := oneExpression_executes twoExpressions (.inr rfl)
  refine ⟨object, few_of_inits (by decide), executes, fun evaluates => ?_⟩
  obtain ⟨evaluated, _⟩ := evaluates
  have run := executes.reached
  cases run
  exact absurd evaluated (by decide)

end Ipbm.Dataplane
