import Ipbm.Dataplane.KeyConcatenation
import Ipbm.Dataplane.ParserSteps
import Mathlib.Algebra.Order.BigOperators.Group.List

/-! The key of a transition. Each field's value is added behind the key so far, but the key
is also added to its own shifted value. -/

set_option autoImplicit false

namespace Ipbm.Dataplane
open Lib

/-! ### Concatenation from the front -/

private theorem foldl_concat (bits : Nat) (fields : List (Nat × Nat)) :
    fields.foldl (fun bits field => bits * 2 ^ field.1 + field.2) bits = bits *
      2 ^ widthSum fields + concatBits fields := by
  induction fields using List.reverseRecOn with
  | nil => simp
  | append_singleton fields field ih =>
      rw [List.foldl_append, ih, List.foldl_cons, List.foldl_nil, concatBits_append,
        widthSum_append, Nat.pow_add]
      ring

@[simp] theorem widthSum_cons (field : Nat × Nat) (fields : List (Nat × Nat)) :
    widthSum (field :: fields) = field.1 + widthSum fields := by
  simp [widthSum]

theorem concatBits_cons (field : Nat × Nat) (fields : List (Nat × Nat)) :
    concatBits (field :: fields) = field.2 * 2 ^ widthSum fields + concatBits fields := by
  rw [concatBits, List.foldl_cons, foldl_concat, Nat.zero_mul, Nat.zero_add]

theorem concatBits_lt {fields : List (Nat × Nat)} (fit : ∀ field ∈ fields, field.2 < 2 ^ field.1) :
    concatBits fields < 2 ^ widthSum fields := by
  induction fields using List.reverseRecOn with
  | nil => simp
  | append_singleton fields field ih =>
      have before := ih fun other member => fit other (List.mem_append_left _ member)
      have last := fit field (List.mem_append_right _ List.mem_cons_self)
      rw [concatBits_append, widthSum_append]
      exact concat_lt before last

/-- Fields of the same widths are told apart by their concatenation. -/
theorem concatBits_injective {fields others : List (Nat × Nat)}
    (widths : fields.map Prod.fst = others.map Prod.fst)
    (fit : ∀ field ∈ fields, field.2 < 2 ^ field.1) (otherFit : ∀ field ∈ others, field.2 < 2 ^ field.1)
    (same : concatBits fields = concatBits others) : fields = others := by
  induction fields generalizing others with
  | nil => exact (List.map_eq_nil_iff.mp widths.symm).symm
  | cons field fields ih =>
      cases others with
      | nil => cases widths
      | cons other others =>
          obtain ⟨width, rest⟩ := List.cons.inj widths
          have total : widthSum fields = widthSum others := congrArg List.sum rest
          have low := concatBits_lt fun field member => fit field (List.mem_cons_of_mem _ member)
          have otherLow := concatBits_lt fun field member => otherFit field (List.mem_cons_of_mem _ member)
          rw [concatBits_cons, concatBits_cons, total] at same
          rw [total] at low
          have high : field.2 = other.2 := by
            have divided := congrArg (· / 2 ^ widthSum others) same
            simpa [Nat.mul_comm _ (2 ^ widthSum others), Nat.mul_add_div (Nat.two_pow_pos _),
              Nat.div_eq_of_lt low, Nat.div_eq_of_lt otherLow] using divided
          rw [high] at same
          rw [Prod.ext width high, ih rest (fun field member => fit field (List.mem_cons_of_mem _ member))
            (fun field member => otherFit field (List.mem_cons_of_mem _ member)) (Nat.add_left_cancel same)]

/-! ### What the loop adds -/

/-- What a bit of the key so far counts after these fields. -/
def weight (fields : List (Nat × Nat)) : Nat := (fields.map fun field => 2 ^ field.1 + 1).prod

/-- What the key has more than the concatenation: each value is counted again for every way to
leave out a later shift. -/
def surplus : List (Nat × Nat) → Nat
  | [] => 0
  | field :: fields =>
      field.2 * (weight fields - 2 ^ widthSum fields) + surplus fields

@[simp] theorem weight_nil : weight [] = 1 := rfl

theorem weight_cons (field : Nat × Nat) (fields : List (Nat × Nat)) :
    weight (field :: fields) = (2 ^ field.1 + 1) * weight fields := rfl

private theorem weight_ge (fields : List (Nat × Nat)) : 2 ^ widthSum fields ≤ weight fields := by
  induction fields with
  | nil => simp
  | cons field fields ih =>
      rw [widthSum_cons, Nat.pow_add, weight_cons]
      exact Nat.mul_le_mul (Nat.le_succ _) ih

private theorem weight_gt (field : Nat × Nat) (fields : List (Nat × Nat)) :
    2 ^ widthSum (field :: fields) < weight (field :: fields) := by
  rw [widthSum_cons, Nat.pow_add, weight_cons]
  exact Nat.mul_lt_mul_of_lt_of_le (Nat.lt_succ_self _) (weight_ge fields)
    ((Nat.two_pow_pos _).trans_le (weight_ge fields))

private theorem foldl_key (key : Nat) (fields : List (Nat × Nat)) :
    fields.foldl (fun key field => key + key * 2 ^ field.1 + field.2) key =
      key * weight fields + (concatBits fields + surplus fields) := by
  induction fields generalizing key with
  | nil => simp [surplus]
  | cons field fields ih =>
      obtain ⟨more, counted⟩ := Nat.exists_eq_add_of_le (weight_ge fields)
      have left : weight fields - 2 ^ widthSum fields = more := by
        rw [counted, Nat.add_sub_cancel_left]
      rw [List.foldl_cons, ih, concatBits_cons, surplus, left, weight_cons, counted]
      ring

/-- Nothing is counted twice exactly when no value but the last one is there. -/
theorem surplus_eq_zero {fields : List (Nat × Nat)} :
    surplus fields = 0 ↔ ∀ field ∈ fields.dropLast, field.2 = 0 := by
  induction fields with
  | nil => simp [surplus]
  | cons field fields ih =>
      cases fields with
      | nil => simp [surplus]
      | cons next fields =>
          have more : weight (next :: fields) - 2 ^ widthSum (next :: fields) ≠ 0 :=
            Nat.sub_ne_zero_of_lt (weight_gt next fields)
          rw [surplus, Nat.add_eq_zero_iff, Nat.mul_eq_zero, or_iff_left more, ih, List.dropLast_cons_cons,
            List.forall_mem_cons]

/-! ### The loop of a level -/

/-- The transition fields of an entry have these widths, and these values in the packet. -/
def FieldValues (phv : Phv) (transFds : List FieldInfo) (fields : List (Nat × Nat)) : Prop :=
  List.Forall₂ (fun transFd field => transFd.fdLen = field.1 ∧
    ParserStage.getFieldInt phv transFd = some field.2)
    transFds fields

private theorem FieldValues.widths {phv : Phv} {transFds : List FieldInfo} {fields : List (Nat × Nat)}
    (values : FieldValues phv transFds fields) : transFds.map FieldInfo.fdLen = fields.map Prod.fst := by
  induction values with
  | nil => rfl
  | cons own _ ih => rw [List.map_cons, List.map_cons, own.1, ih]

private theorem transKeyStep_eq {phv : Phv} {transFd : FieldInfo} {value : Nat} (key : Nat)
    (short : transFd.fdLen < 32) (isValue : ParserStage.getFieldInt phv transFd = some value) :
    ParserStage.transKeyStep phv (key % 2 ^ 32) transFd =
      some ((key + key * 2 ^ transFd.fdLen + value) % 2 ^ 32) := by
  simp only [ParserStage.transKeyStep, isValue, shl32, if_pos short, Option.bind_eq_bind, Option.bind_some,
    Option.pure_def, Nat.shiftLeft_eq]
  congr 1
  simp [Nat.add_mod, Nat.mul_mod]

private theorem foldlM_transKey {phv : Phv} {transFds : List FieldInfo} {fields : List (Nat × Nat)}
    (values : FieldValues phv transFds fields) (short : ∀ field ∈ fields, field.1 < 32) (key : Nat) :
    transFds.foldlM (ParserStage.transKeyStep phv) (key % 2 ^ 32) =
      some (fields.foldl (fun key field => key + key * 2 ^ field.1 + field.2) key % 2 ^ 32) := by
  induction values generalizing key with
  | nil => rfl
  | @cons transFd field transFds fields own _ ih =>
      have first := transKeyStep_eq key (own.1 ▸ short field List.mem_cons_self) own.2
      rw [List.foldlM_cons, first, Option.bind_eq_bind, Option.bind_some, List.foldl_cons, ← own.1]
      exact ih (fun other member => short other (List.mem_cons_of_mem _ member)) _

private theorem foldlM_wide {phv : Phv} {transFds : List FieldInfo} {fields : List (Nat × Nat)}
    (values : FieldValues phv transFds fields) (wide : ∃ field ∈ fields, 32 ≤ field.1) (key : Nat) :
    transFds.foldlM (ParserStage.transKeyStep phv) key = none := by
  induction values generalizing key with
  | nil => simp at wide
  | @cons transFd field transFds fields own _ ih =>
      rw [List.foldlM_cons, Option.bind_eq_bind, Option.bind_eq_none_iff]
      intro after step
      obtain ⟨res, _, step⟩ := Option.bind_eq_some_iff.mp step
      obtain ⟨shifted, shift, _⟩ := Option.bind_eq_some_iff.mp step
      obtain ⟨other, member, large⟩ := wide
      cases List.mem_cons.mp member with
      | inl here =>
          subst here
          rw [shl32, if_neg (by omega)] at shift
          cases shift
      | inr there => exact ih ⟨other, there, large⟩ after

/-- Three fields or more can have what is counted again add up to nothing in a word. -/
def Cancels (fields : List (Nat × Nat)) : Prop := 2 < fields.length ∧ 2 ^ 32 ∣ surplus fields

private theorem surplus_dvd {fields : List (Nat × Nat)} (fit : ∀ field ∈ fields, field.2 < 2 ^ field.1)
    (total : widthSum fields ≤ 32) :
    2 ^ 32 ∣ surplus fields ↔ (∀ field ∈ fields.dropLast, field.2 = 0) ∨ Cancels fields := by
  constructor
  · intro divides
    by_cases several : 2 < fields.length
    · exact .inr ⟨several, divides⟩
    · left
      rw [← surplus_eq_zero]
      apply Nat.eq_zero_of_dvd_of_lt divides
      match fields, several with
      | [], _ => simp [surplus]
      | [_], _ => simp [surplus]
      | [first, second], _ =>
          have low := fit first List.mem_cons_self
          have narrow : first.1 ≤ 32 := by
            simp at total
            omega
          have alone : surplus [first, second] = first.2 := by simp [surplus, weight_cons]
          rw [alone]
          exact low.trans_le (Nat.pow_le_pow_right (by decide) narrow)
      | _ :: _ :: _ :: _, several => simp at several
  · rintro (zeros | cancels)
    · rw [surplus_eq_zero.mpr zeros]
      exact Nat.dvd_zero _
    · exact cancels.2

/-! ### The key of an entry -/

/-- The packet takes an entry of the stage with at most four transition fields, of these widths and
these values, that have at most 32 bits. -/
structure Selects (stage : ParserStage) (index : Nat) (phv middle : Phv) (missAct : Nat)
    (fields : List (Nat × Nat)) : Prop where
  taken : stage.matchIdx phv = some index
  extracted : (stage.actTbl index).extract phv = some middle
  isAct : (stage.actTbl index).missAct = some missAct
  transFdNum : (stage.actTbl index).transFdNum = some fields.length
  few : fields.length ≤ transFdCapacity
  values : FieldValues middle ((List.range fields.length).map (stage.actTbl index).transFds) fields
  fit : ∀ field ∈ fields, field.2 < 2 ^ field.1
  total : widthSum fields ≤ 32

/-- The level goes over the packet and leaves this key. -/
def LeavesKey (stage : ParserStage) (phv : Phv) (key : Nat) : Prop :=
  ∃ after, stage.parse phv = some after ∧ after.curTransKey = key

/-- An entry that goes on: no shift by the word, and nothing is counted again. -/
structure PlainFields (fields : List (Nat × Nat)) : Prop where
  shifts : ∀ field ∈ fields, field.1 ≠ 32
  plain : (∀ field ∈ fields.dropLast, field.2 = 0) ∨ Cancels fields

namespace Selects

variable {stage : ParserStage} {index : Nat} {phv middle : Phv} {missAct : Nat} {fields : List (Nat × Nat)}

private theorem middle_missAct (selects : Selects stage index phv middle missAct fields) :
    middle.missAct = missAct := by
  obtain ⟨_, _, _, act, _, _, _, isAct, _, _, rfl⟩ := ParserSramEntry.extract_iff.mp selects.extracted
  exact Option.some.inj (isAct.symm.trans selects.isAct)

private theorem middle_key (selects : Selects stage index phv middle missAct fields) :
    middle.curTransKey = phv.curTransKey := by
  obtain ⟨_, _, _, _, _, _, _, _, _, _, rfl⟩ := ParserSramEntry.extract_iff.mp selects.extracted
  rfl

private theorem parse_eq (selects : Selects stage index phv middle missAct fields) :
    stage.parse phv = (stage.actTbl index).finish middle := by
  rw [ParserStage.parse_hit selects.taken, selects.extracted, Option.bind_some]

private theorem concat_small (selects : Selects stage index phv middle missAct fields) :
    concatBits fields < 2 ^ 32 :=
  (concatBits_lt selects.fit).trans_le (Nat.pow_le_pow_right (by decide) selects.total)

private theorem sameWidths {other otherMiddle : Phv} {otherFields : List (Nat × Nat)}
    (selects : Selects stage index phv middle missAct fields)
    (otherSelects : Selects stage index other otherMiddle missAct otherFields) :
    fields.map Prod.fst = otherFields.map Prod.fst := by
  have lengths : fields.length = otherFields.length :=
    Option.some.inj (selects.transFdNum.symm.trans otherSelects.transFdNum)
  have own := selects.values.widths
  have theirs := otherSelects.values.widths
  rw [← own, ← theirs, lengths]

private theorem transKey_eq (selects : Selects stage index phv middle missAct fields) :
    (stage.actTbl index).transKey middle =
      if ∃ field ∈ fields, field.1 = 32 then none
        else some ((concatBits fields + surplus fields) % 2 ^ 32) := by
  have most : ∀ field ∈ fields, field.1 ≤ 32 := fun field member =>
    (List.le_sum_of_mem (List.mem_map_of_mem member)).trans selects.total
  rw [ParserSramEntry.transKey, selects.transFdNum, Option.bind_eq_bind, Option.bind_some, if_pos selects.few]
  split
  · next wide =>
      obtain ⟨field, member, full⟩ := wide
      exact foldlM_wide selects.values ⟨field, member, full.ge⟩ 0
  · next narrow =>
      have short : ∀ field ∈ fields, field.1 < 32 := fun field member =>
        lt_of_le_of_ne (most field member) fun full => narrow ⟨field, member, full⟩
      have run := foldlM_transKey selects.values short 0
      rwa [foldl_key, Nat.zero_mul, Nat.zero_add] at run

private theorem goesOn_iff (selects : Selects stage index phv middle missAct fields) (goesOn : 1 < missAct) :
    LeavesKey stage phv (concatBits fields) ↔ PlainFields fields := by
  have act := selects.middle_missAct
  have run : stage.parse phv = ((stage.actTbl index).transKey middle).map fun curTransKey =>
      { middle with curTransKey } := by
    rw [selects.parse_eq]
    exact ParserSramEntry.finish_goesOn (by omega) (by omega)
  rw [selects.transKey_eq] at run
  by_cases wide : ∃ field ∈ fields, field.1 = 32
  · rw [if_pos wide] at run
    obtain ⟨field, member, full⟩ := wide
    constructor
    · rintro ⟨after, done, _⟩
      cases run.symm.trans done
    · intro plain
      exact absurd full (plain.shifts field member)
  · rw [if_neg wide] at run
    have sameKey : LeavesKey stage phv (concatBits fields) ↔
        (concatBits fields + surplus fields) % 2 ^ 32 = concatBits fields := by
      simp [LeavesKey, run]
    rw [sameKey, add_mod_self_iff selects.concat_small, ← Nat.dvd_iff_mod_eq_zero,
      surplus_dvd selects.fit selects.total]
    exact ⟨fun plain => ⟨fun field member full => wide ⟨field, member, full⟩, plain⟩, PlainFields.plain⟩

private theorem leavesKey_iff (selects : Selects stage index phv middle missAct fields) :
    LeavesKey stage phv (concatBits fields) ↔
      missAct = 0 ∧ phv.curTransKey = concatBits fields ∨
      missAct = 1 ∧ phv.curTransKey = concatBits fields ∧ (ParserStage.drop middle).isSome ∨
      1 < missAct ∧ PlainFields fields := by
  have act := selects.middle_missAct
  match missAct with
  | 0 =>
      have run : stage.parse phv = some middle := by rw [selects.parse_eq, ParserSramEntry.finish, if_pos act]
      simp [LeavesKey, run, selects.middle_key]
  | 1 =>
      have run : stage.parse phv = ParserStage.drop middle := by
        rw [selects.parse_eq, ParserSramEntry.finish, if_neg (by omega), if_pos act]
      have kept : LeavesKey stage phv (concatBits fields) ↔
          phv.curTransKey = concatBits fields ∧ (ParserStage.drop middle).isSome := by
        constructor
        · rintro ⟨after, done, key⟩
          obtain ⟨packet, rfl⟩ := ParserStage.drop_eq (run.symm.trans done)
          exact ⟨selects.middle_key.symm.trans key, run ▸ Option.isSome_of_eq_some done⟩
        · rintro ⟨key, some_⟩
          obtain ⟨after, done⟩ := Option.isSome_iff_exists.mp some_
          obtain ⟨packet, same⟩ := ParserStage.drop_eq done
          exact ⟨after, run.trans done, by rw [same, ← key]; exact selects.middle_key⟩
      simpa using kept
  | more + 2 =>
      have goes := selects.goesOn_iff (by omega)
      simpa using goes

end Selects

/-- An entry leaves the concatenation of its fields as the key if nothing is counted again; one that
accepts or drops leaves the key as it was. Where both keys are concatenations they tell the fields apart. -/
theorem transKey_concat_iff (stage : ParserStage) (index : Nat) (phv middle : Phv) (missAct : Nat)
    (fields : List (Nat × Nat)) (selects : Selects stage index phv middle missAct fields) :
    (LeavesKey stage phv (concatBits fields) ↔
      missAct = 0 ∧ phv.curTransKey = concatBits fields ∨
      missAct = 1 ∧ phv.curTransKey = concatBits fields ∧ (ParserStage.drop middle).isSome ∨
      1 < missAct ∧ PlainFields fields) ∧
    ∀ other otherMiddle otherFields, Selects stage index other otherMiddle missAct otherFields →
      1 < missAct → PlainFields fields → PlainFields otherFields →
        ((stage.parse phv).map Phv.curTransKey = (stage.parse other).map Phv.curTransKey ↔
          fields = otherFields) := by
  refine ⟨selects.leavesKey_iff, fun other otherMiddle otherFields otherSelects goesOn plain otherPlain => ?_⟩
  obtain ⟨after, done, key⟩ := (selects.goesOn_iff goesOn).mpr plain
  obtain ⟨otherAfter, otherDone, otherKey⟩ := (otherSelects.goesOn_iff goesOn).mpr otherPlain
  have keys : (stage.parse phv).map Phv.curTransKey = (stage.parse other).map Phv.curTransKey ↔
      concatBits fields = concatBits otherFields := by
    rw [done, otherDone, Option.map_some, Option.map_some, Option.some.injEq, key, otherKey]
  rw [keys]
  constructor
  · exact concatBits_injective (selects.sameWidths otherSelects) selects.fit otherSelects.fit
  · exact fun same => same ▸ rfl

/-- A level with one entry, taken by every key, that reads the first two bytes of header 0. -/
private def twoBytes : ParserStage where
  transTbl := fun index => if index = 255 then ⟨0, 0, 0⟩ else {}
  actTbl := fun index =>
    if index = 255 then
      ⟨some 0, some 16, some 1, some 2, fun place => ⟨0, 8 * place, 8, .field⟩, some 2⟩
    else
      {}

private def firstBytes (first second : UInt8) : Phv :=
  { Phv.fresh with packet := first :: second :: List.replicate 1598 0 }

/-- The vector once the header is extracted. -/
private def extractedBytes (first second : UInt8) : Phv :=
  { firstBytes first second with
    validBitmap := Phv.fresh.validBitmap.set 0 1
    parsedHeaders := Phv.fresh.parsedHeaders.set 0 ⟨0, 0, 16⟩
    curOffset := 16, curState := 1, missAct := 2 }

private theorem getFieldInt_bytes {phv : Phv} {first second : UInt8} {rest : List UInt8} {hdrLen : Nat}
    (packet : phv.packet = first :: second :: rest) (header : phv.parsedHeaders[0]? = some ⟨0, 0, hdrLen⟩) :
    ParserStage.getFieldInt phv ⟨0, 0, 8, .field⟩ = some first.toNat ∧
      ParserStage.getFieldInt phv ⟨0, 8, 8, .field⟩ = some second.toNat := by
  simp [ParserStage.getFieldInt, packet, header, copyOut, ParserStage.fieldInt]

private theorem twoBytes_selects (first second : UInt8) :
    Selects twoBytes 255 (firstBytes first second) (extractedBytes first second) 2
      [(8, first.toNat), (8, second.toNat)] where
  taken := by
    have same : twoBytes.matchIdx (firstBytes first second) = twoBytes.matchIdx (firstBytes 0 0) := rfl
    rw [same]
    decide
  extracted := by
    rw [ParserSramEntry.extract_iff]
    exact ⟨0, 16, 1, 2, rfl, rfl, rfl, rfl, Nat.succ_pos _, Nat.succ_pos _, rfl⟩
  isAct := rfl
  transFdNum := rfl
  few := Nat.le_add_right 2 2
  values := .cons ⟨rfl, (@getFieldInt_bytes (extractedBytes first second) _ _ _ _ rfl rfl).1⟩
    (.cons ⟨rfl, (@getFieldInt_bytes (extractedBytes first second) _ _ _ _ rfl rfl).2⟩ .nil)
  fit := by
    intro field member
    simp only [List.mem_cons, List.not_mem_nil, or_false] at member
    cases member with
    | inl isFirst => exact isFirst ▸ byte_lt first
    | inr isSecond => exact isSecond ▸ byte_lt second
  total := by simp

theorem transKey_concat_zero : LeavesKey twoBytes (firstBytes 0 7) 7 ∧
    (twoBytes.parse (firstBytes 0 7)).map Phv.curTransKey ≠
      (twoBytes.parse (firstBytes 0 9)).map Phv.curTransKey := by
  have plain : ∀ second : UInt8, PlainFields [(8, (0 : UInt8).toNat), (8, second.toNat)] := fun _ =>
    ⟨by simp, .inl (by simp)⟩
  have holds := transKey_concat_iff twoBytes 255 (firstBytes 0 7) (extractedBytes 0 7) 2
    [(8, (0 : UInt8).toNat), (8, (7 : UInt8).toNat)] (twoBytes_selects 0 7)
  refine ⟨holds.1.mpr (.inr (.inr ⟨by decide, plain 7⟩)), ?_⟩
  rw [ne_eq, holds.2 _ _ _ (twoBytes_selects 0 9) (by decide) (plain 7) (plain 9)]
  decide

/-- A packet that starts with `01 02` gets the key 259. -/
theorem not_transKey_concat : Selects twoBytes 255 (firstBytes 1 2) (extractedBytes 1 2) 2 [(8, 1), (8, 2)] ∧
    ¬LeavesKey twoBytes (firstBytes 1 2) (concatBits [(8, 1), (8, 2)]) := by
  refine ⟨twoBytes_selects 1 2, ?_⟩
  rintro ⟨after, done, key⟩
  have keys : (twoBytes.parse (firstBytes 1 2)).map Phv.curTransKey = some 259 := by decide +kernel
  rw [done, Option.map_some, key] at keys
  exact absurd keys (by decide)

end Ipbm.Dataplane
