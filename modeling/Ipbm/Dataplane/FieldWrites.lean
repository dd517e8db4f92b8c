import Ipbm.Dataplane.RunProperties
import Ipbm.Dataplane.Switch

/-! What a field write leaves in every byte of the packet, and the egress port the
switch reads. -/

set_option autoImplicit false

namespace Ipbm.Dataplane
open Lib

/-- A byte of the packet after the bytes `spans` are written from `first` on. -/
def spanned (kept : Nat → Nat) (spans : List UInt8) (first index : Nat) (old : UInt8) : UInt8 :=
  if first ≤ index then
    match spans[index - first]? with
    | some span => u8 ((old.toNat &&& kept (index - first)) + span.toNat)
    | none => old
  else
    old

private theorem writeSpans {spans : List UInt8} {beginByte start : Nat} (kept : Nat → Nat)
    {step : List UInt8 → UInt8 × Nat → Option (List UInt8)}
    (isStep : ∀ packet span index, step packet (span, index) = do
      let old ← packet[beginByte + index]?
      setAt packet (beginByte + index) (u8 ((old.toNat &&& kept index) + span.toNat)))
    {packet after : List UInt8} (run : (spans.zipIdx start).foldlM step packet = some after) (index : Nat) :
    after[index]? = (packet[index]?).map (spanned (fun offset => kept (start + offset)) spans
      (beginByte + start) index) := by
  induction spans generalizing start packet with
  | nil =>
      cases run
      have same : spanned (fun offset => kept (start + offset)) [] (beginByte + start) index = id := by
        funext old
        simp [spanned]
      rw [same, Option.map_id, id]
  | cons span rest ih =>
      rw [List.zipIdx_cons, List.foldlM_cons] at run
      obtain ⟨middle, first, run⟩ := Option.bind_eq_some_iff.mp run
      rw [isStep] at first
      obtain ⟨old, found, first⟩ := Option.bind_eq_some_iff.mp first
      obtain ⟨inside, rfl⟩ := setAt_eq_some_iff.mp first
      rw [ih run, List.getElem?_set]
      by_cases here : beginByte + start = index
      · subst here
        rw [if_pos rfl, if_pos inside, found]
        simp [spanned]
      · rw [if_neg here]
        refine congrFun (congrArg Option.map (funext fun old => ?_)) _
        unfold spanned
        by_cases behind : beginByte + start ≤ index
        · obtain ⟨offset, rfl⟩ := Nat.exists_eq_add_of_lt (Nat.lt_of_le_of_ne behind here)
          have first : beginByte + start + offset + 1 - (beginByte + (start + 1)) = offset := by omega
          have second : beginByte + start + offset + 1 - (beginByte + start) = offset + 1 := by omega
          rw [if_pos behind, if_pos (by omega), first, second, List.getElem?_cons_succ]
          simp only [Nat.add_assoc, Nat.add_comm 1 offset]
        · rw [if_neg behind, if_neg (by omega)]

/-- The field write of a primitive, byte by byte. -/
theorem Primitive.modifyFieldWithData_bytes {field : FieldInfo} {data : Data} {phv after : Phv}
    (done : modifyFieldWithData field data phv = some after) {header : HeaderInfo}
    (found : phv.parsedHeaders[field.hdrId]? = some header) {beginBit endBit byteLen rightEmpty : Nat}
    (isBegin : beginBit = header.hdrOffset + field.internalOffset) (isEnd : endBit = beginBit + field.fdLen)
    (isLen : byteLen = (endBit - 1) / 8 + 1 - beginBit / 8)
    (isEmpty : rightEmpty = ((endBit - 1) / 8 + 1) * 8 - endBit) :
    after.parsedHeaders = phv.parsedHeaders ∧ ∃ new, newData data byteLen = some new ∧ ∀ index,
      after.packet[index]? = (phv.packet[index]?).map (spanned
        (fun offset => keepMask (if offset = 0 then beginBit % 8 else 0)
          (if offset = byteLen - 1 then rightEmpty else 0))
        (shlBytes rightEmpty new) (beginBit / 8) index) := by
  subst isBegin isEnd isLen isEmpty
  simp only [modifyFieldWithData, found, Option.bind_eq_bind, Option.bind_some] at done
  split at done
  · cases done
  · obtain ⟨new, isNew, done⟩ := Option.bind_eq_some_iff.mp done
    obtain ⟨packet, run, done⟩ := Option.bind_eq_some_iff.mp done
    cases done
    refine ⟨rfl, new, isNew, fun index => ?_⟩
    have written := writeSpans (fun offset => keepMask
      (if offset = 0 then (header.hdrOffset + field.internalOffset) % 8 else 0)
      (if offset = (header.hdrOffset + field.internalOffset + field.fdLen - 1) / 8 + 1 -
          (header.hdrOffset + field.internalOffset) / 8 - 1
        then ((header.hdrOffset + field.internalOffset + field.fdLen - 1) / 8 + 1) * 8 -
          (header.hdrOffset + field.internalOffset + field.fdLen) else 0)) (fun _ _ _ => rfl) run index
    simpa only [Nat.zero_add, Nat.add_zero] using written

theorem length_newData {data : Data} {byteLen : Nat} {new : List UInt8} (positive : 0 < byteLen)
    (done : Primitive.newData data byteLen = some new) : new.length = byteLen := by
  unfold Primitive.newData copyOut at done
  simp only at done
  split at done
  · obtain ⟨copied, isCopy, rfl⟩ := Option.map_eq_some_iff.mp done
    split at isCopy
    · cases isCopy
      simp only [List.length_cons, List.length_take, List.length_drop]
      omega
    · cases isCopy
  · split at done
    · cases done
      simp only [List.length_take, List.length_drop]
      omega
    · cases done

/-! ### Egress port -/

/-- The nine bits from the second bit of one byte on. -/
def portBits (first second : UInt8) : Nat := (first.toNat * 4 + second.toNat / 64) % 512

private theorem portBits_eq (first second third : UInt8) :
    ((((first.toNat <<< 8 % 2 ^ 32 + (second.toNat <<< 0 % 2 ^ 32 + third.toNat <<< 24 % 2 ^ 32)) %
      2 ^ 32) >>> 6) <<< 23 % 2 ^ 32) >>> 23 = portBits first second := by
  have low := first.toNat_lt
  have middle := second.toNat_lt
  have high := third.toNat_lt
  simp only [Nat.shiftLeft_eq, Nat.shiftRight_eq_div_pow, portBits]
  omega

/-- The byte behind the field is read as well, but its bits are shifted out. -/
theorem getFieldValue_egressPort {phv : Phv} {header : HeaderInfo} {base : Nat}
    (found : phv.parsedHeaders[31]? = some header) (aligned : header.hdrOffset = 8 * base) :
    getFieldValue egressPort phv = do
      let first ← phv.packet[base + 1]?
      let second ← phv.packet[base + 2]?
      let _ ← phv.packet[base + 3]?
      return portBits first second := by
  have start : (header.hdrOffset + 9) / 8 = base + 1 := by omega
  have stop : (header.hdrOffset + 9 + 9 + 7) / 8 = base + 3 := by omega
  have end_ : (header.hdrOffset + 9 + 9) % 8 = 2 := by omega
  have indices : List.range' (base + 1) (base + 3 + 1 - (base + 1)) = [base + 1, base + 2, base + 3] := by
    have count : base + 3 + 1 - (base + 1) = 3 := by omega
    rw [count]
    rfl
  simp only [getFieldValue, egressPort, found, Option.bind_eq_bind, Option.bind_some, start,
    stop, end_, indices]
  simp only [List.mapM_cons, List.mapM_nil, Option.bind_eq_bind, Option.pure_def]
  cases phv.packet[base + 1]? with
  | none => simp only [Option.bind_none]
  | some first =>
      cases phv.packet[base + 2]? with
      | none => simp [shl32]
      | some second =>
          cases phv.packet[base + 3]? with
          | none => simp [shl32]
          | some third =>
              have value := portBits_eq first second third
              simp [shl32] at value ⊢
              exact value

private theorem and_low : ∀ byte < 256, byte &&& keepMask 0 7 = byte % 128 := by decide +kernel

private theorem and_high : ∀ byte < 256, byte &&& keepMask 2 0 = byte / 64 * 64 := by decide +kernel

private theorem and_first : ∀ byte < 256, byte &&& keepMask 1 0 = byte / 128 * 128 := by decide +kernel

private theorem and_second : ∀ byte < 256, byte &&& keepMask 0 6 = byte % 64 := by decide +kernel

private theorem port_kept {phv after : Phv} {header : HeaderInfo} {base : Nat}
    (found : phv.parsedHeaders[31]? = some header) (aligned : header.hdrOffset = 8 * base)
    (headers : after.parsedHeaders = phv.parsedHeaders) {change : Nat → UInt8 → UInt8}
    (written : ∀ index, after.packet[index]? = (phv.packet[index]?).map (change index))
    (bits : ∀ first second, portBits (change (base + 1) first) (change (base + 2) second) =
      portBits first second) :
    getFieldValue egressPort after = getFieldValue egressPort phv := by
  rw [getFieldValue_egressPort found aligned, getFieldValue_egressPort (headers ▸ found) aligned,
    written, written, written]
  cases phv.packet[base + 1]? with
  | none => rfl
  | some first =>
      cases phv.packet[base + 2]? with
      | none => rfl
      | some second =>
          cases phv.packet[base + 3]? with
          | none => rfl
          | some third => exact congrArg some (bits first second)

namespace Primitive

variable {data : Data} {phv after : Phv} {header : HeaderInfo} {base : Nat}

/-- Fields from the fourth byte on. -/
theorem port_behind {field : FieldInfo} (done : modifyFieldWithData field data phv = some after)
    (standard : field.hdrId = 31) (behind : 24 ≤ field.internalOffset)
    (found : phv.parsedHeaders[31]? = some header) (aligned : header.hdrOffset = 8 * base) :
    after.parsedHeaders = phv.parsedHeaders ∧
      getFieldValue egressPort after = getFieldValue egressPort phv := by
  obtain ⟨headers, new, _, written⟩ := modifyFieldWithData_bytes done (standard ▸ found) rfl rfl rfl rfl
  refine ⟨headers, port_kept found aligned headers written fun first second => ?_⟩
  have early : ∀ index, index < base + 3 →
      ¬(header.hdrOffset + field.internalOffset) / 8 ≤ index := by
    intro index low
    omega
  simp only [spanned, if_neg (early (base + 1) (by omega)), if_neg (early (base + 2) (by omega))]

theorem port_ingressPort (done : modifyFieldWithData ⟨31, 0, 9, .field⟩ data phv = some after)
    (found : phv.parsedHeaders[31]? = some header) (aligned : header.hdrOffset = 8 * base) :
    after.parsedHeaders = phv.parsedHeaders ∧
      getFieldValue egressPort after = getFieldValue egressPort phv := by
  have begins : 8 * base = header.hdrOffset + 0 := by omega
  have length : 2 = (8 * base + 9 - 1) / 8 + 1 - 8 * base / 8 := by omega
  have empty : 7 = ((8 * base + 9 - 1) / 8 + 1) * 8 - (8 * base + 9) := by omega
  obtain ⟨headers, new, isNew, written⟩ := modifyFieldWithData_bytes done found begins rfl length empty
  refine ⟨headers, port_kept found aligned headers written fun first second => ?_⟩
  match new, length_newData (by omega) isNew with
  | [high, low], _ =>
      have at_ : 8 * base / 8 = base := by omega
      have one : base + 1 - base = 1 := by omega
      have two : base + 2 - base = 2 := by omega
      have bound := first.toNat_lt
      simp only [spanned, at_, one, two, shlBytes, List.getElem?_cons_succ, List.getElem?_cons_zero,
        List.getElem?_nil, Nat.le_add_right, if_true, Nat.one_ne_zero, if_false, portBits, toNat_u8,
        and_low first.toNat bound, Nat.shiftLeft_eq, show (2 : Nat) - 1 = 1 from rfl]
      omega

/-- The high bits of a value that does not fit are added to those of the egress port. -/
theorem port_egressPort (done : modifyFieldWithData ⟨31, 18, 9, .field⟩ data phv = some after)
    (fits : ∀ new, newData data 2 = some new → beVal new < 2 ^ 9)
    (found : phv.parsedHeaders[31]? = some header) (aligned : header.hdrOffset = 8 * base) :
    after.parsedHeaders = phv.parsedHeaders ∧
      getFieldValue egressPort after = getFieldValue egressPort phv := by
  have begins : 8 * base + 18 = header.hdrOffset + 18 := by omega
  have length : 2 = (8 * base + 18 + 9 - 1) / 8 + 1 - (8 * base + 18) / 8 := by omega
  have empty : 5 = ((8 * base + 18 + 9 - 1) / 8 + 1) * 8 - (8 * base + 18 + 9) := by omega
  obtain ⟨headers, new, isNew, written⟩ := modifyFieldWithData_bytes done found begins rfl length empty
  refine ⟨headers, port_kept found aligned headers written fun first second => ?_⟩
  have small := fits new isNew
  match new, length_newData (by omega) isNew with
  | [high, low], _ =>
      have at_ : (8 * base + 18) / 8 = base + 2 := by omega
      have bit : (8 * base + 18) % 8 = 2 := by omega
      have early : ¬base + 2 ≤ base + 1 := by omega
      have bound := second.toNat_lt
      have lowBound := low.toNat_lt
      simp only [beVal_cons, beVal_nil, List.length_cons, List.length_nil] at small
      simp only [spanned, at_, bit, if_neg early, le_refl, if_true, Nat.sub_self, shlBytes,
        List.getElem?_cons_zero, portBits, toNat_u8,
        show ¬(0 = 2 - 1) from by decide, if_false, and_high second.toNat bound, Nat.shiftLeft_eq,
        Nat.shiftRight_eq_div_pow]
      omega

end Primitive

/-- The parser's drop clears the port. -/
theorem port_drop {phv after : Phv} (done : ParserStage.drop phv = some after)
    {header : HeaderInfo} {base : Nat} (found : phv.parsedHeaders[31]? = some header)
    (aligned : header.hdrOffset = 8 * base) :
    after.parsedHeaders = phv.parsedHeaders ∧
      ∀ port, getFieldValue egressPort after = some port → port = 0 := by
  have start : (header.hdrOffset + 9) / 8 = base + 1 := by omega
  have stop : (header.hdrOffset + 9 + 9 + 7) / 8 = base + 3 := by omega
  have end_ : (header.hdrOffset + 9 + 9) % 8 = 2 := by omega
  have indices : (List.range' (base + 1) (base + 3 - (base + 1))).reverse = [base + 2, base + 1] := by
    have count : base + 3 - (base + 1) = 2 := by omega
    rw [count]
    rfl
  have spread : (List.range 2).reverse.foldlM (spreadStep (getUints 0 9) 2) (List.replicate 2 0, 2) =
      some ([0, 0], 1) := by decide
  simp only [ParserStage.drop, dropPacket, modifyPhvWithData, found, Option.bind_eq_bind,
    Option.bind_some, start, stop, end_, indices] at done
  rw [show (9 / 8 + if 9 % 8 = 0 then 0 else 1) = 2 from rfl,
    show (if 2 = 0 then if 9 / 8 + 9 % 8 = 0 then 0 else 1
    else (9 + (8 - 2)) / 8 + if (9 + (8 - 2)) % 8 = 0 then 0
      else 1) = 2 from rfl, spread, Option.bind_some] at done
  obtain ⟨⟨packet, rest⟩, run, done⟩ := Option.bind_eq_some_iff.mp done
  have same := Option.some.inj done
  have headers : after.parsedHeaders = phv.parsedHeaders := by rw [← same]
  have bytes : after.packet = packet := by rw [← same]
  rw [List.foldlM_cons] at run
  obtain ⟨middle, second, run⟩ := Option.bind_eq_some_iff.mp run
  rw [List.foldlM_cons] at run
  obtain ⟨last, first, run⟩ := Option.bind_eq_some_iff.mp run
  cases run
  obtain ⟨oldSecond, _, second⟩ := Option.bind_eq_some_iff.mp second
  obtain ⟨_, setSecond, second⟩ := Option.bind_eq_some_iff.mp second
  cases second
  obtain ⟨oldFirst, _, first⟩ := Option.bind_eq_some_iff.mp first
  obtain ⟨_, setFirst, first⟩ := Option.bind_eq_some_iff.mp first
  cases first
  -- the first byte keeps its leading bit and the second its six trailing ones
  rw [if_neg (by omega), if_pos (by omega), end_] at setSecond
  rw [if_pos (by omega), if_neg (by omega), show (header.hdrOffset + 9) % 8 = 1 by omega] at setFirst
  obtain ⟨insideSecond, rfl⟩ := setAt_eq_some_iff.mp setSecond
  obtain ⟨insideFirst, rfl⟩ := setAt_eq_some_iff.mp setFirst
  refine ⟨headers, fun port read => ?_⟩
  rw [getFieldValue_egressPort (headers ▸ found) aligned, bytes, List.getElem?_set_self insideFirst,
    List.getElem?_set_ne (by omega), List.getElem?_set_self insideSecond] at read
  simp only [Option.bind_eq_bind, Option.bind_some] at read
  obtain ⟨_, _, read⟩ := Option.bind_eq_some_iff.mp read
  have value := Option.some.inj read
  have one := and_first oldFirst.toNat oldFirst.toNat_lt
  have two := and_second oldSecond.toNat oldSecond.toNat_lt
  have left := Nat.div_le_self oldFirst.toNat 128
  have bound := oldFirst.toNat_lt
  simp only [portBits, toNat_u8, one, show 8 - 2 = 6 from rfl, two, show UInt8.toNat 0 = 0 from rfl] at value
  omega

end Ipbm.Dataplane
