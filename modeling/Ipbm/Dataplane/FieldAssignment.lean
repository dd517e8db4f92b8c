import Ipbm.Dataplane.FieldReads
import Ipbm.Dataplane.FieldWrites

/-! Assignments to a field. The value is moved to the field's place but not cut to its
width, so the bits above are added to the ones in front of the field. -/

set_option autoImplicit false

namespace Ipbm.Dataplane
open Lib

/-- A field of a packet gets a value, and every other bit stays. -/
structure WritesField (packet after : List UInt8) (start width value : Nat) : Prop where
  length : after.length = packet.length
  field : bitSlice after start width = value
  front : bitSlice after 0 start = bitSlice packet 0 start
  back : bitSlice after (start + width) (8 * packet.length - (start + width)) =
    bitSlice packet (start + width) (8 * packet.length - (start + width))

namespace Primitive

/-- The value is written to the field, and nothing else happens. -/
def AssignsField (field : FieldInfo) (data : Data) (phv : Phv) (header : HeaderInfo) : Prop :=
  ∃ packet, modifyFieldWithData field data phv = some { phv with packet } ∧
    WritesField phv.packet packet (fieldBegin header field) field.fdLen (beVal data.val % 2 ^ field.fdLen)

/-! ### The bytes of the field -/

private theorem and_keepMask : ∀ left < 8, ∀ right < 8 - left, ∀ byte < 256,
    byte &&& keepMask left right = byte / 2 ^ (8 - left) * 2 ^ (8 - left) + byte % 2 ^ right := by
  decide +kernel

/-- Bytes with others added to what is kept of them. -/
def merged (kept : Nat → Nat) : Nat → List UInt8 → List UInt8 → List UInt8
  | _, [], _ => []
  | _, _ :: _, [] => []
  | index, old :: olds, span ::
    spans => u8 ((old.toNat &&& kept index) + span.toNat) :: merged kept (index + 1) olds spans

theorem length_merged {kept : Nat → Nat} {index : Nat} {olds spans : List UInt8}
    (same : olds.length = spans.length) : (merged kept index olds spans).length = olds.length := by
  induction olds generalizing index spans with
  | nil => cases spans <;> rfl
  | cons old olds ih =>
      cases spans with
      | nil => cases same
      | cons span spans => rw [merged, List.length_cons, List.length_cons, ih (Nat.succ.inj same)]

/-- The loop that writes the bytes. -/
theorem writeSpans_eq {kept : Nat → Nat} {beginByte : Nat}
    {step : List UInt8 → UInt8 × Nat → Option (List UInt8)}
    (isStep : ∀ packet span index, step packet (span, index) = do
      let old ← packet[beginByte + index]?
      setAt packet (beginByte + index) (u8 ((old.toNat &&& kept index) + span.toNat)))
    {spans olds front back : List UInt8} {index : Nat} (same : olds.length = spans.length)
    (place : front.length = beginByte + index) :
    (spans.zipIdx index).foldlM step (front ++ olds ++ back) =
      some (front ++ merged kept index olds spans ++ back) := by
  induction spans generalizing olds front index with
  | nil =>
      obtain rfl : olds = [] := List.length_eq_zero_iff.mp same
      rfl
  | cons span spans ih =>
      cases olds with
      | nil => cases same
      | cons old olds =>
          have written : step (front ++ old :: olds ++ back) (span, index) =
              some (front ++ u8 ((old.toNat &&& kept index) + span.toNat) :: olds ++ back) := by
            rw [isStep, ← place]
            simp [setAt]
          have others := @ih olds (front ++ [u8 ((old.toNat &&& kept index) + span.toNat)]) (index + 1)
            (Nat.succ.inj same) (by simp [place, Nat.add_assoc])
          rw [List.zipIdx_cons, List.foldlM_cons, written, Option.bind_eq_bind, Option.bind_some, merged]
          simpa using others

private theorem mod_add_low {value low right : Nat} (few : right ≤ 8)
    (zeros : value % 2 ^ right = 0) (small : low < 2 ^ right) :
    (value + low) % 256 = value % 256 + low := by
  have whole : 256 = 2 ^ right * 2 ^ (8 - right) := by
    rw [← Nat.pow_add, Nat.add_sub_cancel' few]
  have high : value / 2 ^ right % 2 ^ (8 - right) + 1 ≤ 2 ^ (8 - right) := Nat.mod_lt _ (Nat.two_pow_pos _)
  have scaled := Nat.mul_le_mul_left (2 ^ right) high
  rw [← whole, Nat.mul_succ] at scaled
  have cut : value % 256 = 2 ^ right * (value / 2 ^ right % 2 ^ (8 - right)) := by
    rw [whole, Nat.mod_mul, zeros, Nat.zero_add]
  rw [Nat.add_mod, Nat.mod_eq_of_lt (show low < 256 by omega), Nat.mod_eq_of_lt (by omega)]

private theorem low_tail {right count : Nat} (few : right ≤ 8) (some_ : 0 < count) (high low : Nat) :
    (high * 256 ^ count + low) % 2 ^ right = low % 2 ^ right := by
  obtain ⟨others, rfl⟩ := Nat.exists_eq_add_of_lt some_
  have whole : 256 ^ (0 + others + 1) = 2 ^ right * (2 ^ (8 - right) * 256 ^ others) := by
    rw [← Nat.mul_assoc, ← Nat.pow_add, Nat.add_sub_cancel' few, Nat.zero_add, Nat.pow_succ, Nat.mul_comm]
  rw [whole, Nat.mul_left_comm, Nat.mul_add_mod]

private theorem beVal_merged_tail {kept : Nat → Nat} {right : Nat} (few : right < 8) {index : Nat}
    {olds spans : List UInt8} (same : olds.length = spans.length)
    (mask : ∀ offset < olds.length, kept (index + offset) =
      keepMask 0 (if offset + 1 = olds.length then right else 0))
    (zeros : beVal spans % 2 ^ right = 0) :
    beVal (merged kept index olds spans) = beVal spans + beVal olds % 2 ^ right := by
  induction olds generalizing index spans with
  | nil =>
      obtain rfl : spans = [] := List.length_eq_zero_iff.mp same.symm
      simp [merged]
  | cons old olds ih =>
      cases spans with
      | nil => cases same
      | cons span spans =>
          have others := Nat.succ.inj same
          have own := mask 0 (by simp)
          rw [Nat.add_zero] at own
          have oldBound := byte_lt old
          have spanBound := byte_lt span
          have oldHigh : old.toNat / 2 ^ (8 - 0) = 0 := Nat.div_eq_of_lt oldBound
          rw [merged, beVal_cons, length_merged others, beVal_cons, beVal_cons, toNat_u8, own]
          cases olds with
          | nil =>
              obtain rfl : spans = [] := List.length_eq_zero_iff.mp others.symm
              simp only [beVal_cons, beVal_nil, List.length_nil, Nat.pow_zero, Nat.mul_one,
                Nat.add_zero] at zeros
              rw [if_pos (show 0 + 1 = [old].length from rfl),
                and_keepMask 0 (by decide) right (by omega) _ oldBound, oldHigh]
              simp only [merged, beVal_nil, List.length_nil, Nat.pow_zero, Nat.mul_one,
                Nat.add_zero, Nat.zero_mul, Nat.zero_add]
              rw [Nat.add_comm, mod_add_low few.le zeros (Nat.mod_lt _ (Nat.two_pow_pos _)),
                Nat.mod_eq_of_lt spanBound]
          | cons next olds =>
              have behind : 0 < spans.length := by
                rw [← others]
                exact Nat.succ_pos _
              rw [beVal_cons, low_tail few.le behind] at zeros
              have rest := @ih (index + 1) spans others (fun offset low => by
                have later := mask (offset + 1) (by simpa using low)
                rw [Nat.add_assoc, Nat.add_comm 1, later]
                simp) zeros
              rw [if_neg (by simp), and_keepMask 0 (by decide) 0 (by decide) _ oldBound, oldHigh,
                low_tail few.le (show 0 < (next :: olds).length by simp), rest, others]
              simp only [Nat.zero_mul, Nat.pow_zero, Nat.mod_one, Nat.zero_add, Nat.mod_eq_of_lt spanBound]
              omega

private theorem beVal_merged {kept : Nat → Nat} {left right : Nat} {old : UInt8} {olds spans : List UInt8}
    (same : (old :: olds).length = spans.length) (few : right < 8) (room : left < 8)
    (fits : left + right < 8 * (old :: olds).length) (zeros : beVal spans % 2 ^ right = 0)
    (mask : ∀ offset < (old :: olds).length, kept offset =
      keepMask (if offset = 0 then left else 0) (if offset + 1 = (old :: olds).length then right else 0)) :
    beVal (merged kept 0 (old :: olds) spans) =
      (old.toNat / 2 ^ (8 - left) * 2 ^ (8 * (old :: olds).length - left) + beVal spans) %
        256 ^ (old :: olds).length + beVal (old :: olds) % 2 ^ right := by
  have oldBound := byte_lt old
  have own := mask 0 (by simp)
  rw [if_pos rfl] at own
  cases spans with
  | nil => cases same
  | cons span spans =>
      have others := Nat.succ.inj same
      rw [merged, beVal_cons, length_merged others, toNat_u8, own]
      cases olds with
      | nil =>
          obtain rfl : spans = [] := List.length_eq_zero_iff.mp others.symm
          simp only [beVal_cons, beVal_nil, List.length_cons, List.length_nil, Nat.pow_zero,
            Nat.mul_one, Nat.add_zero, Nat.zero_add] at zeros fits ⊢
          have top : (old.toNat / 2 ^ (8 - left) * 2 ^ (8 - left) + span.toNat) % 2 ^ right = 0 := by
            have scale : 2 ^ (8 - left) = 2 ^ (8 - left - right) * 2 ^ right := by
              rw [← Nat.pow_add, Nat.sub_add_cancel (by omega)]
            rw [scale, ← Nat.mul_assoc, Nat.mul_add_mod_self_right, zeros]
          rw [if_pos trivial, and_keepMask left room right (by omega) _ oldBound, merged, beVal_nil,
            Nat.add_zero, Nat.add_right_comm,
            mod_add_low few.le top (Nat.mod_lt _ (Nat.two_pow_pos _)), Nat.pow_one]
      | cons next olds =>
          have behind : 0 < spans.length := by
            rw [← others]
            exact Nat.succ_pos _
          rw [beVal_cons, low_tail few.le behind] at zeros
          have rest := @beVal_merged_tail kept right few 1 (next :: olds) spans others (fun offset low => by
            have later := mask (offset + 1) (by simpa using low)
            rw [if_neg (by omega)] at later
            rw [Nat.add_comm 1, later]
            simp) zeros
          have small : beVal spans < 256 ^ (next :: olds).length := others ▸ beVal_lt spans
          have scale : 2 ^ (8 * (old :: next :: olds).length - left) = 2 ^ (8 - left) * 256 ^
              (next :: olds).length := by
            rw [pow_256, ← Nat.pow_add]
            congr 1
            simp only [List.length_cons]
            omega
          have total : (old :: next :: olds).length = (next :: olds).length + 1 := rfl
          rw [if_neg (by simp), and_keepMask left room 0 (by omega) _ oldBound, rest,
            beVal_cons span, ← others, scale, beVal_cons old, low_tail few.le
              (show 0 < (next :: olds).length by simp), total, Nat.pow_zero, Nat.mod_one,
            Nat.add_zero]
          generalize old.toNat / 2 ^ (8 - left) = top
          generalize (next :: olds).length = count at small
          have whole : top * (2 ^ (8 - left) * 256 ^ count) + (span.toNat * 256 ^ count + beVal spans) =
              (top * 2 ^ (8 - left) + span.toNat) * 256 ^ count + beVal spans := by ring
          rw [whole, digit_mod _ _ _ small, Nat.add_assoc]

/-! ### The bits of the packet -/

private theorem bitSlice_three {bytes : List UInt8} {left width right high middle low : Nat}
    (span : left + width + right = 8 * bytes.length)
    (value : beVal bytes = (high * 2 ^ width + middle) * 2 ^ right + low)
    (highSmall : high < 2 ^ left) (middleSmall : middle < 2 ^ width) (lowSmall : low < 2 ^ right) :
    bitSlice bytes 0 left = high ∧ bitSlice bytes left width = middle ∧
      bitSlice bytes (left + width) right = low := by
  have behindLeft : 8 * bytes.length - (0 + left) = right + width := by omega
  have behindMiddle : 8 * bytes.length - (left + width) = right := by omega
  have behindRight : 8 * bytes.length - (left + width + right) = 0 := by omega
  have cut : ((high * 2 ^ width + middle) * 2 ^ right + low) / 2 ^ right = high * 2 ^ width + middle := by
    rw [Nat.mul_comm, Nat.mul_add_div (Nat.two_pow_pos _), Nat.div_eq_of_lt lowSmall, Nat.add_zero]
  refine ⟨?_, ?_, ?_⟩
  · rw [bitSlice, behindLeft, value, Nat.pow_add, ← Nat.div_div_eq_div_mul, cut, Nat.mul_comm,
      Nat.mul_add_div (Nat.two_pow_pos _), Nat.div_eq_of_lt middleSmall, Nat.add_zero,
      Nat.mod_eq_of_lt highSmall]
  · rw [bitSlice, behindMiddle, value, cut, Nat.mul_comm, Nat.mul_add_mod, Nat.mod_eq_of_lt middleSmall]
  · rw [bitSlice, behindRight, value, Nat.pow_zero, Nat.div_one, Nat.mul_comm, Nat.mul_add_mod,
      Nat.mod_eq_of_lt lowSmall]

private theorem bitSlice_around {front olds back : List UInt8} {left width right : Nat}
    (span : left + width + right = 8 * olds.length) :
    bitSlice (front ++ olds ++ back) (8 * front.length + left) width = bitSlice olds left width ∧
      bitSlice (front ++ olds ++ back) 0 (8 * front.length + left) =
        bitSlice front 0 (8 * front.length) * 2 ^ left + bitSlice olds 0 left ∧
      bitSlice (front ++ olds ++ back) (8 * front.length + left + width)
          (8 * (front ++ olds ++ back).length - (8 * front.length + left + width)) =
        bitSlice olds (left + width) right * 2 ^ (8 * back.length) + bitSlice back 0 (8 * back.length) := by
  have total : (front ++ olds ++ back).length = front.length + olds.length + back.length := by
    rw [List.length_append, List.length_append]
  have inner (start count : Nat) (inside : start + count ≤ 8 * olds.length) :
      bitSlice (front ++ olds ++ back) (8 * front.length + start) count = bitSlice olds start count := by
    rw [bitSlice_append_left _ _ _ _ (by rw [List.length_append]; omega),
      bitSlice_append_right _ _ _ _ inside]
  refine ⟨inner left width (by omega), ?_, ?_⟩
  · have before := bitSlice_append_left front (olds ++ back) 0 (8 * front.length) (by omega)
    rw [← List.append_assoc] at before
    have at_ := inner 0 left (by omega)
    rw [Nat.add_zero] at at_
    rw [bitSlice_split _ _ _ _ (by omega), before, Nat.zero_add, at_]
  · have rest : 8 * (front ++ olds ++ back).length - (8 * front.length + left + width) = right + 8 *
      back.length := by omega
    have place : 8 * front.length + left + width + right = 8 * (front ++ olds).length + 0 := by
      rw [List.length_append]
      omega
    have behind := bitSlice_append_right (front ++ olds) back 0 (8 * back.length) (by omega)
    rw [rest, bitSlice_split _ _ _ _ (by omega), Nat.add_assoc (8 * front.length) left width,
      inner (left + width) right span.le, ← Nat.add_assoc, place, behind]

private theorem writesField_iff {front olds news back : List UInt8} {left width right value : Nat}
    (same : news.length = olds.length) (span : left + width + right = 8 * olds.length) :
    WritesField (front ++ olds ++ back) (front ++ news ++ back) (8 * front.length + left) width value ↔
      bitSlice news left width = value ∧ bitSlice news 0 left = bitSlice olds 0 left ∧
        bitSlice news (left + width) right = bitSlice olds (left + width) right := by
  have total : (front ++ news ++ back).length = (front ++ olds ++ back).length := by simp [same]
  obtain ⟨_, before, behind⟩ := @bitSlice_around front olds back left width right span
  obtain ⟨inside', before', behind'⟩ := @bitSlice_around front news back left width right (same ▸ span)
  have shift := Nat.two_pow_pos (8 * back.length)
  constructor
  · intro writes
    have field := writes.field
    have leading := writes.front
    have trailing := writes.back
    rw [← total, behind', total, behind] at trailing
    rw [before', before] at leading
    exact ⟨inside'.symm.trans field, Nat.add_left_cancel leading,
      Nat.eq_of_mul_eq_mul_right shift (Nat.add_right_cancel trailing)⟩
  · rintro ⟨field, leading, trailing⟩
    refine ⟨total, inside'.trans field, ?_, ?_⟩
    · rw [before', before, leading]
    · rw [← total, behind', total, behind, trailing]

/-! ### The assignment -/

/-- The bits of the value above the field that reach its first byte. -/
def excess (field : FieldInfo) (data : Data) (header : HeaderInfo) : Nat :=
  beVal data.val / 2 ^ field.fdLen % 2 ^ (fieldBegin header field % 8)

/-- The bytes that a field touches. -/
def spanLength (field : FieldInfo) (header : HeaderInfo) : Nat :=
  (fieldBegin header field + field.fdLen - 1) / 8 + 1 - fieldBegin header field / 8

theorem newData_eq {data : Data} (whole : data.val.length = bytesFor data.dataLen) {byteLen : Nat}
    (some_ : 0 < byteLen) :
    newData data byteLen = if byteLen ≤ bytesFor data.dataLen + 1 then
      some (beBytes byteLen (beVal data.val)) else none := by
  rw [newData, ← whole]
  by_cases short : data.val.length < byteLen
  · rw [if_pos short]
    by_cases near : byteLen ≤ data.val.length + 1
    · obtain rfl : byteLen = data.val.length + 1 := by omega
      have high : beVal data.val / 256 ^ data.val.length = 0 := Nat.div_eq_of_lt (beVal_lt _)
      rw [if_pos near, copyOut, if_pos (by omega), Option.map_some, List.drop_zero, Nat.add_sub_cancel,
        List.take_of_length_le le_rfl]
      conv_lhs => rw [← beBytes_beVal data.val]
      rw [beBytes, high]
      rfl
    · rw [if_neg near, copyOut, if_neg (by omega), Option.map_none]
  · have inside : data.val.length - byteLen + byteLen = data.val.length := by omega
    have length : (data.val.drop (data.val.length - byteLen)).length = byteLen := by
      rw [List.length_drop]
      omega
    have split :=
      beVal_append (data.val.take (data.val.length - byteLen)) (data.val.drop (data.val.length - byteLen))
    rw [List.take_append_drop, length] at split
    have bytes := beBytes_beVal (data.val.drop (data.val.length - byteLen))
    have small := beVal_lt (data.val.drop (data.val.length - byteLen))
    rw [length] at bytes small
    rw [if_neg short, if_pos (by omega), copyOut, if_pos inside.le,
      List.take_of_length_le length.le, ← beBytes_mod, split, Nat.mul_add_mod_self_right,
      Nat.mod_eq_of_lt small, bytes]

/-- The field's place in its bytes. -/
theorem spanLength_eq {field : FieldInfo} (header : HeaderInfo) (positive : 0 < field.fdLen) :
    ∃ right < 8, fieldBegin header field % 8 + field.fdLen + right = 8 * spanLength field header ∧
      ((fieldBegin header field + field.fdLen - 1) / 8 + 1) * 8 -
        (fieldBegin header field + field.fdLen) = right := by
  refine ⟨_, ?_, ?_, rfl⟩
  · omega
  · unfold spanLength
    omega

private theorem merged_mod (top value left width right count : Nat)
    (span : left + width + right = 8 * count) :
    (top * 2 ^ (8 * count - left) + value % 256 ^ count * 2 ^ right % 256 ^ count) % 256 ^ count =
      ((top + value / 2 ^ width) % 2 ^ left * 2 ^ width + value % 2 ^ width) * 2 ^ right := by
  have scale : 2 ^ (8 * count - left) = 2 ^ width * 2 ^ right := by
    rw [← Nat.pow_add]
    congr 1
    omega
  have whole : 256 ^ count = 2 ^ width * 2 ^ left * 2 ^ right := by
    rw [pow_256, ← span, ← Nat.pow_add, ← Nat.pow_add, Nat.add_comm left]
  have shifted : top * 2 ^ width + value = 2 ^ width * top + value := by rw [Nat.mul_comm]
  rw [Nat.mod_mul_mod, Nat.add_mod_mod, scale, ← Nat.mul_assoc, ← Nat.add_mul, whole,
    Nat.mul_mod_mul_right, Nat.mod_mul, shifted, Nat.mul_add_mod, Nat.mul_add_div (Nat.two_pow_pos _)]
  ring

private theorem modifyFieldWithData_eq {field : FieldInfo} {data : Data} {phv : Phv} {header : HeaderInfo}
    (found : phv.parsedHeaders[field.hdrId]? = some header) {new front olds back : List UInt8}
    (isNew : newData data (spanLength field header) = some new)
    (length : new.length = spanLength field header)
    (some_ : 0 < spanLength field header) (split : phv.packet = front ++ olds ++ back)
    (place : front.length = fieldBegin header field / 8)
    (same : olds.length = spanLength field header) {right : Nat}
    (isRight : ((fieldBegin header field + field.fdLen - 1) / 8 + 1) * 8 -
      (fieldBegin header field + field.fdLen) = right) :
    modifyFieldWithData field data phv = some { phv with packet := front ++ merged (fun index =>
      keepMask (if index = 0 then fieldBegin header field % 8 else 0)
        (if index = spanLength field header - 1 then right else 0)) 0 olds (shlBytes right new) ++
          back } := by
  have loop := fun step isStep =>
    @writeSpans_eq (fun index => keepMask (if index = 0 then fieldBegin header field % 8 else 0)
    (if index = spanLength field header - 1 then right else 0)) (fieldBegin header field / 8) step isStep
    (shlBytes right new) olds front back 0 (by rw [same, length_shlBytes, length]) place
  subst isRight
  rw [← split] at loop
  unfold spanLength fieldBegin at isNew some_ loop ⊢
  simp only [modifyFieldWithData, found, Option.bind_eq_bind, Option.bind_some]
  rw [if_neg some_.ne', isNew, Option.bind_some, loop _ fun _ _ _ => rfl]
  rfl

private theorem merged_bits {olds : List UInt8} {value left width right : Nat}
    (span : left + width + right = 8 * olds.length)
    (positive : 0 < width) (room : left < 8) (few : right < 8) {news : List UInt8}
    (isNews : news = merged (fun index => keepMask (if index = 0 then left else 0)
      (if index = olds.length - 1 then right else 0)) 0 olds (shlBytes right (beBytes olds.length value))) :
    bitSlice news 0 left = (bitSlice olds 0 left + value / 2 ^ width) % 2 ^ left ∧
      bitSlice news left width = value % 2 ^ width ∧
        bitSlice news (left + width) right = bitSlice olds (left + width) right := by
  have length : news.length = olds.length := by
    rw [isNews, length_merged (by simp)]
  have spans : beVal (shlBytes right (beBytes olds.length value)) =
      value % 256 ^ olds.length * 2 ^ right % 256 ^ olds.length := by
    rw [beVal_shlBytes right _ few.le, beVal_beBytes, length_beBytes]
  have some_ : 0 < olds.length := by omega
  have zeros : beVal (shlBytes right (beBytes olds.length value)) % 2 ^ right = 0 := by
    have divides : 2 ^ right ∣ 256 ^ olds.length := by
      rw [pow_256]
      exact Nat.pow_dvd_pow 2 (by omega)
    rw [spans, Nat.mod_mod_of_dvd _ divides, Nat.mul_mod_left]
  have low : beVal olds % 2 ^ right = bitSlice olds (left + width) right := by
    rw [bitSlice, span, Nat.sub_self, Nat.pow_zero, Nat.div_one]
  have value_ : beVal news = ((bitSlice olds 0 left + value / 2 ^ width) % 2 ^ left * 2 ^ width +
    value % 2 ^ width) * 2 ^ right +
      bitSlice olds (left + width) right := by
    cases olds with
    | nil => cases some_
    | cons old others =>
        have top : bitSlice (old :: others) 0 left = old.toNat / 2 ^ (8 - left) := by
          have byte := bitSlice_byte (old :: others) 0 0 left some_ (by omega)
          rw [Nat.mul_zero, Nat.zero_add, List.getElem_cons_zero, Nat.zero_add] at byte
          rw [byte, Nat.mod_eq_of_lt]
          rw [Nat.div_lt_iff_lt_mul (Nat.two_pow_pos _), ← Nat.pow_add, Nat.add_sub_cancel' room.le]
          exact byte_lt old
        rw [isNews, beVal_merged (by simp) few room (by omega) zeros (fun offset inside => by
          have last : offset = (old :: others).length - 1 ↔ offset + 1 = (old :: others).length := by omega
          simp only [last]), spans, merged_mod _ _ _ _ _ _ span, low, top]
  obtain ⟨high, middle, behind⟩ := bitSlice_three (length ▸ span) value_ (Nat.mod_lt _ (Nat.two_pow_pos _))
    (Nat.mod_lt _ (Nat.two_pow_pos _)) (bitSlice_lt _ _ _)
  exact ⟨high, middle, behind⟩

/-- The value needs as many bytes as the field touches, one less at most, and no bit above the
field may reach its first byte. -/
theorem assignsField_iff {field : FieldInfo} {data : Data} {phv : Phv} {header : HeaderInfo}
    (found : phv.parsedHeaders[field.hdrId]? = some header) (positive : 0 < field.fdLen)
    (inside : fieldBegin header field + field.fdLen ≤ 8 * phv.packet.length)
    (whole : data.val.length = bytesFor data.dataLen) :
    AssignsField field data phv header ↔
      spanLength field header ≤ bytesFor data.dataLen + 1 ∧ excess field data header = 0 := by
  obtain ⟨right, few, span, isRight⟩ := spanLength_eq header positive
  have some_ : 0 < spanLength field header := by omega
  have new := newData_eq whole some_
  by_cases enough : spanLength field header ≤ bytesFor data.dataLen + 1
  · rw [if_pos enough] at new
    have room : fieldBegin header field / 8 + spanLength field header ≤ phv.packet.length := by
      unfold spanLength
      omega
    obtain ⟨front, olds, back, split, place, same⟩ : ∃ front olds back, phv.packet = front ++ olds ++ back ∧
        front.length = fieldBegin header field / 8 ∧ olds.length = spanLength field header := by
      refine ⟨phv.packet.take (fieldBegin header field / 8),
        (phv.packet.drop (fieldBegin header field / 8)).take
        (spanLength field header), (phv.packet.drop (fieldBegin header field / 8)).drop
          (spanLength field header), ?_, ?_, ?_⟩
      · rw [List.append_assoc, List.take_append_drop, List.take_append_drop]
      · rw [List.length_take]
        omega
      · rw [List.length_take, List.length_drop]
        omega
    have written := modifyFieldWithData_eq found new (length_beBytes _ _) some_ split place same isRight
    rw [← same] at span written
    generalize isNews : merged _ 0 olds (shlBytes right (beBytes olds.length (beVal data.val))) =
      news at written
    obtain ⟨high, middle, low⟩ := merged_bits span positive (Nat.mod_lt _ (by decide)) few isNews.symm
    have length : news.length = olds.length := by
      rw [← isNews, length_merged (by simp)]
    have begins : fieldBegin header field = 8 * front.length + fieldBegin header field % 8 := by omega
    have writes : WritesField phv.packet (front ++ news ++ back) (fieldBegin header field) field.fdLen
        (beVal data.val % 2 ^ field.fdLen) ↔ excess field data header = 0 := by
      rw [split, begins, writesField_iff length span, high, middle, low, excess,
        ← add_mod_self_iff (bitSlice_lt olds 0 (fieldBegin header field % 8))]
      simp
    constructor
    · rintro ⟨packet, done, own⟩
      have same := congrArg Phv.packet (Option.some.inj (done.symm.trans written))
      simp only at same
      exact ⟨enough, writes.mp (same ▸ own)⟩
    · rintro ⟨_, none⟩
      exact ⟨_, written, writes.mpr none⟩
  · rw [if_neg enough] at new
    constructor
    · rintro ⟨packet, done, _⟩
      obtain ⟨_, isNew, _⟩ := (modifyFieldWithData_bytes done found rfl rfl rfl rfl).2
      cases new.symm.trans isNew
    · rintro ⟨short, _⟩
      exact absurd short enough

theorem assignsField_nibble : AssignsField ⟨0, 4, 4, .field⟩ ⟨8, [5]⟩ Phv.fresh {} :=
  (@assignsField_iff ⟨0, 4, 4, .field⟩ ⟨8, [5]⟩ Phv.fresh {} rfl (by decide)
    (by decide +kernel) rfl).mpr (by decide)

/-- The upper half of the value goes to the four bits in front of the field. A value of one byte
for a field of six is copied from behind its end. -/
theorem not_assignsField_wide : ¬AssignsField ⟨0, 4, 4, .field⟩ ⟨8, [0x45]⟩ Phv.fresh {} ∧
    ¬AssignsField ⟨0, 0, 48, .field⟩ ⟨8, [1]⟩ Phv.fresh {} := by
  constructor
  · rintro ⟨packet, done, writes⟩
    have changed : (modifyFieldWithData ⟨0, 4, 4, .field⟩ ⟨8, [0x45]⟩ Phv.fresh).map
      (fun phv => bitSlice phv.packet 0 4) =
        some 4 := by decide +kernel
    have kept : bitSlice Phv.fresh.packet 0 4 = 0 := by decide +kernel
    rw [done] at changed
    exact absurd (kept.symm.trans (writes.front.symm.trans (Option.some.inj changed))) (by decide)
  · rintro ⟨packet, done, _⟩
    have nothing : modifyFieldWithData ⟨0, 0, 48, .field⟩ ⟨8, [1]⟩ Phv.fresh = none := by decide
    cases nothing.symm.trans done

end Primitive

end Ipbm.Dataplane
