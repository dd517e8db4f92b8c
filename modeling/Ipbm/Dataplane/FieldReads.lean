import Ipbm.Dataplane.GatewayProperties
import Ipbm.Dataplane.MatcherProperties
import Ipbm.Dataplane.Parser

/-! The three readers of packet fields. The matcher's and the gateway's are exact; the
parser's does not mask a field that lies in one byte. -/

set_option autoImplicit false

namespace Ipbm.Dataplane
open Lib

/-- The bit position of a field. -/
def fieldBegin (header : HeaderInfo) (field : FieldInfo) : Nat := header.hdrOffset + field.internalOffset

/-! ### The matcher -/

/-- The bits of a value, followed by zeros up to the end of the last byte. -/
structure LeftAligned (info : KeyInfo) (width value : Nat) : Prop where
  length : info.field.length = bytesFor width
  leading : bitSlice info.field 0 width = value
  rest : bitSlice info.field width (8 * bytesFor width - width) = 0
  tail : info.tailOffset = 8 * bytesFor width - width

theorem keyInfoOf_leftAligned {width value : Nat} (small : value < 2 ^ width) :
    LeftAligned (keyInfoOf width value) width value := by
  have wide := width_add_padding width
  have encoded : beVal (keyInfoOf width value).field = value * 2 ^ padding width := by
    rw [keyInfoOf, beVal_beBytes, Nat.mod_eq_of_lt]
    rw [pow_256, ← wide, Nat.pow_add]
    exact Nat.mul_lt_mul_of_pos_right small (Nat.two_pow_pos _)
  have length := length_keyInfoOf_field width value
  constructor
  case length => exact length
  case leading =>
    rw [bitSlice, encoded, length, show 8 * bytesFor width - (0 + width) = padding width by omega,
      Nat.mul_div_cancel _ (Nat.two_pow_pos _), Nat.mod_eq_of_lt small]
  case rest =>
    rw [bitSlice, encoded, length,
      show 8 * bytesFor width - (width + (8 * bytesFor width - width)) =
        0 by omega, Nat.pow_zero, Nat.div_one,
        show 8 * bytesFor width - width = padding width by omega, Nat.mul_mod_left]
  case tail => rfl

/-- The same field is read from every packet that has the bytes it touches. -/
theorem MatcherThread.getField_exact {field : FieldInfo} {phv : Phv} {header : HeaderInfo}
    (kind : field.fdType ≠ .valid) (found : phv.parsedHeaders[field.hdrId]? = some header)
    (positive : 0 < field.fdLen) (inside : fieldBegin header field + field.fdLen ≤ 8 * phv.packet.length) :
    ∃ info, LeftAligned info field.fdLen (bitSlice phv.packet (fieldBegin header field) field.fdLen) ∧
      ∀ packet : List UInt8, (∀ index, fieldBegin header field / 8 ≤ index →
        index ≤ (fieldBegin header field + field.fdLen - 1) / 8 → packet[index]? = phv.packet[index]?) →
          MatcherThread.getField field { phv with packet } = some info := by
  refine ⟨_, keyInfoOf_leftAligned (bitSlice_lt _ _ _), fun packet same => ?_⟩
  obtain ⟨inside', equal⟩ := bitSlice_congr positive inside same
  rw [← equal]
  exact getField_eq kind found positive inside'

/-- A packet with bits in the fields that are read and beside them. -/
def markedPhv : Phv := { Phv.fresh with packet := [0x05, 0xab, 0xcd, 0xef, 0x91] ++ List.replicate 1595 0 }

/-- The field of the repository's own test, twelve bits from the seventh one on. -/
theorem MatcherThread.getField_exact_twelve : bitSlice markedPhv.packet 6 12 = 0x6af ∧
    ∃ info, LeftAligned info 12 (bitSlice markedPhv.packet 6 12) ∧ ∀ packet : List UInt8,
      (∀ index, 0 ≤ index → index ≤ 2 → packet[index]? = markedPhv.packet[index]?) →
        MatcherThread.getField ⟨0, 6, 12, .field⟩ { markedPhv with packet } = some info :=
  ⟨by decide +kernel, @MatcherThread.getField_exact ⟨0, 6, 12, .field⟩ markedPhv {} (by decide)
    (by decide) (by decide) (by decide +kernel)⟩

/-! ### The gateway -/

/-- The bits of the last byte that belong to a field. -/
def lastBits (header : HeaderInfo) (field : FieldInfo) : Nat :=
  if (fieldBegin header field + field.fdLen) % 8 = 0 then 8 else (fieldBegin header field + field.fdLen) % 8

/-- The bytes a field touches. -/
def touchedBytes (header : HeaderInfo) (field : FieldInfo) (packet : List UInt8) : List UInt8 :=
  (packet.drop (fieldBegin header field / 8)).take
    ((fieldBegin header field + field.fdLen + 7) / 8 - fieldBegin header field / 8)

/-- A byte in front of others is shifted by the offset that these leave. -/
theorem Gateway.getValue_exact {field : FieldInfo} {phv : Phv} {header : HeaderInfo}
    (kind : field.fdType = .field) (found : phv.parsedHeaders[field.hdrId]? = some header)
    (positive : 0 < field.fdLen) (short : field.fdLen ≤ 32)
    (inside : fieldBegin header field + field.fdLen ≤ 8 * phv.packet.length) :
    Gateway.getValue (.field field) phv = some (bitSlice phv.packet (fieldBegin header field) field.fdLen) ∧
      ∀ front byte rest, touchedBytes header field phv.packet = front ++ byte :: rest → rest ≠ [] →
        ∃ low offset, Gateway.lowBytes (lastBits header field) rest = some (low, offset) ∧ offset < 32 := by
  refine ⟨Gateway.getValue_field kind found positive short inside, fun front byte rest split nonempty => ?_⟩
  have length := congrArg List.length split
  rw [touchedBytes, List.length_take, List.length_drop, List.length_append, List.length_cons] at length
  have last : 0 < lastBits header field ∧ lastBits header field ≤ 8 ∧
      (fieldBegin header field + field.fdLen + (8 - lastBits header field)) % 8 = 0 := by
    unfold lastBits
    split <;> omega
  obtain ⟨some_, most, whole⟩ := last
  have low := Gateway.lowBytes_eq nonempty some_ most (by omega)
  exact ⟨_, _, low, by omega⟩

/-- A 32-bit field in five bytes: the first of them is shifted by 29 bits. -/
theorem Gateway.getValue_exact_five : bitSlice markedPhv.packet 5 32 = 0xb579bdf2 ∧
    Gateway.getValue (.field ⟨0, 5, 32, .field⟩) markedPhv = some (bitSlice markedPhv.packet 5 32) :=
  ⟨by decide +kernel,
    (@Gateway.getValue_exact ⟨0, 5, 32, .field⟩ markedPhv {} rfl (by decide) (by decide) (by decide)
    (by decide +kernel)).1⟩

/-! ### The parser -/

namespace ParserStage

theorem fieldInt_eq {bytes : List UInt8} {beginOffset temp width : Nat} (several : 2 ≤ bytes.length)
    (first : beginOffset < 8) (positive : 0 < temp) (last : temp ≤ 8)
    (span : beginOffset + width + (8 - temp) = 8 * bytes.length) (short : width ≤ 32) :
    fieldInt beginOffset temp bytes = some (bitSlice bytes beginOffset width) := by
  cases bytes with
  | nil => cases several
  | cons byte rest =>
      cases rest with
      | nil => simp at several
      | cons next rest => exact Gateway.fieldValue_eq (by simp) first positive last span short

/-- In one byte the bits in front of the field stay. -/
theorem fieldInt_one {byte : UInt8} {beginOffset temp width : Nat} (positive : 0 < temp)
    (span : beginOffset + width = temp) (last : temp ≤ 8) :
    fieldInt beginOffset temp [byte] =
      some (bitSlice [byte] 0 beginOffset * 2 ^ width + bitSlice [byte] beginOffset width) := by
  have split := bitSlice_split [byte] 0 beginOffset width (by simp only [List.length_singleton]; omega)
  have whole : bitSlice [byte] 0 (beginOffset + width) = byte.toNat >>> (8 - temp) := by
    have bound := byte_lt byte
    rw [bitSlice, beVal_cons, List.length_singleton, List.length_nil, Nat.pow_zero, Nat.mul_one, beVal_nil,
      Nat.add_zero, span, Nat.zero_add, Nat.shiftRight_eq_div_pow, Nat.mod_eq_of_lt]
    rw [Nat.div_lt_iff_lt_mul (Nat.two_pow_pos _), ← Nat.pow_add, Nat.add_sub_cancel' last]
    exact bound
  rw [Nat.zero_add, whole] at split
  rw [fieldInt, split]

/-- Where a field lies in one byte, the bits in front of it have to be zero. -/
theorem getFieldInt_iff {field : FieldInfo} {phv : Phv} {header : HeaderInfo} (kind : field.fdType = .field)
    (found : phv.parsedHeaders[field.hdrId]? = some header) (positive : 0 < field.fdLen)
    (short : field.fdLen ≤ 32) (inside : fieldBegin header field + field.fdLen ≤ 8 * phv.packet.length) :
    getFieldInt phv field = some (bitSlice phv.packet (fieldBegin header field) field.fdLen) ↔
      fieldBegin header field / 8 ≠ (fieldBegin header field + field.fdLen - 1) / 8 ∨
        bitSlice phv.packet (8 * (fieldBegin header field / 8)) (fieldBegin header field % 8) = 0 := by
  have unfolded : getFieldInt phv field = (copyOut phv.packet (fieldBegin header field / 8)
      ((fieldBegin header field + field.fdLen - 1) / 8 + 1 - fieldBegin header field / 8)).bind
        (fieldInt (fieldBegin header field % 8) (lastBits header field)) := by
    rw [getFieldInt, if_neg (by simp [kind]), found]
    rfl
  have last : 0 < lastBits header field ∧ lastBits header field ≤ 8 ∧
      (fieldBegin header field + field.fdLen + (8 - lastBits header field)) % 8 = 0 := by
    unfold lastBits
    split <;> omega
  obtain ⟨some_, most, aligned⟩ := last
  generalize lastBits header field = temp at unfolded some_ most aligned
  generalize fieldBegin header field = start at unfolded aligned inside ⊢
  generalize countEq : (start + field.fdLen - 1) / 8 + 1 - start / 8 = count at unfolded
  have room : start / 8 + count ≤ phv.packet.length := by omega
  have window := bitSlice_window phv.packet start field.fdLen count (by omega) room
  have front := bitSlice_window phv.packet (8 * (start / 8)) (start % 8) count (by omega) (by omega)
  rw [Nat.mul_div_cancel_left _ (by decide), Nat.mul_mod_right] at front
  have length : ((phv.packet.drop (start / 8)).take count).length = count := by
    rw [List.length_take, List.length_drop]
    omega
  rw [unfolded, copyOut, if_pos room, Option.bind_some, window, front]
  generalize (phv.packet.drop (start / 8)).take count = bytes at length
  by_cases several : start / 8 = (start + field.fdLen - 1) / 8
  · have span : start % 8 + field.fdLen = temp := by omega
    have one : bytes.length = 1 := by omega
    obtain ⟨byte, rfl⟩ := List.length_eq_one_iff.mp one
    have shift := Nat.two_pow_pos field.fdLen
    rw [fieldInt_one some_ span most, Option.some.injEq]
    simp [several]
  · have exact_ : fieldInt (start % 8) temp bytes = some (bitSlice bytes (start % 8) field.fdLen) :=
      fieldInt_eq (by omega) (Nat.mod_lt start (by decide)) some_ most (by omega) short
    simp [exact_, several]

/-- The second nibble of a byte, as the header length of IPv4, behind a nibble that is zero. -/
theorem getFieldInt_nibble : bitSlice markedPhv.packet 4 4 = 5 ∧
    getFieldInt markedPhv ⟨0, 4, 4, .field⟩ = some (bitSlice markedPhv.packet 4 4) :=
  ⟨by decide +kernel, (@getFieldInt_iff ⟨0, 4, 4, .field⟩ markedPhv {} rfl (by decide) (by decide) (by decide)
    (by decide +kernel)).mpr (.inr (by decide +kernel))⟩

/-- Behind the version of IPv4 it is read as 69 and not as 5. -/
theorem getFieldInt_version :
    getFieldInt { Phv.fresh with packet := 0x45 :: List.replicate 1599 0 } ⟨0, 4, 4, .field⟩ = some 69 ∧
      bitSlice (0x45 :: List.replicate 1599 0) 4 4 = 5 := by
  decide +kernel

end ParserStage

end Ipbm.Dataplane
