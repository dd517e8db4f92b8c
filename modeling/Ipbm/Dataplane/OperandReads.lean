import Ipbm.Dataplane.FieldReads

/-! A packet field as an operand of an action. The copy of its bytes is shifted to the right by
one byte at least, and the bits in front of the field are not masked. -/

set_option autoImplicit false

namespace Ipbm.Dataplane
open Lib

/-- The operand is the number that the bits of the field denote, in as many bytes as it needs. -/
def ReadsOperand (field : FieldInfo) (phv : Phv) (header : HeaderInfo) (actionParas : List Data) : Prop :=
  getOpValAny (.field field) phv actionParas = some
    ⟨field.fdLen, beBytes (bytesFor field.fdLen) (bitSlice phv.packet (fieldBegin header field) field.fdLen)⟩

private theorem beBytes_window_iff {bytes : List UInt8} {start width pad count : Nat}
    (whole : pad + width = 8 * count) (inside : start + 8 * count ≤ 8 * bytes.length) :
    beBytes count (bitSlice bytes start (8 * count)) = beBytes count (bitSlice bytes (start + pad) width) ↔
      bitSlice bytes start pad = 0 := by
  have windowSmall : bitSlice bytes start (8 * count) < 256 ^ count :=
    pow_256 count ▸ bitSlice_lt bytes start (8 * count)
  have fieldSmall : bitSlice bytes (start + pad) width < 256 ^ count := by
    rw [pow_256]
    exact (bitSlice_lt bytes _ width).trans_le (Nat.pow_le_pow_right (by decide) (by omega))
  have split := bitSlice_split bytes start pad width (whole ▸ inside)
  rw [whole] at split
  rw [beBytes_inj windowSmall fieldSmall, split]
  have positive := Nat.two_pow_pos width
  simp only [Nat.add_eq_right, Nat.mul_eq_zero, positive.ne', or_false]

section

variable {field : FieldInfo} {phv : Phv} {header : HeaderInfo}

private theorem glued_byte {bytes : List UInt8} {first shift index : Nat} (small : shift < 8)
    (inside : first + index + 1 < bytes.length) :
    u8 (bytes[first + index + 1].toNat >>> (8 - shift) + bytes[first + index].toNat <<< (8 - (8 - shift))) =
      u8 (bitSlice bytes (8 * first + shift + 8 * index) 8) := by
  have place : 8 * first + shift + 8 * index = 8 * (first + index) + shift := by omega
  rw [place, bitSlice_bytes bytes (first + index) shift inside small, u8_mod, Nat.add_comm,
    Nat.sub_sub_self small.le]

private theorem masked_shift (byte : UInt8) (shift : Nat) :
    (u8 (byte.toNat >>> shift <<< shift)).toNat >>> shift =
    byte.toNat >>> shift := by
  have small : byte.toNat >>> shift <<< shift < 256 := by
    rw [Nat.shiftRight_eq_div_pow, Nat.shiftLeft_eq]
    exact (Nat.div_mul_le_self _ _).trans_lt (byte_lt byte)
  rw [toNat_u8, Nat.mod_eq_of_lt small, Nat.shiftRight_eq_div_pow _ shift, Nat.shiftLeft_eq,
    Nat.shiftRight_eq_div_pow, Nat.mul_div_cancel _ (Nat.two_pow_pos shift)]

private theorem getFieldVal_eq (found : phv.parsedHeaders[field.hdrId]? = some header)
    (room : fieldBegin header field + field.fdLen < 8 * phv.packet.length)
    (steps : (fieldBegin header field + field.fdLen) / 8 - fieldBegin header field / 8 =
      bytesFor field.fdLen) :
    getFieldVal field phv = some ⟨field.fdLen, beBytes (bytesFor field.fdLen)
      (bitSlice phv.packet (fieldBegin header field + field.fdLen - 8 * bytesFor field.fdLen)
        (8 * bytesFor field.fdLen))⟩ := by
  have start : header.hdrOffset + field.internalOffset = fieldBegin header field := rfl
  generalize fieldBegin header field = start' at start room steps ⊢
  generalize countEq : bytesFor field.fdLen = count at steps ⊢
  have inside : start' / 8 + (count + 1) ≤ phv.packet.length := by omega
  have window : 8 * (start' / 8) + (start' + field.fdLen) % 8 = start' + field.fdLen - 8 * count := by omega
  have length : ((phv.packet.drop (start' / 8)).take (count + 1)).length = count + 1 := by
    rw [List.length_take, List.length_drop]
    omega
  generalize copyEq : (phv.packet.drop (start' / 8)).take (count + 1) = copy at length
  have copied : ∀ index < count + 1, copy[index]? = phv.packet[start' / 8 + index]? := by
    intro index low
    rw [← copyEq, List.getElem?_take_of_lt low, List.getElem?_drop]
  have lastLow : start' / 8 + count < phv.packet.length := by omega
  have last : copy[count]? = some phv.packet[start' / 8 + count] := by
    rw [copied count (Nat.lt_succ_self count), List.getElem?_eq_getElem lastLow]
  unfold getFieldVal
  simp only [found, start, steps, countEq, copyOut, if_pos inside, copyEq, last,
    Option.bind_eq_bind, Option.bind_some, Nat.add_sub_cancel, if_true]
  have shift : (start' + field.fdLen) % 8 < 8 := Nat.mod_lt _ (by decide)
  generalize (start' + field.fdLen) % 8 = shift' at shift window ⊢
  refine Option.bind_eq_some_iff.mpr ⟨(List.range count).map fun index =>
    u8 (bitSlice phv.packet (8 * (start' / 8) + shift' + 8 * index) 8),
    mapM_eq_some_map fun index member => ?_, ?_⟩
  · have low := List.mem_range.mp member
    have next : start' / 8 + index + 1 < phv.packet.length := by omega
    have high : (copy.set count
      (u8 (phv.packet[start' / 8 + count].toNat >>> (8 - shift') <<< (8 - shift'))))[index]? =
        some phv.packet[start' / 8 + index] := by
      rw [List.getElem?_set_ne (by omega), copied index (by omega), List.getElem?_eq_getElem]
    obtain ⟨byte, isByte, same⟩ : ∃ byte : UInt8,
        (copy.set count (u8 (phv.packet[start' / 8 + count].toNat >>> (8 - shift') <<<
          (8 - shift'))))[index + 1]? = some byte ∧
          byte.toNat >>> (8 - shift') = phv.packet[start' / 8 + index + 1].toNat >>> (8 - shift') := by
      by_cases isLast : index + 1 = count
      · refine ⟨_, by rw [isLast, List.getElem?_set_self (by omega)], ?_⟩
        simp only [← isLast, ← Nat.add_assoc]
        exact masked_shift _ _
      · refine ⟨phv.packet[start' / 8 + index + 1], ?_, rfl⟩
        rw [List.getElem?_set_ne (by omega), copied (index + 1) (by omega), ← Nat.add_assoc,
          List.getElem?_eq_getElem]
    simp only [isByte, high, Option.bind_some, same]
    exact congrArg some (glued_byte shift next)
  · rw [map_bitSlice_range _ _ _ (by omega), window]
    rfl

private theorem getFieldVal_complete {data : Data} (found : phv.parsedHeaders[field.hdrId]? = some header)
    (read : getFieldVal field phv = some data) :
    (fieldBegin header field + field.fdLen) / 8 - fieldBegin header field / 8 = bytesFor field.fdLen ∧
      (fieldBegin header field + field.fdLen) / 8 < phv.packet.length := by
  have start : header.hdrOffset + field.internalOffset = fieldBegin header field := rfl
  unfold getFieldVal at read
  simp only [found, start, copyOut, Option.bind_eq_bind, Option.bind_some, Nat.add_sub_cancel] at read
  split at read
  · obtain ⟨last, -, written⟩ := Option.bind_eq_some_iff.mp read
    split at written
    · exact ⟨‹_›, by omega⟩
    · exact absurd written (by simp)
  · exact absurd read (by simp)

/-- There are as many steps as bytes unless the field ends in the byte of a whole number of bytes
from its start. -/
private theorem steps_iff (start width : Nat) : (start + width) / 8 - start / 8 = bytesFor width ↔
    width % 8 = 0 ∨ 8 ≤ start % 8 + width % 8 := by
  unfold bytesFor
  omega

/-- An operand of a field is read exactly if the loop writes all its bytes, the byte behind its
last bit is in the packet, and the bits that come along in front of it are zero. -/
theorem readsOperand_iff (actionParas : List Data) (found : phv.parsedHeaders[field.hdrId]? = some header)
    (inside : fieldBegin header field + field.fdLen ≤ 8 * phv.packet.length) :
    ReadsOperand field phv header actionParas ↔
      (field.fdLen % 8 = 0 ∨ 8 ≤ fieldBegin header field % 8 + field.fdLen % 8) ∧
      fieldBegin header field + field.fdLen < 8 * phv.packet.length ∧
      bitSlice phv.packet (fieldBegin header field - padding field.fdLen) (padding field.fdLen) = 0 := by
  have whole := width_add_padding field.fdLen
  rw [← steps_iff]
  constructor
  · intro exact
    obtain ⟨steps, room⟩ := getFieldVal_complete found exact
    have before : padding field.fdLen ≤ fieldBegin header field := by omega
    have read := (getFieldVal_eq found (by omega) steps).symm.trans exact
    have place : fieldBegin header field + field.fdLen - 8 * bytesFor field.fdLen =
      fieldBegin header field - padding field.fdLen := by omega
    have same := @beBytes_window_iff phv.packet (fieldBegin header field - padding field.fdLen) field.fdLen
      (padding field.fdLen) (bytesFor field.fdLen) (by omega) (by omega)
    rw [Nat.sub_add_cancel before, ← place] at same
    rw [← place]
    exact ⟨steps, by omega, same.mp (Data.mk.inj (Option.some.inj read)).2⟩
  · intro ⟨steps, room, zero⟩
    have before : padding field.fdLen ≤ fieldBegin header field := by omega
    have place : fieldBegin header field + field.fdLen - 8 * bytesFor field.fdLen =
      fieldBegin header field - padding field.fdLen := by omega
    have same := @beBytes_window_iff phv.packet (fieldBegin header field - padding field.fdLen) field.fdLen
      (padding field.fdLen) (bytesFor field.fdLen) (by omega) (by omega)
    rw [Nat.sub_add_cancel before] at same
    show getFieldVal field phv = _
    rw [getFieldVal_eq found room steps, place, same.mpr zero]

/-- An Ethernet header and the first four bytes of an IPv4 header. -/
private def ipv4Phv : Phv :=
  ⟨[0, 0, 0, 0, 0, 1, 0, 0, 0, 0, 0, 2, 8, 0, 0x45, 0, 0, 40], [⟨0, 0, 112⟩, ⟨1, 112, 32⟩], [], 0,
    0, 0xffff, 2, none, 0, false, 0, 0, .zero⟩

theorem readsOperand_etherType : ReadsOperand ⟨0, 96, 16, .field⟩ ipv4Phv ⟨0, 0, 112⟩ [] :=
  (readsOperand_iff [] rfl (by decide)).mpr (by decide)

/-- The header length of the IPv4 header is read together with the version in front of it. -/
theorem not_readsOperand_ihl : ¬ ReadsOperand ⟨1, 4, 4, .field⟩ ipv4Phv ⟨1, 112, 32⟩ [] := by
  unfold ReadsOperand
  decide

end

end Ipbm.Dataplane
