import Ipbm.Dataplane.KeyPacker
import Ipbm.Lib.Traversal
import Mathlib.Tactic.IntervalCases

/-! Where the two copies of the packer agree and where they part. Both write one
field unchanged. Behind a field that ends inside a byte the controller's copy
starts the next field a byte later than the matcher's. -/

set_option autoImplicit false

namespace Ipbm.Dataplane
open Lib

/-- The unused low bits of a left-aligned value. -/
def padding (width : Nat) : Nat := 8 * bytesFor width - width

/-- A value of `width` bits, left-aligned in as few bytes as hold it. -/
def keyInfoOf (width value : Nat) : KeyInfo :=
  ⟨padding width, beBytes (bytesFor width) (value * 2 ^ padding width)⟩

theorem padding_lt (width : Nat) : padding width < 8 := by
  unfold padding bytesFor
  omega

theorem width_add_padding (width : Nat) : width + padding width = 8 * bytesFor width := by
  unfold padding bytesFor
  omega

theorem pow_bytesFor (width : Nat) : 256 ^ bytesFor width = 2 ^ width * 2 ^ padding width := by
  rw [pow_256, ← width_add_padding, Nat.pow_add]

theorem leftAligned_lt {width value : Nat} (small : value < 2 ^ width) :
    value * 2 ^ padding width < 256 ^ bytesFor width := by
  rw [pow_bytesFor]
  exact Nat.mul_lt_mul_of_pos_right small (Nat.two_pow_pos _)

theorem bytesFor_pos {width : Nat} (positive : 0 < width) : 0 < bytesFor width := by
  unfold bytesFor
  omega

@[simp] theorem length_keyInfoOf_field (width value : Nat) :
    (keyInfoOf width value).field.length = bytesFor width := by
  simp [keyInfoOf]

/-- A field whose first bit is its only one. -/
theorem keyInfoOf_top {width : Nat} (positive : 0 < width) :
    (keyInfoOf width (2 ^ (width - 1))).field = 128 :: List.replicate (bytesFor width - 1) 0 := by
  have bytes := bytesFor_pos positive
  have own := width_add_padding width
  have value : beVal (128 :: List.replicate (bytesFor width - 1) 0) = 2 ^
      (width - 1) * 2 ^ padding width := by
    rw [beVal_cons, beVal_replicate_zero, List.length_replicate, Nat.add_zero, ← Nat.pow_add, pow_256,
      show (128 : UInt8).toNat = 2 ^ 7 from rfl, ← Nat.pow_add]
    congr 1
    omega
  have back := beBytes_beVal (128 :: List.replicate (bytesFor width - 1) 0)
  rw [value, List.length_cons, List.length_replicate, Nat.sub_add_cancel bytes] at back
  exact back

private theorem addAt_spec {pre post : List UInt8} {byte : UInt8} (value : Nat) :
    addAt (pre ++ byte :: post) pre.length value = some (pre ++ u8 (byte.toNat + value) :: post) := by
  simp [addAt, setAt]

private theorem setAt_next {pre post : List UInt8} {byte next : UInt8} (item : UInt8) :
    setAt (pre ++ byte :: next :: post) (pre.length + 1) item = some (pre ++ byte :: item :: post) := by
  simp [setAt]

private theorem shrBytes_concat (shift : Nat) (carry : UInt8) (front : List UInt8) (last : UInt8) :
    shrBytes shift carry (front ++ [last]) = shrBytes shift carry front ++
      [u8 ((front.getLastD carry).toNat <<< (8 - shift) + last.toNat >>> shift)] := by
  induction front generalizing carry with
  | nil => rfl
  | cons byte front ih =>
      rw [List.cons_append, shrBytes, shrBytes, ih, List.getLastD_cons, List.cons_append]

private theorem packByte_spec (pre : List UInt8) (carry byte : UInt8) (room bitLeft : Nat)
    (small : bitLeft ≤ 8) :
    packByte ⟨pre ++ u8 (carry.toNat <<< bitLeft) :: List.replicate (room + 1) 0, pre.length, bitLeft⟩ byte =
      some ⟨pre ++ [u8 (carry.toNat <<< bitLeft + byte.toNat >>> (8 - bitLeft))] ++
        u8 (byte.toNat <<< bitLeft) :: List.replicate room 0, pre.length + 1, bitLeft⟩ := by
  by_cases midByte : bitLeft < 8
  · simp [packByte, addAt_spec, midByte, List.replicate_succ, setAt_next]
  · obtain rfl : bitLeft = 8 := by omega
    have gone : u8 (byte.toNat <<< 8) = 0 := by
      apply UInt8.toNat_inj.mp
      simp [Nat.shiftLeft_eq]
    simp [packByte, addAt_spec, List.replicate_succ, gone]

/-- Over untouched bytes all bytes but the last appear shifted right by the bits already used,
behind the bits carried from the byte before them. -/
private theorem packBytes_concat (advance tailOffset : Nat) (pre front : List UInt8) (last carry : UInt8)
    (room bitLeft : Nat) (fits : front.length ≤ room) (small : bitLeft ≤ 8) :
    packBytes advance tailOffset
        ⟨pre ++ u8 (carry.toNat <<< bitLeft) :: List.replicate room 0, pre.length,
          bitLeft⟩ (front ++ [last]) =
      packLastByte advance tailOffset
        ⟨pre ++ shrBytes (8 - bitLeft) carry front ++
          u8 ((front.getLastD carry).toNat <<< bitLeft) :: List.replicate (room - front.length) 0,
          (pre ++ shrBytes (8 - bitLeft) carry front).length, bitLeft⟩ last := by
  induction front generalizing pre carry room with
  | nil => simp [packBytes, shrBytes]
  | cons byte front ih =>
      obtain ⟨room, rfl⟩ : ∃ less, room = less + 1 := ⟨room - 1, by simp at fits; omega⟩
      have step := packByte_spec pre carry byte room bitLeft small
      have tail := ih (pre ++ [u8 (carry.toNat <<< bitLeft + byte.toNat >>> (8 - bitLeft))]) byte room
        (by simpa using fits)
      have shape : byte :: front ++ [last] = byte :: (front ++ [last]) := rfl
      obtain ⟨next, rest, more⟩ : ∃ next rest, front ++ [last] = next :: rest := by
        cases front with
        | nil => exact ⟨last, [], rfl⟩
        | cons next rest => exact ⟨next, rest ++ [last], rfl⟩
      rw [shape, more, packBytes, step, Option.bind_eq_bind, Option.bind_some, ← more]
      rw [List.length_append, List.length_singleton] at tail
      rw [tail]
      simp [shrBytes, Nat.sub_sub_self small, List.getLast?_cons]

/-- A field written over untouched bytes appears shifted right by the bits already used,
behind the bits carried from the byte before it. -/
theorem packBytes_spec (advance tailOffset : Nat) (pre bytes : List UInt8) (carry : UInt8)
    (room bitLeft : Nat) (nonempty : bytes ≠ []) (fits : bytes.length ≤ room + 1)
    (small : bitLeft ≤ 8) (noSpill : tailOffset ≤ bitLeft) :
    packBytes advance tailOffset
        ⟨pre ++ u8 (carry.toNat <<< bitLeft) :: List.replicate room 0, pre.length, bitLeft⟩ bytes =
      some ⟨pre ++ shrBytes (8 - bitLeft) carry bytes ++ List.replicate (room + 1 - bytes.length) 0,
        pre.length + bytes.length - 1 + (if tailOffset < bitLeft then advance else 1),
        if tailOffset < bitLeft then bitLeft - tailOffset else 8⟩ := by
  obtain ⟨front, last, rfl⟩ : ∃ front last, bytes = front ++ [last] :=
    ⟨bytes.dropLast, bytes.getLast nonempty, (List.dropLast_concat_getLast nonempty).symm⟩
  have unshift : 8 - (8 - bitLeft) = bitLeft := Nat.sub_sub_self small
  rw [List.length_append, List.length_singleton] at fits ⊢
  rw [packBytes_concat _ _ _ _ _ _ _ _ (Nat.le_of_succ_le_succ fits) small, shrBytes_concat, unshift,
    Nat.add_sub_add_right, ← Nat.add_assoc, Nat.add_sub_cancel, packLastByte, addAt_spec,
    Option.bind_eq_bind, Option.bind_some]
  by_cases inside : tailOffset < bitLeft
  · simp [inside]
  · obtain rfl : bitLeft = tailOffset := by omega
    simp

/-- With more unused bits than the byte has left, the last byte is written into the next one too. -/
theorem packBytes_spec_spill (advance tailOffset : Nat) (pre bytes : List UInt8) (carry : UInt8)
    (room bitLeft : Nat) (nonempty : bytes ≠ []) (fits : bytes.length ≤ room)
    (small : bitLeft ≤ 8) (spill : bitLeft < tailOffset) :
    packBytes advance tailOffset
        ⟨pre ++ u8 (carry.toNat <<< bitLeft) :: List.replicate room 0, pre.length, bitLeft⟩ bytes =
      some ⟨pre ++ shrBytes (8 - bitLeft) carry (bytes ++ [0]) ++ List.replicate (room - bytes.length) 0,
        pre.length + bytes.length, 8 - tailOffset + bitLeft⟩ := by
  obtain ⟨front, last, rfl⟩ : ∃ front last, bytes = front ++ [last] :=
    ⟨bytes.dropLast, bytes.getLast nonempty, (List.dropLast_concat_getLast nonempty).symm⟩
  have unshift : 8 - (8 - bitLeft) = bitLeft := Nat.sub_sub_self small
  rw [List.length_append, List.length_singleton] at fits ⊢
  rw [packBytes_concat _ _ _ _ _ _ _ _ (Nat.le_of_succ_le fits) small, shrBytes_concat,
    shrBytes_concat, unshift]
  obtain ⟨less, rest⟩ : ∃ less, room - front.length = less + 1 := ⟨room - front.length - 1, by omega⟩
  have gone : room - (front.length + 1) = less := by omega
  have before : ¬ tailOffset < bitLeft := by omega
  have apart : bitLeft ≠ tailOffset := by omega
  rw [rest, gone, packLastByte, addAt_spec, Option.bind_eq_bind, Option.bind_some]
  simp only [before, apart, if_false, List.replicate_succ, setAt_next, Option.bind_some]
  simp [Nat.add_assoc]

theorem addAt_some {key result : List UInt8} {index value : Nat}
    (added : addAt key index value = some result) :
    ∃ old, key[index]? = some old ∧ index < key.length ∧ result = key.set index (u8 (old.toNat + value)) := by
  obtain ⟨old, here, written⟩ := Option.bind_eq_some_iff.mp added
  exact ⟨old, here, setAt_eq_some_iff.mp written⟩

private theorem length_addAt {key result : List UInt8} {index value : Nat}
    (added : addAt key index value = some result) : result.length = key.length := by
  obtain ⟨_, _, _, rfl⟩ := addAt_some added
  exact List.length_set

private theorem length_setAt {items result : List UInt8} {index : Nat} {item : UInt8}
    (written : setAt items index item = some result) : result.length = items.length := by
  obtain ⟨_, rfl⟩ := setAt_eq_some_iff.mp written
  exact List.length_set

theorem packByte_some {state result : PackState} {byte : UInt8}
    (packed : packByte state byte = some result) :
    result.curIdx = state.curIdx + 1 ∧ result.curBitLeft = state.curBitLeft ∧
      result.matchKey.length = state.matchKey.length := by
  obtain ⟨key, added, packed⟩ := Option.bind_eq_some_iff.mp packed
  have same := length_addAt added
  split at packed
  · obtain ⟨spilled, written, packed⟩ := Option.bind_eq_some_iff.mp packed
    cases packed
    exact ⟨rfl, rfl, (length_setAt written).trans same⟩
  · cases packed
    exact ⟨rfl, rfl, same⟩

private theorem packLastByte_some {advance tailOffset : Nat} {state result : PackState} {byte : UInt8}
    (packed : packLastByte advance tailOffset state byte = some result) :
    state.curIdx < state.matchKey.length ∧ (advance = 1 → result.curIdx = state.curIdx + 1) ∧
      result.matchKey.length = state.matchKey.length := by
  obtain ⟨key, added, packed⟩ := Option.bind_eq_some_iff.mp packed
  have same := length_addAt added
  obtain ⟨_, _, inside, _⟩ := addAt_some added
  split at packed
  · cases packed
    exact ⟨inside, fun moves => moves ▸ rfl, same⟩
  · split at packed
    · cases packed
      exact ⟨inside, fun _ => rfl, same⟩
    · obtain ⟨spilled, written, packed⟩ := Option.bind_eq_some_iff.mp packed
      cases packed
      exact ⟨inside, fun _ => rfl, (length_setAt written).trans same⟩

/-- The controller's copy moves a whole byte per byte of every field, so a run
that stays inside the buffer has room for all of them. -/
theorem packBytes_some {advance tailOffset : Nat} {state result : PackState} {bytes : List UInt8}
    (nonempty : bytes ≠ []) (packed : packBytes advance tailOffset state bytes = some result) :
    state.curIdx + bytes.length ≤ state.matchKey.length ∧
      (advance = 1 → result.curIdx = state.curIdx + bytes.length) ∧
      result.matchKey.length = state.matchKey.length := by
  induction bytes generalizing state with
  | nil => exact absurd rfl nonempty
  | cons byte rest ih =>
      cases rest with
      | nil => exact packLastByte_some packed
      | cons next rest =>
          obtain ⟨middle, first, packed⟩ := Option.bind_eq_some_iff.mp packed
          obtain ⟨index, _, same⟩ := packByte_some first
          obtain ⟨inside, finalIndex, finalSame⟩ := ih (by simp) packed
          simp only [List.length_cons] at inside finalIndex ⊢
          rw [index, same] at inside
          refine ⟨by omega, fun moves => ?_, finalSame.trans same⟩
          have last := finalIndex moves
          omega

/-- A field written over a zeroed key. -/
theorem packField_zeros (advance size index bitLeft : Nat) (info : KeyInfo)
    (nonempty : info.field ≠ []) (room : index + info.field.length ≤ size)
    (small : bitLeft ≤ 8) (noSpill : info.tailOffset < bitLeft) :
    packField advance ⟨List.replicate size 0, index, bitLeft⟩ info =
      some ⟨List.replicate index 0 ++ shrBytes (8 - bitLeft) 0 info.field ++
          List.replicate (size - index - info.field.length) 0,
        index + info.field.length - 1 + advance, bitLeft - info.tailOffset⟩ := by
  have positive : 0 < info.field.length := List.length_pos_iff.mpr nonempty
  have spec := packBytes_spec advance info.tailOffset (List.replicate index 0) info.field 0
    (size - index - 1) bitLeft nonempty (by omega) small noSpill.le
  rw [if_pos noSpill, if_pos noSpill] at spec
  have zeros : List.replicate index 0 ++ u8 ((0 : UInt8).toNat <<< bitLeft) ::
      List.replicate (size - index - 1) 0 = List.replicate size 0 := by
    have start : u8 ((0 : UInt8).toNat <<< bitLeft) = 0 := by simp [u8]
    rw [start, ← List.replicate_succ, List.replicate_append_replicate]
    congr 1
    omega
  rw [zeros, List.length_replicate] at spec
  rw [packField, spec, show size - index - 1 + 1 = size - index by omega]

private theorem shrBytes_zeros (shift count : Nat) :
    shrBytes shift 0 (List.replicate count 0) = List.replicate count 0 := by
  induction count with
  | zero => rfl
  | succ count ih => simp [List.replicate_succ, shrBytes, ih, u8]

/-- Zero fields move the write position and leave the key zero. -/
theorem packFields_zero {advance : Nat} (stays : advance ≤ 1) (widths : List Nat)
    (size index bitLeft : Nat) (positive : ∀ width ∈ widths, 0 < width)
    (room : index + (widths.map bytesFor).sum ≤ size)
    (noSpill : (widths.map padding).sum < bitLeft) (small : bitLeft ≤ 8) :
    (widths.map (keyInfoOf · 0)).foldlM (packField advance) ⟨List.replicate size 0, index, bitLeft⟩ =
      some ⟨List.replicate size 0, index + (widths.map fun width => bytesFor width - 1 + advance).sum,
        bitLeft - (widths.map padding).sum⟩ := by
  induction widths generalizing index bitLeft with
  | nil => rfl
  | cons width widths ih =>
      have width_pos : 0 < bytesFor width := bytesFor_pos (positive width List.mem_cons_self)
      simp only [List.map_cons, List.sum_cons] at room noSpill
      have first := packField_zeros advance size index bitLeft (keyInfoOf width 0)
        (List.length_pos_iff.mp (by simpa using width_pos)) (by rw [length_keyInfoOf_field]; omega) small
        (by simp only [keyInfoOf]; omega)
      have zeroField : (keyInfoOf width 0).field = List.replicate (bytesFor width) 0 := by
        rw [keyInfoOf, Nat.zero_mul, beBytes_zero]
      rw [zeroField, shrBytes_zeros, List.length_replicate, List.replicate_append_replicate,
        List.replicate_append_replicate, show index + bytesFor width +
          (size - index - bytesFor width) = size by omega]
        at first
      have later := ih (index + bytesFor width - 1 + advance) (bitLeft - padding width)
        (fun other member => positive other (List.mem_cons_of_mem _ member)) (by omega) (by omega) (by omega)
      rw [List.map_cons, List.foldlM_cons, first]
      simp only [Option.bind_eq_bind, Option.bind_some, List.map_cons, List.sum_cons]
      rw [Nat.sub_sub, show index + bytesFor width - 1 + advance +
          (widths.map fun width => bytesFor width - 1 + advance).sum =
        index + (bytesFor width - 1 + advance + (widths.map fun width => bytesFor width - 1 + advance).sum)
        by omega] at later
      exact later

private theorem sum_add_padding (widths : List Nat) :
    widths.sum + (widths.map padding).sum = 8 * (widths.map bytesFor).sum := by
  induction widths with
  | nil => rfl
  | cons width widths ih =>
      have here := width_add_padding width
      simp only [List.map_cons, List.sum_cons]
      omega

private theorem sum_index {advance : Nat} (stays : advance ≤ 1) (widths : List Nat)
    (positive : ∀ width ∈ widths, 0 < width) :
    (widths.map fun width => bytesFor width - 1 + advance).sum + widths.length * (1 - advance) =
      (widths.map bytesFor).sum := by
  induction widths with
  | nil => simp
  | cons width widths ih =>
      have here := bytesFor_pos (positive width List.mem_cons_self)
      have later := ih fun other member => positive other (List.mem_cons_of_mem _ member)
      simp only [List.map_cons, List.sum_cons, List.length_cons, Nat.succ_mul]
      omega

/-- The key of zero fields and one last field, while all padding fits one byte. -/
theorem combineToSingleKeyWith_last {advance : Nat} (stays : advance ≤ 1) (widths : List Nat)
    (width value : Nat) (positive : ∀ other ∈ width :: widths, 0 < other)
    (short : widths.sum + width < 2 ^ 16)
    (noSpill : (widths.map padding).sum + padding width < 8) :
    combineToSingleKeyWith advance (widths.map (keyInfoOf · 0) ++ [keyInfoOf width value])
        (widths.sum + width) =
      some (List.replicate (widths.map fun width => bytesFor width - 1 + advance).sum 0 ++
        shrBytes (widths.map padding).sum 0 (keyInfoOf width value).field ++
        List.replicate (widths.length * (1 - advance)) 0) := by
  have total := sum_add_padding widths
  have own := width_add_padding width
  have index := sum_index stays widths fun other member => positive other (List.mem_cons_of_mem _ member)
  have size : bytesFor ((widths.sum + width) % 2 ^ 16) = (widths.map bytesFor).sum + bytesFor width := by
    rw [Nat.mod_eq_of_lt short, bytesFor]
    omega
  have zeros := packFields_zero stays widths ((widths.map bytesFor).sum + bytesFor width) 0 8
    (fun other member => positive other (List.mem_cons_of_mem _ member)) (by omega) (by omega) (by omega)
  have last := packField_zeros advance ((widths.map bytesFor).sum + bytesFor width)
    (widths.map fun width => bytesFor width - 1 + advance).sum (8 - (widths.map padding).sum)
    (keyInfoOf width value)
    (List.length_pos_iff.mp (by simpa using bytesFor_pos (positive width List.mem_cons_self)))
    (by rw [length_keyInfoOf_field]; omega) (by omega) (by simp only [keyInfoOf]; omega)
  rw [Nat.zero_add] at zeros
  rw [combineToSingleKeyWith, size, List.foldlM_append, zeros]
  simp only [Option.bind_eq_bind, Option.bind_some, List.foldlM_cons, List.foldlM_nil, last]
  rw [length_keyInfoOf_field, show 8 - (8 - (widths.map padding).sum) = (widths.map padding).sum by omega,
    show (widths.map bytesFor).sum + bytesFor width -
      (widths.map fun width => bytesFor width - 1 + advance).sum - bytesFor width =
      widths.length * (1 - advance) by omega]
  rfl

private theorem shrBytes_none (carry : UInt8) (bytes : List UInt8) : shrBytes 0 carry bytes = bytes := by
  induction bytes generalizing carry with
  | nil => rfl
  | cons byte rest ih =>
      have low : u8 (carry.toNat <<< 8 + byte.toNat) = byte := by
        apply UInt8.toNat_inj.mp
        rw [toNat_u8, Nat.shiftLeft_eq, Nat.mul_comm, Nat.mul_add_mod, Nat.mod_eq_of_lt (byte_lt byte)]
      simp [shrBytes, ih, low]

/-- Both copies leave a single field as it is. -/
theorem combineToSingleKeyWith_one {advance : Nat} (stays : advance ≤ 1) (width value : Nat)
    (positive : 0 < width) (short : width < 2 ^ 16) :
    combineToSingleKeyWith advance [keyInfoOf width value] width = some (keyInfoOf width value).field := by
  have single := combineToSingleKeyWith_last stays [] width value (by simpa using positive)
    (by simpa using short) (by simpa using padding_lt width)
  simpa [shrBytes_none] using single

private theorem packFields_room {infos : List KeyInfo} {state result : PackState}
    (nonempty : ∀ info ∈ infos, info.field ≠ [])
    (packed : infos.foldlM (packField 1) state = some result)
    (inside : state.curIdx ≤ state.matchKey.length) :
    state.curIdx + (infos.map fun info => info.field.length).sum ≤ state.matchKey.length := by
  induction infos generalizing state with
  | nil => exact inside
  | cons info infos ih =>
      rw [List.foldlM_cons] at packed
      obtain ⟨middle, first, packed⟩ := Option.bind_eq_some_iff.mp packed
      obtain ⟨room, index, same⟩ := packBytes_some (nonempty info List.mem_cons_self) first
      have moved := index rfl
      have later := ih (fun other member => nonempty other (List.mem_cons_of_mem _ member)) packed
        (by omega)
      simp only [List.map_cons, List.sum_cons]
      omega

/-- The controller's copy stays in its buffer only if the buffer has a whole byte for every
byte of every field. -/
theorem combineToSingleKeyWith_room {infos : List KeyInfo} {fdLenSum : Nat} {key : List UInt8}
    (nonempty : ∀ info ∈ infos, info.field ≠ [])
    (combined : combineToSingleKeyWith 1 infos fdLenSum = some key) :
    (infos.map fun info => info.field.length).sum ≤ bytesFor (fdLenSum % 2 ^ 16) := by
  obtain ⟨state, packed, _⟩ := Option.bind_eq_some_iff.mp combined
  simpa using packFields_room nonempty packed (by simp)

theorem length_combineToSingleKeyWith {advance : Nat} {infos : List KeyInfo} {fdLenSum : Nat}
    {key : List UInt8} (nonempty : ∀ info ∈ infos, info.field ≠ [])
    (combined : combineToSingleKeyWith advance infos fdLenSum = some key) :
    key.length = bytesFor (fdLenSum % 2 ^ 16) := by
  obtain ⟨state, packed, combined⟩ := Option.bind_eq_some_iff.mp combined
  cases combined
  apply foldlM_preserves
    (fun state : PackState => state.matchKey.length = bytesFor (fdLenSum % 2 ^ 16)) _ packed (by simp)
  intro state info after member here step
  exact (packBytes_some (nonempty info member) step).2.2.trans here

private theorem paddings_lt {widths : List Nat} {width : Nat} {key : List UInt8}
    (positive : ∀ other ∈ width :: widths, 0 < other) (short : widths.sum + width < 2 ^ 16)
    (combined : combineToSingleKeyWith 1
      (widths.map (keyInfoOf · 0) ++ [keyInfoOf width (2 ^ (7 - padding width))]) (widths.sum + width) =
        some key) : (widths.map padding).sum + padding width < 8 := by
  have room := combineToSingleKeyWith_room (by
    intro info member
    apply List.length_pos_iff.mp
    rcases List.mem_append.mp member with early | last
    · obtain ⟨other, listed, rfl⟩ := List.mem_map.mp early
      simpa using bytesFor_pos (positive other (List.mem_cons_of_mem _ listed))
    · rw [List.mem_singleton.mp last]
      simpa using bytesFor_pos (positive width List.mem_cons_self)) combined
  have lengths : ((widths.map (keyInfoOf · 0) ++ [keyInfoOf width (2 ^ (7 - padding width))]).map
      fun info => info.field.length).sum = (widths.map bytesFor).sum + bytesFor width := by
    simp [Function.comp_def]
  have total := sum_add_padding widths
  have own := width_add_padding width
  have size : bytesFor (widths.sum + width) = (widths.sum + width + 7) / 8 := rfl
  rw [lengths, Nat.mod_eq_of_lt short, size] at room
  omega

private theorem beVal_shifted_top {width shift : Nat} (positive : 0 < width) (low : shift < 8) :
    beVal (shrBytes shift 0 (keyInfoOf width (2 ^ (7 - padding width))).field) = 2 ^ (7 - shift) := by
  have padded := padding_lt width
  have single : 2 ^ (7 - padding width) * 2 ^ padding width = 2 ^ 7 := by
    rw [← Nat.pow_add, Nat.sub_add_cancel (by omega)]
  have bytes : 256 ≤ 256 ^ bytesFor width := Nat.le_self_pow (bytesFor_pos positive).ne' 256
  have below : 2 ^ (7 - shift) ≤ 2 ^ 7 := Nat.pow_le_pow_right (by decide) (by omega)
  rw [beVal_shrBytes _ _ _ (by omega), length_keyInfoOf_field, keyInfoOf, beVal_beBytes, single,
    Nat.mod_eq_of_lt (show 2 ^ 7 < 256 ^ bytesFor width by omega)]
  simp only [UInt8.toNat_zero, Nat.zero_mul, Nat.zero_add]
  rw [Nat.pow_div (by omega) (by decide), Nat.mod_eq_of_lt (by omega)]

/-- A bit behind zero fields tells the two copies apart whenever the controller's stays in
its buffer. -/
theorem combineToSingleKeyWith_disagree {widths : List Nat} {width : Nat} {key : List UInt8}
    (several : widths ≠ []) (positive : ∀ other ∈ width :: widths, 0 < other)
    (short : widths.sum + width < 2 ^ 16)
    (combined : combineToSingleKeyWith 1
      (widths.map (keyInfoOf · 0) ++ [keyInfoOf width (2 ^ (7 - padding width))]) (widths.sum + width) =
        some key) :
    ∃ other, combineToSingleKeyWith 0
        (widths.map (keyInfoOf · 0) ++ [keyInfoOf width (2 ^ (7 - padding width))]) (widths.sum + width) =
          some other ∧
      other.length = key.length ∧ other ≠ key ∧ beVal other ≠ 0 := by
  have noSpill := paddings_lt positive short combined
  have ours := combineToSingleKeyWith_last (show 1 ≤ 1 by decide) widths width
    (2 ^ (7 - padding width)) positive short noSpill
  have theirs := combineToSingleKeyWith_last (show 0 ≤ 1 by decide) widths width
    (2 ^ (7 - padding width)) positive short noSpill
  have before := sum_index (show 1 ≤ 1 by decide) widths
    fun other member => positive other (List.mem_cons_of_mem _ member)
  have after := sum_index (show 0 ≤ 1 by decide) widths
    fun other member => positive other (List.mem_cons_of_mem _ member)
  have bit : beVal (shrBytes (widths.map padding).sum 0 (keyInfoOf width (2 ^ (7 - padding width))).field) =
      2 ^ (7 - (widths.map padding).sum) :=
    beVal_shifted_top (positive width List.mem_cons_self) (by omega)
  have count : 0 < widths.length := List.length_pos_iff.mpr several
  rw [ours] at combined
  cases combined
  refine ⟨_, theirs, ?_, ?_, ?_⟩
  · simp only [List.length_append, List.length_replicate]
    omega
  · intro same
    have values := congrArg beVal same
    simp only [beVal_append, beVal_replicate_zero, List.length_replicate, bit, Nat.sub_self,
      Nat.mul_zero, Nat.zero_mul, Nat.zero_add, Nat.add_zero, Nat.pow_zero, Nat.mul_one,
      Nat.sub_zero] at values
    have grows : 256 ≤ 256 ^ widths.length := Nat.le_self_pow count.ne' 256
    have positiveBit := Nat.two_pow_pos (7 - (widths.map padding).sum)
    have larger := Nat.mul_le_mul_left (2 ^ (7 - (widths.map padding).sum)) grows
    omega
  · simp [beVal_append, bit]

/-! ### Bytes in front of the write index -/

theorem setAt_other {items result : List UInt8} {index other : Nat} {item : UInt8}
    (written : setAt items index item = some result) (different : index ≠ other) :
    result[other]? = items[other]? := by
  obtain ⟨_, rfl⟩ := setAt_eq_some_iff.mp written
  exact List.getElem?_set_ne different

theorem addAt_other {key result : List UInt8} {index value other : Nat}
    (added : addAt key index value = some result) (different : index ≠ other) :
    result[other]? = key[other]? := by
  obtain ⟨_, _, _, rfl⟩ := addAt_some added
  exact List.getElem?_set_ne different

private theorem addAt_here {key result : List UInt8} {index value : Nat}
    (added : addAt key index value = some result) :
    result[index]? = (key[index]?).map fun old => u8 (old.toNat + value) := by
  obtain ⟨old, here, inside, rfl⟩ := addAt_some added
  rw [List.getElem?_set_self inside, here]
  rfl

/-- What a step over one byte leaves at and in front of the write index. -/
private structure PackedByte (state result : PackState) (byte : UInt8) : Prop where
  index : state.curIdx ≤ result.curIdx
  front : ∀ other < state.curIdx, result.matchKey[other]? = state.matchKey[other]?
  here : result.matchKey[state.curIdx]? =
    (state.matchKey[state.curIdx]?).map fun old => u8 (old.toNat + byte.toNat >>> (8 - state.curBitLeft))

private theorem packByte_packed {state result : PackState} {byte : UInt8}
    (packed : packByte state byte = some result) : PackedByte state result byte := by
  obtain ⟨key, added, packed⟩ := Option.bind_eq_some_iff.mp packed
  split at packed
  · obtain ⟨spilled, written, packed⟩ := Option.bind_eq_some_iff.mp packed
    cases packed
    refine ⟨Nat.le_succ _, fun other before => ?_, ?_⟩
    · exact (setAt_other written (by omega)).trans (addAt_other added before.ne')
    · exact (setAt_other written (by omega)).trans (addAt_here added)
  · cases packed
    exact ⟨Nat.le_succ _, fun other before => addAt_other added before.ne', addAt_here added⟩

private theorem packLastByte_packed {advance tailOffset : Nat} {state result : PackState} {byte : UInt8}
    (packed : packLastByte advance tailOffset state byte = some result) : PackedByte state result byte := by
  obtain ⟨key, added, packed⟩ := Option.bind_eq_some_iff.mp packed
  split at packed
  · cases packed
    exact ⟨Nat.le_add_right _ _, fun other before => addAt_other added before.ne', addAt_here added⟩
  · split at packed
    · cases packed
      exact ⟨Nat.le_succ _, fun other before => addAt_other added before.ne', addAt_here added⟩
    · obtain ⟨spilled, written, packed⟩ := Option.bind_eq_some_iff.mp packed
      cases packed
      refine ⟨Nat.le_succ _, fun other before => ?_, ?_⟩
      · exact (setAt_other written (by omega)).trans (addAt_other added before.ne')
      · exact (setAt_other written (by omega)).trans (addAt_here added)

theorem packBytes_front {advance tailOffset : Nat} {state result : PackState} {bytes : List UInt8}
    (packed : packBytes advance tailOffset state bytes = some result) :
    state.curIdx ≤ result.curIdx ∧
      ∀ other < state.curIdx, result.matchKey[other]? = state.matchKey[other]? := by
  induction bytes generalizing state with
  | nil =>
      cases packed
      exact ⟨le_rfl, fun _ _ => rfl⟩
  | cons byte rest ih =>
      cases rest with
      | nil => exact ⟨(packLastByte_packed packed).index, (packLastByte_packed packed).front⟩
      | cons next rest =>
          obtain ⟨middle, first, packed⟩ := Option.bind_eq_some_iff.mp packed
          have step := packByte_packed first
          obtain ⟨index, front⟩ := ih packed
          refine ⟨step.index.trans index, fun other before => ?_⟩
          exact (front other (before.trans_le step.index)).trans (step.front other before)

/-- A field adds its first byte to the one at the write index, and moves the index when it has
a second byte. -/
theorem packBytes_first {advance tailOffset : Nat} {state result : PackState} {byte : UInt8}
    {rest : List UInt8} (packed : packBytes advance tailOffset state (byte :: rest) = some result) :
    result.matchKey[state.curIdx]? =
        (state.matchKey[state.curIdx]?).map (fun old => u8
          (old.toNat + byte.toNat >>> (8 - state.curBitLeft))) ∧
      (rest ≠ [] → state.curIdx < result.curIdx) := by
  cases rest with
  | nil => exact ⟨(packLastByte_packed packed).here, fun more => absurd rfl more⟩
  | cons next rest =>
      obtain ⟨middle, first, packed⟩ := Option.bind_eq_some_iff.mp packed
      obtain ⟨index, front⟩ := packBytes_front packed
      have moved : middle.curIdx = state.curIdx + 1 := (packByte_some first).1
      rw [moved] at index front
      exact ⟨(front _ (Nat.lt_succ_self _)).trans (packByte_packed first).here, fun _ => index⟩

theorem packFields_front {advance : Nat} {infos : List KeyInfo} {state result : PackState}
    (packed : infos.foldlM (packField advance) state = some result) :
    ∀ other < state.curIdx, result.matchKey[other]? = state.matchKey[other]? := by
  induction infos generalizing state with
  | nil =>
      cases packed
      exact fun _ _ => rfl
  | cons info infos ih =>
      rw [List.foldlM_cons] at packed
      obtain ⟨middle, first, packed⟩ := Option.bind_eq_some_iff.mp packed
      obtain ⟨index, front⟩ := packBytes_front first
      intro other before
      exact (ih packed other (before.trans_le index)).trans (front other before)

/-- Fields that start with a zero byte change nothing up to the write index. -/
theorem packFields_zero_first {advance : Nat} {infos : List KeyInfo} {state result : PackState}
    (zero : ∀ info ∈ infos, ∃ rest, info.field = 0 :: rest)
    (packed : infos.foldlM (packField advance) state = some result) :
    ∀ other ≤ state.curIdx, result.matchKey[other]? = state.matchKey[other]? := by
  induction infos generalizing state with
  | nil =>
      cases packed
      exact fun _ _ => rfl
  | cons info infos ih =>
      rw [List.foldlM_cons] at packed
      obtain ⟨middle, first, packed⟩ := Option.bind_eq_some_iff.mp packed
      obtain ⟨rest, field⟩ := zero info List.mem_cons_self
      rw [packField, field] at first
      obtain ⟨index, front⟩ := packBytes_front first
      obtain ⟨here, _⟩ := packBytes_first first
      have unchanged : middle.matchKey[state.curIdx]? = state.matchKey[state.curIdx]? := by
        rw [here]
        cases state.matchKey[state.curIdx]? <;> simp [u8_toNat]
      intro other before
      rw [ih (fun other member => zero other (List.mem_cons_of_mem _ member)) packed other
        (before.trans index)]
      rcases before.lt_or_eq with less | rfl
      · exact front other less
      · exact unchanged

private theorem add_bit_ne {old : UInt8} {shift : Nat} (small : shift < 8) :
    u8 (old.toNat + (128 : UInt8).toNat >>> shift) ≠ old := by
  intro same
  have value := congrArg UInt8.toNat same
  rw [toNat_u8, show (128 : UInt8).toNat = 128 from rfl] at value
  have bound := byte_lt old
  interval_cases shift <;> simp only [Nat.shiftRight_eq_div_pow] at value <;> omega

/-- A second field that starts with a one bit tells the two copies apart: the matcher's copy adds
the bit to the last byte of the first field. -/
theorem combineToSingleKeyWith_second {width value fdLenSum : Nat} {second : KeyInfo} {rest : List UInt8}
    {others : List KeyInfo} {key : List UInt8} (positive : 0 < width) (field : second.field = 128 :: rest)
    (later : rest ≠ [] ∨ ∀ info ∈ others, ∃ tail, info.field = 0 :: tail)
    (ours : combineToSingleKeyWith 1 (keyInfoOf width value :: second :: others) fdLenSum = some key) :
    combineToSingleKeyWith 0 (keyInfoOf width value :: second :: others) fdLenSum ≠ some key := by
  have bytes := bytesFor_pos positive
  have nonempty : (keyInfoOf width value).field ≠ [] := List.length_pos_iff.mp (by simpa using bytes)
  have small := padding_lt width
  obtain ⟨final, packed, last⟩ := Option.bind_eq_some_iff.mp ours
  cases last
  rw [List.foldlM_cons] at packed
  obtain ⟨first, started, packed⟩ := Option.bind_eq_some_iff.mp packed
  have room := (packBytes_some nonempty started).1
  simp only [Nat.zero_add, length_keyInfoOf_field, List.length_replicate] at room
  have start :=
    fun advance => packField_zeros advance (bytesFor (fdLenSum % 2 ^ 16)) 0 8 (keyInfoOf width value)
    nonempty (by simpa using room) le_rfl small
  -- both copies have the same bytes behind the first field
  generalize List.replicate 0 0 ++ shrBytes (8 - 8) 0 (keyInfoOf width value).field ++
    List.replicate (bytesFor (fdLenSum % 2 ^ 16) - 0 - (keyInfoOf width value).field.length) 0 =
      written at start
  simp only [length_keyInfoOf_field, Nat.zero_add] at start
  rw [start 1] at started
  cases started
  have kept := packFields_front packed (bytesFor width - 1) (by simp only; omega)
  intro theirs
  obtain ⟨final', packed', last'⟩ := Option.bind_eq_some_iff.mp theirs
  have same : final'.matchKey = final.matchKey := Option.some.inj last'
  rw [List.foldlM_cons, start 0, Option.bind_eq_bind, Option.bind_some, List.foldlM_cons] at packed'
  obtain ⟨middle, added, packed'⟩ := Option.bind_eq_some_iff.mp packed'
  rw [packField, field] at added
  obtain ⟨here, moved⟩ := packBytes_first added
  obtain ⟨index, _⟩ := packBytes_front added
  have unchanged : final'.matchKey[bytesFor width - 1]? = middle.matchKey[bytesFor width - 1]? := by
    rcases later with more | zero
    · exact packFields_front packed' _ (moved more)
    · exact packFields_zero_first zero packed' _ index
  rw [same, kept] at unchanged
  simp only [Nat.add_zero] at here
  have shift : 8 - (8 - (keyInfoOf width value).tailOffset) = padding width := by
    simp only [keyInfoOf]
    omega
  rw [here, shift] at unchanged
  obtain ⟨old, found⟩ : ∃ old, written[bytesFor width - 1]? = some old := by
    cases found : written[bytesFor width - 1]? with
    | some old => exact ⟨old, rfl⟩
    | none =>
        obtain ⟨inside, _⟩ := packBytes_some (by simp) added
        have bound := List.getElem?_eq_none_iff.mp found
        simp only [List.length_cons] at inside
        omega
  simp only [found, Option.map_some, Option.some.injEq] at unchanged
  exact add_bit_ne small unchanged.symm

end Ipbm.Dataplane
