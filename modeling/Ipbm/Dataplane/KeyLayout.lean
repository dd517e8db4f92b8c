import Ipbm.Dataplane.KeyPackerProperties

/-! Where the matcher's packer puts its fields. It moves its write position by the unused
bits of a field's last byte where it should move it by the used ones. -/

set_option autoImplicit false

namespace Ipbm.Dataplane
open Lib

/-- The packer's state when `used` bits are in place. -/
def packedState (size bits used : Nat) : PackState :=
  ⟨beBytes size (bits * 2 ^ (8 * size - used)), used / 8, 8 - used % 8⟩

private theorem beBytes_at_index (front room high low start : Nat) (inside : start < 8)
    (highSmall : high < 256 ^ front) (lowSmall : low < 2 ^ start) :
    beBytes (front + 1 + room) ((high * 2 ^ start + low) *
      2 ^ (8 * (front + 1 + room) - (8 * front + start))) =
      beBytes front high ++ u8 ((u8 low).toNat <<< (8 - start)) :: List.replicate room 0 := by
  have rest : 8 * (front + 1 + room) - (8 * front + start) = 8 - start + 8 * room := by omega
  have byte : 2 ^ start * 2 ^ (8 - start) = 256 := by
    rw [← Nat.pow_add, Nat.add_sub_cancel' inside.le]
  have lowByte : low < 256 := lowSmall.trans_le (Nat.pow_le_pow_right (by decide) inside.le)
  have shifted : low * 2 ^ (8 - start) < 256 :=
    byte ▸ Nat.mul_lt_mul_of_pos_right lowSmall (Nat.two_pow_pos _)
  have value : (high * 2 ^ start + low) * 2 ^ (8 - start + 8 * room) =
      high * 256 ^ (room + 1) + low * 2 ^ (8 - start) * 256 ^ room := by
    rw [Nat.pow_add, ← pow_256, ← Nat.mul_assoc, Nat.add_mul, Nat.mul_assoc high, byte,
      Nat.add_mul, Nat.pow_succ, Nat.mul_assoc high, Nat.mul_comm 256]
  have bound : high * 256 ^ (room + 1) + low * 2 ^ (8 - start) * 256 ^ room < 256 ^ (front + 1 + room) := by
    calc
      high * 256 ^ (room + 1) + low * 2 ^ (8 - start) * 256 ^ room
        < high * 256 ^ (room + 1) + 256 * 256 ^ room :=
          Nat.add_lt_add_left (Nat.mul_lt_mul_of_pos_right shifted (Nat.pow_pos (by decide))) _
      _ = (high + 1) * 256 ^ (room + 1) := by rw [← Nat.pow_succ', Nat.add_mul high, Nat.one_mul]
      _ ≤ 256 ^ front * 256 ^ (room + 1) := Nat.mul_le_mul_right _ highSmall
      _ = 256 ^ (front + 1 + room) := by rw [← Nat.pow_add, Nat.add_right_comm, Nat.add_assoc]
  apply beVal_injective
  · simp only [length_beBytes, List.length_append, List.length_cons, List.length_replicate]
    omega
  · rw [beVal_beBytes, rest, value, Nat.mod_eq_of_lt bound, beVal_append, beVal_beBytes,
      Nat.mod_eq_of_lt highSmall, beVal_cons, beVal_replicate_zero, List.length_cons,
      List.length_replicate, toNat_u8, toNat_u8,
      Nat.mod_eq_of_lt lowByte, Nat.shiftLeft_eq, Nat.mod_eq_of_lt shifted,
      Nat.add_zero (_ * 256 ^ room)]

private theorem beBytes_behind (front count rest high low start width value spare : Nat)
    (wide : width + spare = 8 * count) (room : start ≤ spare) (inside : start ≤ 8)
    (highSmall : high < 256 ^ front) (lowSmall : low < 2 ^ start) (valueSmall : value < 2 ^ width) :
    beBytes front high ++ shrBytes start (u8 low) (beBytes count (value * 2 ^ spare)) ++
      List.replicate rest 0 =
      beBytes (front + count + rest) (((high * 2 ^ start + low) * 2 ^ width + value) *
        2 ^ (8 * (front + count + rest) - (8 * front + start + width))) := by
  have lowByte : low < 256 := lowSmall.trans_le (Nat.pow_le_pow_right (by decide) inside)
  have behind : 8 * (front + count + rest) - (8 * front + start + width) = spare - start + 8 *
    rest := by omega
  have whole : 2 ^ start * (2 ^ width * 2 ^ (spare - start)) = 256 ^ count := by
    rw [← Nat.pow_add, ← Nat.pow_add, pow_256]
    congr 1
    omega
  have unshifted : 2 ^ spare = 2 ^ (spare - start) *
    2 ^ start := by rw [← Nat.pow_add, Nat.sub_add_cancel room]
  have field : value * 2 ^ spare < 256 ^ count := by
    rw [pow_256, ← wide, Nat.pow_add]
    exact Nat.mul_lt_mul_of_pos_right valueSmall (Nat.two_pow_pos _)
  have pair := concat_lt lowSmall valueSmall
  have bound : (low * 2 ^ width + value) * 2 ^ (spare - start) < 256 ^ count := by
    rw [← whole, ← Nat.mul_assoc, ← Nat.pow_add]
    exact Nat.mul_lt_mul_of_pos_right pair (Nat.two_pow_pos _)
  have shifted : (low * 256 ^ count + value * 2 ^ spare) / 2 ^ start =
      (low * 2 ^ width + value) * 2 ^ (spare - start) := by
    have split : low * 256 ^ count + value * 2 ^ spare =
        (low * 2 ^ width + value) * 2 ^ (spare - start) * 2 ^ start := by
      rw [unshifted, ← whole]
      ring
    rw [split, Nat.mul_div_cancel _ (Nat.two_pow_pos start)]
  have sum : ((high * 2 ^ start + low) * 2 ^ width + value) * 2 ^ (spare - start + 8 * rest) =
      (high * 256 ^ count + (low * 2 ^ width + value) * 2 ^ (spare - start)) * 256 ^ rest := by
    rw [Nat.pow_add, ← pow_256, ← whole]
    ring
  have total : (high * 256 ^ count + (low * 2 ^ width + value) * 2 ^ (spare - start)) * 256 ^ rest <
      256 ^ (front + count + rest) := by
    rw [Nat.pow_add _ _ rest]
    apply Nat.mul_lt_mul_of_pos_right _ (Nat.pow_pos (by decide))
    rw [Nat.pow_add]
    calc
      _ < high * 256 ^ count + 256 ^ count := Nat.add_lt_add_left bound _
      _ = (high + 1) * 256 ^ count := (Nat.succ_mul _ _).symm
      _ ≤ 256 ^ front * 256 ^ count := Nat.mul_le_mul_right _ highSmall
  apply beVal_injective
  · simp [Nat.add_assoc]
  · rw [beVal_append, beVal_append, beVal_beBytes, Nat.mod_eq_of_lt highSmall, beVal_shrBytes _ _ _ inside,
      beVal_beBytes, toNat_u8, Nat.mod_eq_of_lt lowByte, length_shrBytes, length_beBytes,
      Nat.mod_eq_of_lt field,
      shifted, Nat.mod_eq_of_lt bound, beVal_replicate_zero, List.length_replicate,
      Nat.add_zero, beVal_beBytes,
      behind, sum, Nat.mod_eq_of_lt total]

/-! ### Where the packer puts a field -/

/-- The bit the next field starts at. -/
def PackState.position (state : PackState) : Nat := 8 * state.curIdx + (8 - state.curBitLeft)

/-- How far the packer moves on over a field, where it should move by `width`. -/
def moved (width : Nat) : Nat := 8 * (bytesFor width - 1) + padding width

/-- No bit of the field is lost between two bytes. -/
def Whole (start width : Nat) : Prop := start % 8 ≤ padding width ∨ 8 - padding width < start % 8

/-- The bytes of the key up to the last one the field is written to. -/
def reach (start width : Nat) : Nat :=
  start / 8 + bytesFor width + (if 8 - start % 8 < padding width then 1 else 0)

private theorem beBytes_pad (count value spare : Nat) :
    beBytes count (value * 2 ^ spare) ++ [0] = beBytes (count + 1) (value * 2 ^ (spare + 8)) := by
  have digit := beBytes_append count (value * 2 ^ spare) 0
  rw [UInt8.toNat_zero, Nat.add_zero (_ * 256)] at digit
  have byte : (2 : Nat) ^ 8 = 256 := rfl
  rw [Nat.pow_add, ← Nat.mul_assoc, byte, digit]

private theorem place_behind (start width : Nat) (positive : 0 < width) :
    (if padding width ≤ 8 - start % 8 then
        start / 8 + bytesFor width - 1 + (if padding width < 8 - start % 8 then 0 else 1)
      else start / 8 + bytesFor width) = (start + moved width) / 8 ∧
    (if padding width ≤ 8 - start % 8 then
        if padding width < 8 - start % 8 then 8 - start % 8 - padding width else 8
      else 8 - padding width + (8 - start % 8)) = 8 - (start + moved width) % 8 := by
  have count := bytesFor_pos positive
  have less := padding_lt width
  unfold moved
  constructor
  · split
    · split <;> omega
    · omega
  · split
    · split <;> omega
    · omega

/-- A field that is written whole stands at the packer's position. -/
theorem packField_packed {size bits used width value : Nat} (small : bits < 2 ^ used)
    (valueSmall : value < 2 ^ width) (positive : 0 < width) (whole : Whole used width)
    (room : reach used width ≤ size) :
    packField 0 (packedState size bits used) (keyInfoOf width value) =
      some ⟨beBytes size ((bits * 2 ^ width + value) * 2 ^ (8 * size - (used + width))),
        (used + moved width) / 8, 8 - (used + moved width) % 8⟩ := by
  have count := bytesFor_pos positive
  have wide := width_add_padding width
  have less := padding_lt width
  have placed := place_behind used width positive
  have start : used % 8 < 8 := Nat.mod_lt _ (by decide)
  have split : 8 * (used / 8) + used % 8 = used := Nat.div_add_mod used 8
  rw [← placed.1, ← placed.2]
  unfold Whole at whole
  unfold reach at room
  rw [packedState]
  generalize used / 8 = front at *
  generalize used % 8 = behind at *
  subst split
  have highSmall : bits / 2 ^ behind < 256 ^ front := by
    rw [Nat.div_lt_iff_lt_mul (Nat.two_pow_pos _), pow_256, ← Nat.pow_add]
    exact small
  have lowSmall : bits % 2 ^ behind < 2 ^ behind := Nat.mod_lt _ (Nat.two_pow_pos _)
  have parts : bits / 2 ^ behind * 2 ^ behind + bits % 2 ^ behind = bits := by
    rw [Nat.mul_comm]
    exact Nat.div_add_mod _ _
  have nonempty : (keyInfoOf width value).field ≠ [] := List.length_pos_iff.mp (by simpa using count)
  have length := length_keyInfoOf_field width value
  by_cases spill : 8 - behind < padding width
  · rw [if_pos spill] at room
    obtain ⟨rest, sized⟩ : ∃ rest, size = front + (bytesFor width + 1) + rest :=
      ⟨size - front - bytesFor width - 1, by omega⟩
    have again : size = front + 1 + (bytesFor width + rest) := by omega
    have opened := beBytes_at_index front (bytesFor width + rest) _ _ behind start highSmall lowSmall
    have closed := beBytes_behind front (bytesFor width + 1) rest _ _ behind width value (padding width + 8)
      (by omega) (by omega) start.le highSmall lowSmall valueSmall
    have spec := packBytes_spec_spill 0 (padding width) (beBytes front (bits / 2 ^ behind))
      (keyInfoOf width value).field
      (u8 (bits % 2 ^ behind)) (bytesFor width + rest) (8 - behind) nonempty (by omega) (Nat.sub_le _ _) spill
    rw [parts, ← again] at opened
    rw [parts, ← sized, ← beBytes_pad] at closed
    rw [← opened, length_beBytes, length, Nat.sub_sub_self start.le, Nat.add_sub_cancel_left] at spec
    rw [if_neg (by omega), if_neg (by omega), packField, ← closed]
    exact spec
  · rw [if_neg spill] at room
    obtain ⟨rest, sized⟩ : ∃ rest, size = front + bytesFor width + rest :=
      ⟨size - front - bytesFor width, by omega⟩
    have again : size = front + 1 + (bytesFor width - 1 + rest) := by omega
    have opened := beBytes_at_index front (bytesFor width - 1 + rest) _ _ behind start highSmall lowSmall
    have closed :=
      beBytes_behind front (bytesFor width) rest _ _ behind width value (padding width) wide (by omega)
      start.le highSmall lowSmall valueSmall
    have spec :=
      packBytes_spec 0 (padding width) (beBytes front (bits / 2 ^ behind)) (keyInfoOf width value).field
      (u8 (bits % 2 ^ behind)) (bytesFor width - 1 + rest) (8 - behind) nonempty (by omega) (Nat.sub_le _ _)
      (Nat.le_of_not_lt spill)
    rw [parts, ← again] at opened
    rw [parts, ← sized] at closed
    rw [← opened, length_beBytes, length, Nat.sub_sub_self start.le,
      show bytesFor width - 1 + rest + 1 - bytesFor width = rest by omega] at spec
    rw [if_pos (Nat.le_of_not_lt spill), if_pos (Nat.le_of_not_lt spill), packField, ← closed]
    exact spec

private theorem packLastByte_position {tailOffset : Nat} {state result : PackState} {byte : UInt8}
    (unused : tailOffset < 8) (left : state.curBitLeft ≤ 8)
    (packed : packLastByte 0 tailOffset state byte = some result) :
    result.position = state.position + tailOffset ∧ 0 < result.curBitLeft ∧ result.curBitLeft ≤ 8 := by
  obtain ⟨key, added, packed⟩ := Option.bind_eq_some_iff.mp packed
  split at packed
  · cases packed
    simp only [PackState.position]
    omega
  · split at packed
    · cases packed
      simp only [PackState.position]
      omega
    · obtain ⟨spilled, written, packed⟩ := Option.bind_eq_some_iff.mp packed
      cases packed
      simp only [PackState.position]
      omega

private theorem packBytes_position {tailOffset : Nat} {state result : PackState} {bytes : List UInt8}
    (nonempty : bytes ≠ []) (unused : tailOffset < 8) (left : state.curBitLeft ≤ 8)
    (packed : packBytes 0 tailOffset state bytes = some result) :
    result.position = state.position + 8 * (bytes.length - 1) + tailOffset ∧
      0 < result.curBitLeft ∧ result.curBitLeft ≤ 8 := by
  induction bytes generalizing state with
  | nil => exact absurd rfl nonempty
  | cons byte rest ih =>
      cases rest with
      | nil => exact packLastByte_position unused left packed
      | cons next rest =>
          obtain ⟨middle, first, packed⟩ := Option.bind_eq_some_iff.mp packed
          obtain ⟨index, same, _⟩ := packByte_some first
          obtain ⟨position, bounds⟩ := ih (by simp) (same ▸ left) packed
          refine ⟨?_, bounds⟩
          rw [position]
          simp only [PackState.position, index, same, List.length_cons]
          omega

private theorem packFields_position {widths : List Nat} {state result : PackState}
    (positive : ∀ width ∈ widths, 0 < width) (left : 0 < state.curBitLeft ∧ state.curBitLeft ≤ 8)
    (packed : (widths.map (keyInfoOf · 0)).foldlM (packField 0) state = some result) :
    result.position = state.position + (widths.map moved).sum ∧
      0 < result.curBitLeft ∧ result.curBitLeft ≤ 8 := by
  induction widths generalizing state with
  | nil =>
      cases packed
      exact ⟨rfl, left⟩
  | cons width widths ih =>
      rw [List.map_cons, List.foldlM_cons] at packed
      obtain ⟨middle, first, packed⟩ := Option.bind_eq_some_iff.mp packed
      have bytes := bytesFor_pos (positive width List.mem_cons_self)
      obtain ⟨position, bounds⟩ := packBytes_position (List.length_pos_iff.mp (by simpa using bytes))
        (padding_lt width) left.2 first
      obtain ⟨later, final⟩ :=
        ih (fun other member => positive other (List.mem_cons_of_mem _ member)) bounds packed
      refine ⟨?_, final⟩
      rw [later, position, length_keyInfoOf_field, List.map_cons, List.sum_cons, moved]
      omega

private theorem keyInfoOf_zero (width : Nat) :
    (keyInfoOf width 0).field = List.replicate (bytesFor width) 0 := by
  rw [keyInfoOf, Nat.zero_mul, beBytes_zero]

private theorem packBytes_spill {tailOffset : Nat} {state result : PackState} {bytes : List UInt8}
    (nonempty : bytes ≠ []) (spills : state.curBitLeft < tailOffset)
    (packed : packBytes 0 tailOffset state bytes = some result) :
    state.curIdx + bytes.length < state.matchKey.length := by
  induction bytes generalizing state with
  | nil => exact absurd rfl nonempty
  | cons byte rest ih =>
      cases rest with
      | nil =>
          obtain ⟨key, added, packed⟩ := Option.bind_eq_some_iff.mp packed
          obtain ⟨_, _, _, rfl⟩ := addAt_some added
          rw [if_neg (by omega), if_neg (by omega)] at packed
          obtain ⟨spilled, written, _⟩ := Option.bind_eq_some_iff.mp packed
          obtain ⟨inside, _⟩ := setAt_eq_some_iff.mp written
          rwa [List.length_set] at inside
      | cons next rest =>
          obtain ⟨middle, first, packed⟩ := Option.bind_eq_some_iff.mp packed
          obtain ⟨index, same, length⟩ := packByte_some first
          have later := ih (by simp) (same ▸ spills) packed
          rw [index, length] at later
          simp only [List.length_cons] at later ⊢
          omega

private theorem reach_of_packField {size start width value : Nat} {key : List UInt8} {result : PackState}
    (positive : 0 < width) (length : key.length = size)
    (packed : packField 0 ⟨key, start / 8, 8 - start % 8⟩ (keyInfoOf width value) = some result) :
    reach start width ≤ size := by
  have nonempty : (keyInfoOf width value).field ≠ [] :=
    List.length_pos_iff.mp (by simpa using bytesFor_pos positive)
  have inside := (packBytes_some nonempty packed).1
  rw [length_keyInfoOf_field, length] at inside
  unfold reach
  split
  case isTrue spills =>
    have more := packBytes_spill nonempty spills packed
    rwa [length_keyInfoOf_field, length] at more
  case isFalse => exact inside

/-! ### Untouched bytes -/

/-- The bytes behind the write index are zero. -/
def PackState.Fresh (state : PackState) : Prop :=
  ∀ index byte, state.curIdx < index → state.matchKey[index]? = some byte → byte = 0

private theorem packByte_fresh {state result : PackState} {byte : UInt8} (fresh : state.Fresh)
    (packed : packByte state byte = some result) : result.Fresh := by
  obtain ⟨key, added, packed⟩ := Option.bind_eq_some_iff.mp packed
  intro index other behind found
  split at packed
  · obtain ⟨spilled, written, packed⟩ := Option.bind_eq_some_iff.mp packed
    cases packed
    simp only at behind found
    rw [setAt_other written (by omega), addAt_other added (by omega)] at found
    exact fresh index other (by omega) found
  · cases packed
    simp only at behind found
    rw [addAt_other added (by omega)] at found
    exact fresh index other (by omega) found

private theorem packLastByte_fresh {tailOffset : Nat} {state result : PackState} {byte : UInt8}
    (fresh : state.Fresh) (packed : packLastByte 0 tailOffset state byte = some result) : result.Fresh := by
  obtain ⟨key, added, packed⟩ := Option.bind_eq_some_iff.mp packed
  intro index other behind found
  split at packed
  · cases packed
    rw [addAt_other added (by simp only at behind; omega)] at found
    exact fresh index other behind found
  · split at packed
    · cases packed
      simp only at behind found
      rw [addAt_other added (by omega)] at found
      exact fresh index other (by omega) found
    · obtain ⟨spilled, written, packed⟩ := Option.bind_eq_some_iff.mp packed
      cases packed
      simp only at behind found
      rw [setAt_other written (by omega), addAt_other added (by omega)] at found
      exact fresh index other (by omega) found

private theorem packBytes_fresh {tailOffset : Nat} {state result : PackState} {bytes : List UInt8}
    (fresh : state.Fresh) (packed : packBytes 0 tailOffset state bytes = some result) : result.Fresh := by
  induction bytes generalizing state with
  | nil =>
      cases packed
      exact fresh
  | cons byte rest ih =>
      cases rest with
      | nil => exact packLastByte_fresh fresh packed
      | cons next rest =>
          obtain ⟨middle, first, packed⟩ := Option.bind_eq_some_iff.mp packed
          exact ih (packByte_fresh fresh first) packed

private theorem addAt_nothing {key result : List UInt8} {index value : Nat} (zero : value = 0)
    (added : addAt key index value = some result) : result = key := by
  obtain ⟨old, here, inside, rfl⟩ := addAt_some added
  obtain ⟨_, rfl⟩ := List.getElem?_eq_some_iff.mp here
  rw [zero, Nat.add_zero, u8_toNat, List.set_getElem_self]

private theorem setAt_untouched {state : PackState} {index : Nat} {item : UInt8} {result : List UInt8}
    (fresh : state.Fresh) (behind : state.curIdx < index) (zero : item = 0)
    (written : setAt state.matchKey index item = some result) : result = state.matchKey := by
  obtain ⟨inside, rfl⟩ := setAt_eq_some_iff.mp written
  rw [zero, ← fresh index _ behind (List.getElem?_eq_getElem inside), List.set_getElem_self]

private theorem packByte_zero {state result : PackState} (fresh : state.Fresh)
    (packed : packByte state 0 = some result) : result.matchKey = state.matchKey := by
  obtain ⟨key, added, packed⟩ := Option.bind_eq_some_iff.mp packed
  obtain rfl := addAt_nothing (by simp) added
  split at packed
  · obtain ⟨spilled, written, packed⟩ := Option.bind_eq_some_iff.mp packed
    cases packed
    exact setAt_untouched fresh (Nat.lt_succ_self _) (by simp [u8]) written
  · cases packed
    rfl

private theorem packLastByte_zero {tailOffset : Nat} {state result : PackState} (fresh : state.Fresh)
    (packed : packLastByte 0 tailOffset state 0 = some result) : result.matchKey = state.matchKey := by
  obtain ⟨key, added, packed⟩ := Option.bind_eq_some_iff.mp packed
  obtain rfl := addAt_nothing (by simp) added
  split at packed
  · cases packed
    rfl
  · split at packed
    · cases packed
      rfl
    · obtain ⟨spilled, written, packed⟩ := Option.bind_eq_some_iff.mp packed
      cases packed
      exact setAt_untouched fresh (Nat.lt_succ_self _) (by simp [u8]) written

private theorem packBytes_zero {tailOffset count : Nat} {state result : PackState} (fresh : state.Fresh)
    (packed : packBytes 0 tailOffset state (List.replicate count 0) = some result) :
    result.matchKey = state.matchKey := by
  induction count generalizing state with
  | zero =>
      cases packed
      rfl
  | succ count ih =>
      cases count with
      | zero => exact packLastByte_zero fresh packed
      | succ count =>
          obtain ⟨middle, first, packed⟩ := Option.bind_eq_some_iff.mp packed
          exact (ih (packByte_fresh fresh first) packed).trans (packByte_zero fresh first)

/-- Zero fields leave the key as it is. -/
theorem packFields_zeros {widths : List Nat} {state result : PackState} (fresh : state.Fresh)
    (packed : (widths.map (keyInfoOf · 0)).foldlM (packField 0) state = some result) :
    result.matchKey = state.matchKey := by
  induction widths generalizing state with
  | nil =>
      cases packed
      rfl
  | cons width widths ih =>
      rw [List.map_cons, List.foldlM_cons] at packed
      obtain ⟨middle, first, packed⟩ := Option.bind_eq_some_iff.mp packed
      rw [packField, keyInfoOf_zero] at first
      exact (ih (packBytes_fresh fresh first) packed).trans (packBytes_zero fresh first)

private theorem fresh_blank (size : Nat) : (⟨List.replicate size 0, 0, 8⟩ : PackState).Fresh := by
  intro index byte _ found
  exact List.eq_of_mem_replicate (List.mem_of_getElem? found)

private theorem packFields_fresh {infos : List KeyInfo} {state result : PackState} (fresh : state.Fresh)
    (packed : infos.foldlM (packField 0) state = some result) : result.Fresh :=
  foldlM_preserves PackState.Fresh (fun _ _ _ _ before step => packBytes_fresh before step) packed fresh

/-! ### One bit -/

/-- The bit lies behind the current byte, and the packer writes no further one. -/
def Dropped (start width bit : Nat) : Prop :=
  padding width ≤ 8 - start % 8 ∧ 8 * bytesFor width - 1 - bit < start % 8

private theorem packField_cut {size start width value : Nat} {result : PackState} (positive : 0 < width)
    (small : value < 2 ^ width) (noSpill : padding width ≤ 8 - start % 8) (room : reach start width ≤ size)
    (packed : packField 0 ⟨List.replicate size 0, start / 8,
      8 - start % 8⟩ (keyInfoOf width value) = some result) :
    result.matchKey = beBytes size
      (value * 2 ^ padding width / 2 ^ (start % 8) * 256 ^ (size - start / 8 - bytesFor width)) := by
  have count := bytesFor_pos positive
  have behind : start % 8 < 8 := Nat.mod_lt _ (by decide)
  rw [reach, if_neg (Nat.not_lt.mpr noSpill), Nat.add_zero] at room
  have spec := packBytes_spec 0 (padding width) (List.replicate (start / 8) 0) (keyInfoOf width value).field 0
    (size - start / 8 - 1) (8 - start % 8) (List.length_pos_iff.mp (by simpa using count))
    (by rw [length_keyInfoOf_field]; omega) (Nat.sub_le _ _) noSpill
  have blank : List.replicate (start / 8) 0 ++ u8 ((0 : UInt8).toNat <<< (8 - start % 8)) ::
      List.replicate (size - start / 8 - 1) 0 = List.replicate size 0 := by
    have zero : u8 ((0 : UInt8).toNat <<< (8 - start % 8)) = 0 := by simp [u8]
    rw [zero, ← List.replicate_succ, List.replicate_append_replicate]
    congr 1
    omega
  rw [blank, List.length_replicate] at spec
  rw [packField, show (keyInfoOf width value).tailOffset = padding width from rfl, spec] at packed
  cases packed
  have shifted : value * 2 ^ padding width / 2 ^ (start % 8) < 256 ^ bytesFor width :=
    (Nat.div_le_self _ _).trans_lt (leftAligned_lt small)
  have whole : value * 2 ^ padding width / 2 ^ (start % 8) * 256 ^ (size - start / 8 - bytesFor width) <
      256 ^ size := by
    calc
      _ < 256 ^ bytesFor width * 256 ^ (size - start / 8 - bytesFor width) :=
        Nat.mul_lt_mul_of_pos_right shifted (Nat.pow_pos (by decide))
      _ ≤ 256 ^ size := by
        rw [← Nat.pow_add]
        exact Nat.pow_le_pow_right (by decide) (by omega)
  have rest : size - start / 8 - 1 + 1 - bytesFor width = size - start / 8 - bytesFor width := by omega
  apply beVal_injective
  · simp only [List.length_append, List.length_replicate, length_shrBytes, length_keyInfoOf_field,
      length_beBytes]
    omega
  · rw [beVal_append, beVal_append, beVal_replicate_zero, beVal_replicate_zero, length_keyInfoOf_field, rest,
      List.length_replicate, Nat.sub_sub_self behind.le, beVal_shrBytes _ _ _ behind.le,
      length_keyInfoOf_field,
      keyInfoOf, beVal_beBytes, Nat.mod_eq_of_lt (leftAligned_lt small), beVal_beBytes,
      Nat.mod_eq_of_lt whole, UInt8.toNat_zero,
      Nat.zero_mul, Nat.zero_mul, Nat.zero_add, Nat.zero_add, Nat.add_zero, Nat.mod_eq_of_lt shifted]

private theorem packField_bit {size start width bit : Nat} {result : PackState} (within : bit < width)
    (packed : packField 0 ⟨List.replicate size 0, start / 8,
      8 - start % 8⟩ (keyInfoOf width (2 ^ (width - 1 - bit))) =
      some result) :
    (Dropped start width bit → result.matchKey = List.replicate size 0) ∧
      (¬ Dropped start width bit → result.matchKey = beBytes size (2 ^ (8 * size - 1 - (start + bit)))) := by
  have positive : 0 < width := Nat.zero_lt_of_lt within
  have count := bytesFor_pos positive
  have wide := width_add_padding width
  have less := padding_lt width
  have small : 2 ^ (width - 1 - bit) < 2 ^ width := Nat.pow_lt_pow_right (by decide) (by omega)
  have room := reach_of_packField positive List.length_replicate packed
  by_cases spill : 8 - start % 8 < padding width
  · refine ⟨fun dropped => absurd dropped.1 (Nat.not_le.mpr spill), fun _ => ?_⟩
    have whole : Whole start width := .inr (by omega)
    have step := @packField_packed size 0 start width _ (Nat.two_pow_pos start) small positive whole room
    rw [packedState, Nat.zero_mul, beBytes_zero, packed] at step
    cases step
    rw [reach, if_pos spill] at room
    have exponent : width - 1 - bit + (8 * size - (start + width)) = 8 * size - 1 - (start + bit) := by omega
    simp only [Nat.zero_mul, Nat.zero_add, ← Nat.pow_add, exponent]
  · have noSpill := Nat.le_of_not_lt spill
    have cut := packField_cut positive small noSpill room packed
    rw [← Nat.pow_add, show width - 1 - bit + padding width = 8 * bytesFor width - 1 - bit by omega] at cut
    rw [reach, if_neg spill, Nat.add_zero] at room
    constructor
    · intro dropped
      rw [cut, Nat.div_eq_of_lt (Nat.pow_lt_pow_right (by decide) dropped.2), Nat.zero_mul, beBytes_zero]
    · intro kept
      have inside : start % 8 ≤ 8 * bytesFor width - 1 - bit :=
        Nat.le_of_not_lt fun late => kept ⟨noSpill, late⟩
      rw [cut, Nat.pow_div inside (by decide), pow_256, ← Nat.pow_add]
      congr 2
      omega

private theorem packFields_blank {front : List Nat} {size : Nat} {result : PackState}
    (positive : ∀ width ∈ front, 0 < width)
    (packed : (front.map (keyInfoOf · 0)).foldlM (packField 0) ⟨List.replicate size 0, 0, 8⟩ = some result) :
    result = ⟨List.replicate size 0, (front.map moved).sum / 8, 8 - (front.map moved).sum % 8⟩ := by
  obtain ⟨position, someLeft, left⟩ := packFields_position positive (by simp) packed
  have blank := packFields_zeros (fresh_blank size) packed
  have start : (⟨List.replicate size 0, 0, 8⟩ : PackState).position = 0 := rfl
  rw [start, Nat.zero_add] at position
  obtain ⟨key, index, bits⟩ := result
  simp only [PackState.position] at position someLeft left blank
  rw [PackState.mk.injEq]
  exact ⟨blank, by omega, by omega⟩

theorem combine_zeros {widths : List Nat} {sum : Nat} {key : List UInt8}
    (combined : combineToSingleKeyWith 0 (widths.map (keyInfoOf · 0)) sum = some key) :
    key = List.replicate (bytesFor (sum % 2 ^ 16)) 0 := by
  obtain ⟨final, packed, last⟩ := Option.bind_eq_some_iff.mp combined
  cases last
  exact packFields_zeros (fresh_blank _) packed

/-- A single bit among the fields shows where the packer puts it, or that it is lost. -/
theorem combine_bit {front back : List Nat} {width bit sum : Nat} {key : List UInt8}
    (positive : ∀ other ∈ front, 0 < other) (within : bit < width)
    (combined : combineToSingleKeyWith 0
      (front.map (keyInfoOf · 0) ++ keyInfoOf width (2 ^ (width - 1 - bit)) ::
        back.map (keyInfoOf · 0)) sum = some key) :
    reach (front.map moved).sum width ≤ bytesFor (sum % 2 ^ 16) ∧
      (Dropped (front.map moved).sum width bit → key = List.replicate (bytesFor (sum % 2 ^ 16)) 0) ∧
      (¬ Dropped (front.map moved).sum width bit →
        key = beBytes (bytesFor (sum % 2 ^ 16)) (2 ^ (8 * bytesFor (sum % 2 ^ 16) - 1 -
          ((front.map moved).sum + bit)))) := by
  obtain ⟨final, packed, last⟩ := Option.bind_eq_some_iff.mp combined
  cases last
  rw [List.foldlM_append] at packed
  obtain ⟨middle, early, packed⟩ := Option.bind_eq_some_iff.mp packed
  rw [List.foldlM_cons] at packed
  obtain ⟨after, added, later⟩ := Option.bind_eq_some_iff.mp packed
  have fresh := packFields_fresh (fresh_blank _) early
  rw [packFields_zeros (packBytes_fresh fresh added) later]
  rw [packFields_blank positive early] at added
  exact ⟨reach_of_packField (Nat.zero_lt_of_lt within) List.length_replicate added,
    packField_bit within added⟩

/-- The values that are all zero but the one behind the first fields. -/
def oneValue (front : List Nat) (width value : Nat) (back : List Nat) : List (Nat × Nat) :=
  front.map (fun width => (width, 0)) ++ (width, value) :: back.map fun width => (width, 0)

theorem exists_next {widths : List Nat} {width : Nat} (early : width ∈ widths.dropLast) :
    ∃ front next back, widths = front ++ width :: next :: back := by
  have nonempty : widths ≠ [] := by
    rintro rfl
    cases early
  obtain ⟨front, rest, split⟩ := List.append_of_mem early
  have whole := List.dropLast_concat_getLast nonempty
  rw [split, List.append_assoc, List.cons_append] at whole
  cases rest with
  | nil => exact ⟨front, _, [], whole.symm⟩
  | cons next rest => exact ⟨front, next, rest ++ [widths.getLast nonempty], whole.symm⟩

/-! ### Fields that end in the first half of a byte -/

/-- The bits of the fields, with the unused ones that the packer leaves behind each. -/
def spread (fields : List (Nat × Nat)) : Nat :=
  fields.foldl (fun bits field => (bits * 2 ^ field.1 + field.2) * 2 ^ (moved field.1 - field.1)) 0

theorem spread_append (fields : List (Nat × Nat)) (field : Nat × Nat) :
    spread (fields ++ [field]) = (spread fields * 2 ^ field.1 + field.2) * 2 ^ (moved field.1 - field.1) := by
  simp [spread]

def movedSum (fields : List (Nat × Nat)) : Nat := (fields.map fun field => moved field.1).sum

theorem movedSum_append (fields : List (Nat × Nat)) (field : Nat × Nat) :
    movedSum (fields ++ [field]) = movedSum fields + moved field.1 := by
  simp [movedSum]

theorem le_moved {width : Nat} (half : 4 ≤ padding width) (positive : 0 < width) : width ≤ moved width := by
  have count := bytesFor_pos positive
  have wide := width_add_padding width
  unfold moved
  omega

private theorem whole_of_half {width : Nat} (half : 4 ≤ padding width) (start : Nat) : Whole start width := by
  unfold Whole
  omega

private theorem reach_le (start width : Nat) (positive : 0 < width) :
    reach start width ≤ (start + moved width) / 8 + 1 := by
  have count := bytesFor_pos positive
  unfold reach moved
  split <;> omega

theorem spread_lt {fields : List (Nat × Nat)}
    (halves : ∀ field ∈ fields, 4 ≤ padding field.1 ∧ 0 < field.1)
    (small : ∀ field ∈ fields, field.2 < 2 ^ field.1) :
    spread fields < 2 ^ movedSum fields := by
  induction fields using List.reverseRecOn with
  | nil => exact Nat.one_pos
  | append_singleton fields field ih =>
      have last : field ∈ fields ++ [field] := List.mem_append_right _ List.mem_cons_self
      have before := ih (fun other member => halves other (List.mem_append_left _ member))
        fun other member => small other (List.mem_append_left _ member)
      have room := le_moved (halves field last).1 (halves field last).2
      rw [spread_append, movedSum_append]
      calc
        _ < 2 ^ (movedSum fields + field.1) * 2 ^ (moved field.1 - field.1) :=
          Nat.mul_lt_mul_of_pos_right (concat_lt before (small field last)) (Nat.two_pow_pos _)
        _ = 2 ^ (movedSum fields + moved field.1) := by
          rw [← Nat.pow_add]
          congr 1
          omega

/-- Behind such fields nothing is lost and nothing overlaps. -/
theorem packFields_spread {size : Nat} (fields : List (Nat × Nat))
    (halves : ∀ field ∈ fields, 4 ≤ padding field.1 ∧ 0 < field.1)
    (small : ∀ field ∈ fields, field.2 < 2 ^ field.1) (room : movedSum fields / 8 < size) :
    (fields.map fun field => keyInfoOf field.1 field.2).foldlM (packField 0) ⟨List.replicate size 0, 0, 8⟩ =
      some (packedState size (spread fields) (movedSum fields)) := by
  induction fields using List.reverseRecOn with
  | nil => simp [packedState, beBytes_zero, spread, movedSum]
  | append_singleton fields field ih =>
      have last : field ∈ fields ++ [field] := List.mem_append_right _ List.mem_cons_self
      have early : ∀ other ∈ fields, 4 ≤ padding other.1 ∧ 0 < other.1 := fun other member =>
        halves other (List.mem_append_left _ member)
      have earlySmall : ∀ other ∈ fields, other.2 < 2 ^ other.1 := fun other member =>
        small other (List.mem_append_left _ member)
      obtain ⟨half, positive⟩ := halves field last
      have wide := le_moved half positive
      have reached := reach_le (movedSum fields) field.1 positive
      rw [movedSum_append] at room ⊢
      have packed := ih early earlySmall (by omega)
      have step := @packField_packed size _ _ _ _ (spread_lt early earlySmall) (small field last) positive
        (whole_of_half half _) (by omega)
      have behind : 8 * size - (movedSum fields + field.1) =
          moved field.1 - field.1 + (8 * size - (movedSum fields + moved field.1)) := by omega
      rw [List.map_append, List.foldlM_append, packed, Option.bind_eq_bind, Option.bind_some,
        List.map_singleton, List.foldlM_cons, step, spread_append, packedState, behind, Nat.pow_add,
        ← Nat.mul_assoc]
      rfl

theorem combine_last {fields : List (Nat × Nat)} {field : Nat × Nat} {sum : Nat}
    (halves : ∀ other ∈ fields, 4 ≤ padding other.1 ∧ 0 < other.1)
    (small : ∀ other ∈ fields, other.2 < 2 ^ other.1)
    (positive : 0 < field.1) (fieldSmall : field.2 < 2 ^ field.1) (whole : Whole (movedSum fields) field.1)
    (room : reach (movedSum fields) field.1 ≤ bytesFor (sum % 2 ^ 16)) :
    combineToSingleKeyWith 0 ((fields ++ [field]).map fun field => keyInfoOf field.1 field.2) sum =
      some (beBytes (bytesFor (sum % 2 ^ 16)) ((spread fields * 2 ^ field.1 + field.2) *
        2 ^ (8 * bytesFor (sum % 2 ^ 16) - (movedSum fields + field.1)))) := by
  have count := bytesFor_pos positive
  have start : movedSum fields / 8 < bytesFor (sum % 2 ^ 16) := by
    unfold reach at room
    omega
  have packed := packFields_spread fields halves small start
  have step := packField_packed (spread_lt halves small) fieldSmall positive whole room
  rw [combineToSingleKeyWith, List.map_append, List.foldlM_append, packed]
  simp only [Option.bind_eq_bind, Option.bind_some, List.map_cons, List.map_nil, List.foldlM_cons,
    List.foldlM_nil, step]
  rfl

end Ipbm.Dataplane
