import Ipbm.Dataplane.KeyLayout

/-! When the matcher's packer keeps different values apart, concatenated or not: no bit
of a field may be lost, and no two fields may share a bit of the key. -/

set_option autoImplicit false

namespace Ipbm.Dataplane
open Lib

/-- Of the values that occur, any two that differ give keys that differ. -/
def KeysApart (occurs : List (Nat × Nat) → Prop) (sum : Nat) : Prop :=
  ∀ fields fields' : List (Nat × Nat), occurs fields → occurs fields' → fields ≠ fields' →
    ∃ key key', combineToSingleKeyWith 0 (fields.map fun field => keyInfoOf field.1 field.2) sum = some key ∧
      combineToSingleKeyWith 0 (fields'.map fun field => keyInfoOf field.1 field.2) sum =
        some key' ∧ key ≠ key'

/-- Every field but the last leaves half of its last byte unused, and the last one is written whole
and inside the key. -/
def PacksApart (widths : List Nat) (sum : Nat) : Prop :=
  (∀ width ∈ widths.dropLast, 4 ≤ padding width) ∧
    ∀ last ∈ widths.getLast?, Whole (widths.dropLast.map moved).sum last ∧
      reach (widths.dropLast.map moved).sum last ≤ bytesFor (sum % 2 ^ 16)

private theorem pair_injective {width high low high' low' : Nat} (small : low < 2 ^ width)
    (small' : low' < 2 ^ width) (same : high * 2 ^ width + low = high' * 2 ^ width + low') :
    high = high' ∧ low = low' := by
  have lows := congrArg (· % 2 ^ width) same
  simp only [Nat.mul_add_mod_self_right, Nat.mod_eq_of_lt small, Nat.mod_eq_of_lt small'] at lows
  rw [lows] at same
  exact ⟨Nat.eq_of_mul_eq_mul_right (Nat.two_pow_pos width) (Nat.add_right_cancel same), lows⟩

private theorem spread_injective {fields fields' : List (Nat × Nat)}
    (widths : fields.map Prod.fst = fields'.map Prod.fst)
    (small : ∀ field ∈ fields, field.2 < 2 ^ field.1) (small' : ∀ field ∈ fields', field.2 < 2 ^ field.1)
    (same : spread fields = spread fields') : fields = fields' := by
  induction fields using List.reverseRecOn generalizing fields' with
  | nil => exact (List.map_eq_nil_iff.mp widths.symm).symm
  | append_singleton fields field ih =>
      induction fields' using List.reverseRecOn with
      | nil => simp at widths
      | append_singleton fields' field' =>
          rw [List.map_append, List.map_append, List.map_singleton, List.map_singleton] at widths
          obtain ⟨fronts, lasts⟩ := List.append_inj' widths rfl
          have width : field.1 = field'.1 := List.cons.inj lasts |>.1
          have last := small field (List.mem_append_right _ List.mem_cons_self)
          have last' := small' field' (List.mem_append_right _ List.mem_cons_self)
          rw [spread_append, spread_append, ← width] at same
          have parts := Nat.eq_of_mul_eq_mul_right (Nat.two_pow_pos _) same
          obtain ⟨high, low⟩ := pair_injective last (width ▸ last') parts
          have front := ih fronts (fun other member => small other (List.mem_append_left _ member))
            (fun other member => small' other (List.mem_append_left _ member)) high
          rw [front, Prod.ext width low]

variable {occurs : List (Nat × Nat) → Prop} {widths : List Nat} {sum : Nat}

/-- The last field, zero bits wide where there is none. -/
private def lastWidth (widths : List Nat) : Nat := widths.getLast?.getD 0

private def keyEnd (widths : List Nat) : Nat := (widths.dropLast.map moved).sum + lastWidth widths

private theorem combine_apart {fields : List (Nat × Nat)} (nonempty : fields ≠ [])
    (positive : ∀ field ∈ fields, 0 < field.1)
    (small : ∀ field ∈ fields, field.2 < 2 ^ field.1) (apart : PacksApart (fields.map Prod.fst) sum) :
    ∃ bits, combineToSingleKeyWith 0 (fields.map fun field => keyInfoOf field.1 field.2) sum =
        some (beBytes (bytesFor (sum % 2 ^ 16))
          (bits * 2 ^ (8 * bytesFor (sum % 2 ^ 16) - keyEnd (fields.map Prod.fst)))) ∧
      bits < 2 ^ keyEnd (fields.map Prod.fst) ∧ keyEnd (fields.map Prod.fst) ≤ 8 * bytesFor (sum % 2 ^ 16) ∧
      spread fields = bits * 2 ^ (moved (lastWidth (fields.map Prod.fst)) -
        lastWidth (fields.map Prod.fst)) := by
  obtain ⟨front, last, rfl⟩ : ∃ front last, fields = front ++ [last] :=
    ⟨fields.dropLast, fields.getLast nonempty, (List.dropLast_concat_getLast nonempty).symm⟩
  obtain ⟨halves, fits⟩ := apart
  rw [List.map_append, List.map_singleton, List.dropLast_concat] at halves fits
  obtain ⟨whole, room⟩ := fits last.1 (by simp)
  have place : ((front.map Prod.fst).map moved).sum = movedSum front := by
    rw [List.map_map]
    rfl
  have isLast : lastWidth ((front ++ [last]).map Prod.fst) = last.1 := by simp [lastWidth]
  have isEnd : keyEnd ((front ++ [last]).map Prod.fst) = movedSum front + last.1 := by
    rw [keyEnd, isLast, List.map_append, List.map_singleton, List.dropLast_concat, place]
  rw [place] at whole room
  have early : ∀ other ∈ front, 4 ≤ padding other.1 ∧ 0 < other.1 := fun other member =>
    ⟨halves other.1 (List.mem_map_of_mem member), positive other (List.mem_append_left _ member)⟩
  have earlySmall : ∀ other ∈ front, other.2 < 2 ^ other.1 :=
    fun other member => small other (List.mem_append_left _ member)
  have listed : last ∈ front ++ [last] := List.mem_append_right _ List.mem_cons_self
  have wide := width_add_padding last.1
  refine ⟨spread front * 2 ^ last.1 + last.2, ?_, ?_, ?_, ?_⟩
  · rw [isEnd]
    exact combine_last early earlySmall (positive last listed) (small last listed) whole room
  · rw [isEnd]
    exact concat_lt (spread_lt early earlySmall) (small last listed)
  · rw [isEnd]
    unfold Whole at whole
    unfold reach at room
    have less := padding_lt last.1
    split at room <;> omega
  · rw [isLast]
    exact spread_append front last

theorem keysApart_of (positive : ∀ width ∈ widths, 0 < width)
    (values : ∀ fields, occurs fields → fields.map Prod.fst = widths ∧ ∀ field ∈ fields,
      field.2 < 2 ^ field.1)
    (apart : PacksApart widths sum) : KeysApart occurs sum := by
  intro fields fields' here here' different
  obtain ⟨isWidths, small⟩ := values fields here
  obtain ⟨isWidths', small'⟩ := values fields' here'
  have wide : ∀ field ∈ fields, 0 < field.1 := fun field member =>
    positive field.1 (isWidths ▸ List.mem_map_of_mem member)
  have wide' : ∀ field ∈ fields', 0 < field.1 := fun field member =>
    positive field.1 (isWidths' ▸ List.mem_map_of_mem member)
  have some : fields ≠ [] := by
    rintro rfl
    exact different (List.map_eq_nil_iff.mp (isWidths'.trans isWidths.symm)).symm
  have some' : fields' ≠ [] := by
    rintro rfl
    exact some (List.map_eq_nil_iff.mp (isWidths.trans isWidths'.symm))
  obtain ⟨bits, ours, bound, fits, spreads⟩ := combine_apart some wide small (isWidths.symm ▸ apart)
  obtain ⟨bits', theirs, bound', _, spreads'⟩ := combine_apart some' wide' small' (isWidths'.symm ▸ apart)
  rw [isWidths] at ours bound fits spreads
  rw [isWidths'] at theirs bound' spreads'
  refine ⟨_, _, ours, theirs, fun same => different ?_⟩
  have inside (bits : Nat) (bound : bits < 2 ^ keyEnd widths) :
      bits * 2 ^ (8 * bytesFor (sum % 2 ^ 16) - keyEnd widths) < 256 ^ bytesFor (sum % 2 ^ 16) := by
    calc
      _ < 2 ^ keyEnd widths * 2 ^ (8 * bytesFor (sum % 2 ^ 16) - keyEnd widths) :=
        Nat.mul_lt_mul_of_pos_right bound (Nat.two_pow_pos _)
      _ = 256 ^ bytesFor (sum % 2 ^ 16) := by rw [← Nat.pow_add, Nat.add_sub_cancel' fits, pow_256]
  have value := congrArg beVal same
  rw [beVal_beBytes, beVal_beBytes, Nat.mod_eq_of_lt (inside bits bound),
    Nat.mod_eq_of_lt (inside bits' bound')] at value
  have equal := Nat.eq_of_mul_eq_mul_right (Nat.two_pow_pos _) value
  exact spread_injective (isWidths.trans isWidths'.symm) small small' (by rw [spreads, spreads', equal])

/-! ### Keys that coincide -/

theorem oneValue_infos (front : List Nat) (width value : Nat) (back : List Nat) :
    (oneValue front width value back).map (fun field => keyInfoOf field.1 field.2) =
      front.map (keyInfoOf · 0) ++ keyInfoOf width value :: back.map (keyInfoOf · 0) := by
  simp [oneValue, Function.comp_def]

private theorem oneValue_ne_zero {front back : List Nat} {width value : Nat} (some : value ≠ 0) :
    oneValue front width value back ≠ (front ++ width :: back).map fun width => (width, 0) := by
  intro same
  simp [oneValue] at same
  exact some same

section
variable (positive : ∀ width ∈ widths, 0 < width)
  (zero : occurs (widths.map fun width => (width, 0)))
  (bits : ∀ front width bit back, widths = front ++ width :: back → bit < width →
    occurs (oneValue front width (2 ^ (width - 1 - bit)) back))
  (apart : KeysApart occurs sum)

include positive zero bits apart

private theorem bit_kept {front back : List Nat} {width bit : Nat} (split : widths = front ++ width :: back)
    (within : bit < width) :
    reach (front.map moved).sum width ≤ bytesFor (sum % 2 ^ 16) ∧ ¬ Dropped (front.map moved).sum width bit ∧
      combineToSingleKeyWith 0 ((oneValue front width (2 ^ (width - 1 - bit)) back).map
          fun field => keyInfoOf field.1 field.2) sum =
        some (beBytes (bytesFor (sum % 2 ^ 16))
          (2 ^ (8 * bytesFor (sum % 2 ^ 16) - 1 - ((front.map moved).sum + bit)))) := by
  have different : oneValue front width (2 ^ (width - 1 - bit)) back ≠ widths.map fun width =>
      (width, 0) := by
    rw [split]
    exact oneValue_ne_zero (Nat.two_pow_pos _).ne'
  obtain ⟨key, blank, combined, zeros, differ⟩ :=
    apart _ _ (bits front width bit back split within) zero different
  rw [List.map_map] at zeros
  have isBlank := combine_zeros zeros
  have infos := combined
  rw [oneValue_infos] at infos
  obtain ⟨room, dropped, kept⟩ :=
    combine_bit (fun other member => positive other (by simp [split, member])) within infos
  have here : ¬ Dropped (front.map moved).sum width bit :=
    fun lost => differ ((dropped lost).trans isBlank.symm)
  exact ⟨room, here, combined.trans (congrArg some (kept here))⟩

private theorem packsApart_of : PacksApart widths sum := by
  constructor
  · intro width early
    obtain ⟨front, next, back, split⟩ := exists_next early
    have wide : 0 < width := positive width (by simp [split])
    have count := bytesFor_pos wide
    have own := width_add_padding width
    by_contra few
    -- the bit the next field starts on
    have within : moved width < width := by
      unfold moved
      omega
    obtain ⟨_, _, ours⟩ := bit_kept positive zero bits apart split within
    have nextSplit : widths = (front ++ [width]) ++ next :: back := by
      rw [split, List.append_assoc, List.singleton_append]
    obtain ⟨_, _, theirs⟩ := bit_kept positive zero bits apart nextSplit (positive next (by simp [split]))
    have different : oneValue front width (2 ^ (width - 1 - moved width)) (next :: back) ≠
        oneValue (front ++ [width]) next (2 ^ (next - 1 - 0)) back := by
      intro same
      simp [oneValue] at same
    obtain ⟨key, key', combined, combined', differ⟩ := apart _ _ (bits _ _ _ _ split within)
      (bits _ _ _ _ nextSplit (positive next (by simp [split]))) different
    rw [ours] at combined
    rw [theirs, List.map_append, List.sum_append, List.map_singleton, List.sum_singleton,
      Nat.add_zero] at combined'
    exact differ (Option.some.inj (combined.symm.trans combined'))
  · intro last isLast
    obtain ⟨front, split⟩ := List.getLast?_eq_some_iff.mp isLast
    have wide : 0 < last := positive last (by simp [split])
    have own := width_add_padding last
    have less := padding_lt last
    obtain ⟨room, kept, _⟩ := bit_kept positive zero bits apart split (Nat.sub_one_lt wide.ne')
    rw [split, List.dropLast_concat]
    refine ⟨?_, room⟩
    by_contra cut
    apply kept
    unfold Whole at cut
    unfold Dropped
    omega

end

/-- Provided that all single bits occur, the packer keeps values apart exactly where it loses no bit. -/
theorem keysApart_iff (positive : ∀ width ∈ widths, 0 < width)
    (values : ∀ fields, occurs fields → fields.map Prod.fst = widths ∧ ∀ field ∈ fields,
      field.2 < 2 ^ field.1)
    (zero : occurs (widths.map fun width => (width, 0)))
    (bits : ∀ front width bit back, widths = front ++ width :: back → bit < width →
      occurs (oneValue front width (2 ^ (width - 1 - bit)) back)) :
    KeysApart occurs sum ↔ PacksApart widths sum :=
  ⟨packsApart_of positive zero bits, keysApart_of positive values⟩

end Ipbm.Dataplane
