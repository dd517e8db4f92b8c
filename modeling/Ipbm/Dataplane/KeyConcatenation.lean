import Ipbm.Dataplane.Matcher
import Ipbm.Dataplane.KeyLayout

/-! The key a packer should build is the concatenation of its fields. The matcher's packer
concatenates only fields that end in the middle of a byte. -/

set_option autoImplicit false

namespace Ipbm.Dataplane
open Lib

/-- The bits of the fields one behind the other, as one number. -/
def concatBits (fields : List (Nat × Nat)) : Nat :=
  fields.foldl (fun bits field => bits * 2 ^ field.1 + field.2) 0

def widthSum (fields : List (Nat × Nat)) : Nat := (fields.map Prod.fst).sum

/-- The matcher's packer concatenates every list of values of these widths. -/
def Concatenates (widths : List Nat) : Prop :=
  ∀ fields : List (Nat × Nat), fields.map Prod.fst = widths → (∀ field ∈ fields, field.2 < 2 ^ field.1) →
    MatcherThread.combineToSingleKey (fields.map fun field => keyInfoOf field.1 field.2) widths.sum =
      some (keyInfoOf widths.sum (concatBits fields)).field

@[simp] theorem concatBits_nil : concatBits [] = 0 := rfl

theorem concatBits_append (fields : List (Nat × Nat)) (field : Nat × Nat) :
    concatBits (fields ++ [field]) = concatBits fields * 2 ^ field.1 + field.2 := by
  simp [concatBits]

@[simp] theorem widthSum_nil : widthSum [] = 0 := rfl

theorem widthSum_append (fields : List (Nat × Nat)) (field : Nat × Nat) :
    widthSum (fields ++ [field]) = widthSum fields + field.1 := by
  simp [widthSum]

/-! ### Fields that end in the middle of a byte -/

private theorem padding_half {width : Nat} (half : width % 8 = 4) : padding width = 4 := by
  unfold padding bytesFor
  omega

private theorem moved_half {width : Nat} (half : width % 8 = 4) : moved width = width := by
  unfold moved padding bytesFor
  omega

private theorem spread_halves (fields : List (Nat × Nat)) (halves : ∀ field ∈ fields, field.1 % 8 = 4) :
    spread fields = concatBits fields ∧ movedSum fields = widthSum fields ∧
      widthSum fields % 8 = fields.length % 2 * 4 := by
  induction fields using List.reverseRecOn with
  | nil => exact ⟨rfl, rfl, rfl⟩
  | append_singleton fields field ih =>
      have half := halves field (List.mem_append_right _ List.mem_cons_self)
      obtain ⟨bits, place, parity⟩ := ih fun other member => halves other (List.mem_append_left _ member)
      rw [spread_append, concatBits_append, movedSum_append, widthSum_append, moved_half half, bits,
        place, Nat.sub_self, Nat.pow_zero, Nat.mul_one, List.length_append, List.length_singleton]
      exact ⟨rfl, rfl, by omega⟩

private theorem concatenates_halves {widths : List Nat} (positive : ∀ width ∈ widths, 0 < width)
    (short : widths.sum < 2 ^ 16) (halves : ∀ width ∈ widths.dropLast, width % 8 = 4)
    (even : widths.length % 2 = 0 → ∀ width ∈ widths, width % 8 = 4) : Concatenates widths := by
  intro fields isWidths small
  subst isWidths
  induction fields using List.reverseRecOn with
  | nil => rfl
  | append_singleton fields field =>
      rw [List.map_append, List.map_singleton] at positive halves even short
      rw [List.dropLast_concat] at halves
      have half : ∀ other ∈ fields, other.1 % 8 = 4 :=
        fun other member => halves _ (List.mem_map_of_mem member)
      have before : ∀ other ∈ fields, other.2 < 2 ^ other.1 := fun other member =>
        small other (List.mem_append_left _ member)
      have lastPositive : 0 < field.1 := positive field.1 (List.mem_append_right _ List.mem_cons_self)
      have total : ((fields ++ [field]).map Prod.fst).sum = widthSum fields + field.1 :=
        widthSum_append fields field
      rw [← List.map_singleton, ← List.map_append, total] at short
      rw [total]
      have fits := width_add_padding (widthSum fields + field.1)
      have own := width_add_padding field.1
      have unused := padding_lt field.1
      obtain ⟨bits, place, used⟩ := spread_halves fields half
      have spare : fields.length % 2 = 0 ∨ fields.length % 2 = 1 ∧ padding field.1 = 4 := by
        cases Nat.mod_two_eq_zero_or_one fields.length with
        | inl start => exact .inl start
        | inr middle =>
            have last :=
              even (by simp only [List.length_append, List.length_map, List.length_singleton]; omega)
              field.1 (List.mem_append_right _ List.mem_cons_self)
            exact .inr ⟨middle, padding_half last⟩
      have early : ∀ other ∈ fields, 4 ≤ padding other.1 ∧ 0 < other.1 := fun other member =>
        ⟨(padding_half (half other member)).ge,
          Nat.pos_of_ne_zero fun zero => by have := half other member; omega⟩
      have combined := @combine_last fields field (widthSum fields + field.1) early before lastPositive
        (small field (List.mem_append_right _ List.mem_cons_self)) (by unfold Whole; omega)
        (by rw [Nat.mod_eq_of_lt short]; unfold reach; split <;> omega)
      rw [Nat.mod_eq_of_lt short, bits, place, ← concatBits_append] at combined
      exact combined

/-! ### All others -/

private theorem foldl_zeros (bits : Nat) (widths : List Nat) :
    (widths.map fun width => (width, 0)).foldl (fun bits field => bits * 2 ^ field.1 + field.2) bits =
      bits * 2 ^ widths.sum := by
  induction widths generalizing bits with
  | nil => simp
  | cons width widths ih =>
      rw [List.map_cons, List.foldl_cons, ih, List.sum_cons, Nat.pow_add, Nat.add_zero, Nat.mul_assoc]

private theorem concatBits_oneValue (front : List Nat) (width value : Nat) (back : List Nat) :
    concatBits (oneValue front width value back) = value * 2 ^ back.sum := by
  rw [concatBits, oneValue, List.foldl_append, List.foldl_cons, foldl_zeros, foldl_zeros]
  simp

private theorem concatenates_oneValue {front back : List Nat} {width value : Nat}
    (positive : ∀ other ∈ front ++ width :: back, 0 < other) (small : value < 2 ^ width)
    (concatenates : Concatenates (front ++ width :: back)) :
    (front ++ width :: back).sum < 2 ^ 16 ∧
      combineToSingleKeyWith 0 (front.map (keyInfoOf · 0) ++ keyInfoOf width value ::
        back.map (keyInfoOf · 0))
          (front ++ width :: back).sum =
        some (keyInfoOf (front ++ width :: back).sum (value * 2 ^ back.sum)).field := by
  have combined := concatenates (oneValue front width value back)
    (by simp [oneValue, Function.comp_def]) (by
      intro field member
      rw [oneValue, List.mem_append, List.mem_cons] at member
      rcases member with early | rfl | late
      · obtain ⟨other, _, rfl⟩ := List.mem_map.mp early
        exact Nat.two_pow_pos other
      · exact small
      · obtain ⟨other, _, rfl⟩ := List.mem_map.mp late
        exact Nat.two_pow_pos other)
  have infos : (oneValue front width value back).map (fun field => keyInfoOf field.1 field.2) =
      front.map (keyInfoOf · 0) ++ keyInfoOf width value :: back.map (keyInfoOf · 0) := by
    simp [oneValue, Function.comp_def]
  rw [infos, concatBits_oneValue] at combined
  refine ⟨?_, combined⟩
  have length := length_combineToSingleKeyWith (by
    intro info member
    rw [← infos] at member
    obtain ⟨field, listed, rfl⟩ := List.mem_map.mp member
    apply List.length_pos_iff.mp
    have inside : field.1 ∈ front ++ width :: back := by
      have widths : (oneValue front width value back).map Prod.fst = front ++ width :: back := by
        simp [oneValue, Function.comp_def]
      rw [← widths]
      exact List.mem_map_of_mem listed
    simpa using bytesFor_pos (positive _ inside)) combined
  rw [length_keyInfoOf_field, bytesFor, bytesFor] at length
  omega

private theorem keyInfoOf_power {total exponent : Nat} (small : exponent < total) :
    (keyInfoOf total (2 ^ exponent)).field =
      beBytes (bytesFor total) (2 ^ (8 * bytesFor total - 1 - (total - 1 - exponent))) := by
  have wide := width_add_padding total
  have place : 8 * bytesFor total - 1 - (total - 1 - exponent) = exponent + padding total := by omega
  rw [keyInfoOf, place, Nat.pow_add]

private theorem beBytes_power {size first second : Nat} (firstSmall : first < 8 * size)
    (secondSmall : second < 8 * size) (same : beBytes size (2 ^ first) = beBytes size (2 ^ second)) :
    first = second := by
  have values := congrArg beVal same
  rw [beVal_beBytes, beVal_beBytes, pow_256, Nat.mod_eq_of_lt (Nat.pow_lt_pow_right (by decide) firstSmall),
    Nat.mod_eq_of_lt (Nat.pow_lt_pow_right (by decide) secondSmall)] at values
  exact Nat.pow_right_injective le_rfl values

/-- A one bit at the start of a field shows where the packer put the field. -/
theorem Concatenates.moved_sum {front back : List Nat} {width : Nat}
    (positive : ∀ other ∈ front ++ width :: back, 0 < other)
    (concatenates : Concatenates (front ++ width :: back)) : (front.map moved).sum = front.sum := by
  have wide : 0 < width := positive width (List.mem_append_right _ List.mem_cons_self)
  obtain ⟨short, combined⟩ := @concatenates_oneValue front back width (2 ^ (width - 1 - 0)) positive
    (Nat.pow_lt_pow_right (by decide) (by omega)) concatenates
  have total : (front ++ width :: back).sum = front.sum + width + back.sum := by
    rw [List.sum_append, List.sum_cons, Nat.add_assoc]
  obtain ⟨inside, -, kept⟩ :=
    combine_bit (fun other member => positive other (List.mem_append_left _ member)) wide
    combined
  rw [Nat.mod_eq_of_lt short, total] at inside kept
  have count := bytesFor_pos wide
  have here : ¬ Dropped (front.map moved).sum width 0 := by
    unfold Dropped
    omega
  have size := width_add_padding (front.sum + width + back.sum)
  have equal := kept here
  rw [← Nat.pow_add, keyInfoOf_power (by omega)] at equal
  unfold reach at inside
  have exponents := beBytes_power (by omega) (by omega) equal
  omega

private theorem half_of_moved {width : Nat} (positive : 0 < width) (same : moved width = width) :
    width % 8 = 4 := by
  have count := bytesFor_pos positive
  have wide := width_add_padding width
  have less := padding_lt width
  rw [moved] at same
  omega

private theorem Concatenates.halves {widths : List Nat} (positive : ∀ width ∈ widths, 0 < width)
    (concatenates : Concatenates widths) : ∀ width ∈ widths.dropLast, width % 8 = 4 := by
  intro width early
  obtain ⟨front, next, back, rfl⟩ := exists_next early
  have before := concatenates.moved_sum positive
  have split : front ++ width :: next :: back = (front ++ [width]) ++ next :: back := by
    rw [List.append_assoc, List.singleton_append]
  rw [split] at concatenates positive
  have after := concatenates.moved_sum positive
  rw [List.map_append, List.sum_append, List.sum_append, before, List.map_singleton, List.sum_singleton,
    List.sum_singleton] at after
  exact half_of_moved (positive width (by simp)) (Nat.add_left_cancel after)

private theorem Concatenates.last_half {front : List Nat} {width : Nat}
    (positive : ∀ other ∈ front ++ [width], 0 < other) (halves : ∀ other ∈ front, other % 8 = 4)
    (odd : front.length % 2 = 1) (concatenates : Concatenates (front ++ [width])) : width % 8 = 4 := by
  have wide : 0 < width := positive width (List.mem_append_right _ List.mem_cons_self)
  -- the lowest bit of the field
  obtain ⟨short, combined⟩ := @concatenates_oneValue front [] width (2 ^ (width - 1 - (width - 1))) positive
    (Nat.pow_lt_pow_right (by decide) (by omega)) concatenates
  obtain ⟨inside, lost, -⟩ := combine_bit (fun other member => positive other (List.mem_append_left _ member))
    (Nat.sub_one_lt wide.ne') combined
  have total : (front ++ [width]).sum = front.sum + width := by rw [List.sum_append, List.sum_singleton]
  have place : (front.map moved).sum = front.sum ∧ front.sum % 8 = 4 := by
    obtain ⟨_, place, used⟩ := spread_halves (front.map fun width => (width, 0)) (by
      intro field member
      obtain ⟨other, listed, rfl⟩ := List.mem_map.mp member
      exact halves other listed)
    simp only [movedSum, widthSum, List.map_map, Function.comp_def, List.length_map, List.map_id',
      odd] at place used
    exact ⟨place, used⟩
  rw [Nat.mod_eq_of_lt short, total, place.1] at inside lost
  have size := width_add_padding (front.sum + width)
  have spare := padding_lt (front.sum + width)
  have own := width_add_padding width
  have less := padding_lt width
  unfold reach at inside
  by_contra other
  by_cases many : 4 < padding width
  · rw [if_pos (by omega)] at inside
    omega
  · have dropped : Dropped front.sum width (width - 1) := by
      unfold Dropped
      omega
    have zero := lost dropped
    rw [Nat.sub_self, Nat.pow_zero, List.sum_nil, Nat.pow_zero, Nat.mul_one] at zero
    have value := congrArg beVal zero
    rw [beVal_replicate_zero, keyInfoOf, beVal_beBytes, Nat.one_mul, pow_256,
      Nat.mod_eq_of_lt (Nat.pow_lt_pow_right (by decide) (by omega))] at value
    exact absurd value (Nat.two_pow_pos _).ne'

/-- The packer concatenates exactly fields of a half byte more than whole bytes, the last of an odd
number of fields excepted. -/
theorem concatenates_iff (widths : List Nat) (positive : ∀ width ∈ widths, 0 < width) :
    Concatenates widths ↔
      widths.sum < 2 ^ 16 ∧ (∀ width ∈ widths.dropLast, width % 8 = 4) ∧
        (widths.length % 2 = 0 → ∀ width ∈ widths, width % 8 = 4) := by
  constructor
  · intro concatenates
    have halves := concatenates.halves positive
    induction widths using List.reverseRecOn with
    | nil => exact ⟨by decide, halves, fun _ _ member => by cases member⟩
    | append_singleton front width =>
        rw [List.dropLast_concat] at halves ⊢
        refine ⟨?_, halves, fun even other member => ?_⟩
        · exact (@concatenates_oneValue front [] width 0 positive (Nat.two_pow_pos width) concatenates).1
        · cases List.mem_append.mp member with
          | inl early => exact halves other early
          | inr last =>
              obtain rfl := List.mem_singleton.mp last
              rw [List.length_append, List.length_singleton] at even
              exact concatenates.last_half positive halves (by omega)
  · intro ⟨short, halves, even⟩
    exact concatenates_halves positive short halves even

theorem concatenates_version_and_flags : Concatenates [4, 12, 8] :=
  (concatenates_iff [4, 12, 8] (by decide)).mpr (by decide)

/-- Two byte fields that both hold 5 give 10 0, and the twelve and ten bits of the repository's
own test write a byte behind the key. -/
theorem not_concatenates_bytes :
    MatcherThread.combineToSingleKey [keyInfoOf 8 5, keyInfoOf 8 5] 16 = some [10, 0] ∧
      MatcherThread.combineToSingleKey [keyInfoOf 12 0x6BF, keyInfoOf 10 0] 22 = none ∧
      ¬ Concatenates [8, 8] := by
  refine ⟨by decide, by decide, fun concatenates => ?_⟩
  have halves := concatenates.halves (by decide)
  exact absurd (halves 8 (by decide)) (by decide)

end Ipbm.Dataplane
