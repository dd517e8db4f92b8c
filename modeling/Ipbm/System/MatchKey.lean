import Ipbm.System.TableEntry

/-! The two sides of a lookup build their keys with two copies of one packer. The
keys are the same for one field and differ for some packet from two fields on. -/

set_option autoImplicit false

namespace Ipbm.System
open Lib Dataplane Controller

/-- The key of an update is the key of every packet that carries its values. -/
def SameMatchKey (widths : List Nat) : Prop :=
  ∀ (keys : List (Nat × Nat)) (thread : MatcherThread) (phv : Phv), keys.map Prod.fst = widths →
    (∀ key ∈ keys, key.2 < 2 ^ key.1) → phv.packet.length = frontHeaderLen + metaLen →
    List.Forall₂ (fun fd key => fd.fdLen = key.1 ∧ Carries phv fd key.2) thread.fdInfos keys →
    ∃ key, extractExact (keys.map updateField) = some (key, key.length) ∧ thread.matchKey phv = some key

/-- Bits of the packet buffer. -/
def packetBits : Nat := 8 * (frontHeaderLen + metaLen)

/-- A packet whose fields start at the given offsets. -/
def packetPhv (packet : List UInt8) : Phv := { Phv.fresh with packet }

def fieldsAt (layout : List (Nat × Nat)) : List FieldInfo :=
  layout.map fun field => ⟨0, field.1, field.2, .field⟩

def valuesAt (packet : List UInt8) (layout : List (Nat × Nat)) : List (Nat × Nat) :=
  layout.map fun field => (field.2, bitSlice packet field.1 field.2)

private theorem fieldsAt_carry {packet : List UInt8} {layout : List (Nat × Nat)}
    (inside : ∀ field ∈ layout, field.1 + field.2 ≤ 8 * packet.length) :
    List.Forall₂ (fun fd key => fd.fdLen = key.1 ∧ Carries (packetPhv packet) fd key.2) (fieldsAt layout)
      (valuesAt packet layout) := by
  rw [fieldsAt, valuesAt, List.forall₂_map_left_iff, List.forall₂_map_right_iff, List.forall₂_same]
  intro field member
  refine ⟨rfl, ?_⟩
  rw [Carries, if_neg (by simp)]
  refine ⟨{}, rfl, ?_, ?_⟩
  · rw [Nat.zero_add]
    exact inside field member
  · simp [packetPhv]

private theorem sameMatchKey_agree {widths : List Nat} (same : SameMatchKey widths) {packet : List UInt8}
    {layout : List (Nat × Nat)} (length : packet.length = frontHeaderLen + metaLen)
    (listed : layout.map Prod.snd = widths) (positive : ∀ width ∈ widths, 0 < width)
    (inside : ∀ field ∈ layout, field.1 + field.2 ≤ 8 * packet.length) :
    ∃ key, combineToSingleKeyWith 1 ((valuesAt packet layout).map fun key => keyInfoOf key.1 key.2)
      widths.sum =
        some key ∧
      combineToSingleKeyWith 0 ((valuesAt packet layout).map fun key => keyInfoOf key.1 key.2) widths.sum =
        some key := by
  have isWidths : (valuesAt packet layout).map Prod.fst = widths := by
    rw [← listed, valuesAt, List.map_map]
    rfl
  have wide : ∀ key ∈ valuesAt packet layout, 0 < key.1 := fun key member =>
    positive key.1 (isWidths ▸ List.mem_map_of_mem member)
  have small : ∀ key ∈ valuesAt packet layout, key.2 < 2 ^ key.1 := by
    intro key member
    obtain ⟨field, _, rfl⟩ := List.mem_map.mp member
    exact bitSlice_lt _ _ _
  have carried := fieldsAt_carry inside
  obtain ⟨key, controller, matcher⟩ :=
    same (valuesAt packet layout) { procId := 0, fdInfos := fieldsAt layout }
      (packetPhv packet) isWidths small length carried
  rw [extractExact, packUpdate_eq wide, isWidths] at controller
  obtain ⟨packed, combined, equal⟩ := Option.map_eq_some_iff.mp controller
  have isKey : packed = key := (Prod.mk.inj equal).1
  subst isKey
  rw [matchKey_carries wide carried, isWidths] at matcher
  exact ⟨packed, combined, matcher⟩

private theorem bitSlice_top {width : Nat} (positive : 0 < width) (back : List UInt8) :
    bitSlice (128 :: List.replicate (bytesFor width - 1) 0 ++ back) 0 width = 2 ^ (width - 1) := by
  have own := width_add_padding width
  have small : 2 ^ (width - 1) < 2 ^ width := Nat.pow_lt_pow_right (by decide) (by omega)
  have embedded := bitSlice_embedded [] back (bytesFor width) width (2 ^ (width - 1)) (by omega) small
  rw [← keyInfoOf_top positive]
  exact embedded

private theorem zero_first {byte : UInt8} {width : Nat} (positive : 0 < width) (fits : width ≤ packetBits) :
    ∃ tail, (keyInfoOf width (bitSlice (List.replicate 1599 0 ++ [byte]) 0 width)).field = 0 :: tail := by
  have bits : packetBits = 12800 := rfl
  have value : beVal (List.replicate 1599 0 ++ [byte]) = byte.toNat := by
    rw [beVal_append, beVal_replicate_zero, beVal_cons, beVal_nil]
    simp
  have own := width_add_padding width
  have padded := padding_lt width
  obtain ⟨front, bytes⟩ : ∃ front, bytesFor width = front + 1 :=
    ⟨bytesFor width - 1, by have := bytesFor_pos positive; omega⟩
  have low : bitSlice (List.replicate 1599 0 ++ [byte]) 0 width * 2 ^ padding width < 256 ^ front := by
    rw [bitSlice, value, List.length_append, List.length_replicate, List.length_singleton, Nat.zero_add]
    by_cases short : width ≤ 12792
    · have shift : 2 ^ 8 ≤ 2 ^ (8 * (1599 + 1) - width) := Nat.pow_le_pow_right (by decide) (by omega)
      rw [Nat.div_eq_of_lt ((byte_lt byte).trans_le shift), Nat.zero_mod, Nat.zero_mul]
      exact Nat.pow_pos (by decide)
    · have many : 256 ^ 2 ≤ 256 ^ front := Nat.pow_le_pow_right (by decide) (by omega)
      have bound : byte.toNat / 2 ^ (8 * (1599 + 1) - width) % 2 ^ width ≤ 255 :=
        (Nat.mod_le _ _).trans ((Nat.div_le_self _ _).trans (Nat.le_of_lt_succ (byte_lt byte)))
      have scale : 2 ^ padding width ≤ 2 ^ 7 := Nat.pow_le_pow_right (by decide) (by omega)
      calc
        _ ≤ 255 * 2 ^ 7 := Nat.mul_le_mul bound scale
        _ < 256 ^ 2 := by decide
        _ ≤ 256 ^ front := many
  refine ⟨beBytes front (bitSlice (List.replicate 1599 0 ++ [byte]) 0 width * 2 ^ padding width), ?_⟩
  rw [keyInfoOf, bytes]
  simp only [beBytes, Nat.div_eq_of_lt low]
  rfl

section Two

variable {first second : Nat} {others : List Nat}

private theorem sameMatchKey_two_short
    (fits : ∀ width ∈ first :: second :: others, 0 < width ∧ width ≤ packetBits)
    (short : second ≤ 8) : ¬ SameMatchKey (first :: second :: others) := by
  intro same
  have bits : packetBits = 12800 := rfl
  have positive : ∀ width ∈ first :: second :: others, 0 < width := fun width member => (fits width member).1
  obtain ⟨firstWide, firstFits⟩ := fits first (by simp)
  obtain ⟨secondWide, secondFits⟩ := fits second (by simp)
  let packet : List UInt8 := List.replicate 1599 0 ++ [u8 (2 ^ (second - 1))]
  let layout : List (Nat × Nat) := (0, first) :: (12800 - second, second) :: others.map (0, ·)
  have top : bitSlice packet (12800 - second) second = 2 ^ (second - 1) := by
    have moved := bitSlice_append_right (List.replicate 1599 0) [u8 (2 ^ (second - 1))] (8 - second) second
      (by simp only [List.length_singleton]; omega)
    rw [List.length_replicate, show 8 * 1599 + (8 - second) = 12800 - second by omega] at moved
    rw [moved, bitSlice, beVal_cons, beVal_nil, toNat_u8]
    interval_cases second <;> rfl
  have packetLength : packet.length = frontHeaderLen + metaLen := by
    rw [List.length_append, List.length_replicate, List.length_singleton]
    rfl
  obtain ⟨key, ours, theirs⟩ := @sameMatchKey_agree _ same packet layout packetLength
    (by simp [layout, Function.comp_def]) positive (by
      intro field member
      simp only [packet, List.length_append, List.length_replicate, List.length_singleton]
      simp only [layout, List.mem_cons, List.mem_map] at member
      rcases member with rfl | rfl | ⟨width, listed, rfl⟩
      · simp only
        omega
      · simp only
        omega
      · have bound := (fits width (by simp [listed])).2
        simp only
        omega)
  have field : (keyInfoOf second (bitSlice packet (12800 - second) second)).field =
      128 :: List.replicate (bytesFor second - 1) 0 := by
    rw [top]
    exact keyInfoOf_top secondWide
  refine combineToSingleKeyWith_second firstWide field (.inr ?_) ours theirs
  intro info member
  simp only [List.map_map, List.mem_map, Function.comp_apply] at member
  obtain ⟨width, listed, rfl⟩ := member
  exact zero_first (fits width (by simp [listed])).1 (fits width (by simp [listed])).2

private theorem sameMatchKey_two_long
    (fits : ∀ width ∈ first :: second :: others, 0 < width ∧ width ≤ packetBits)
    (long : 8 < second) : ¬ SameMatchKey (first :: second :: others) := by
  intro same
  have bits : packetBits = 12800 := rfl
  have positive : ∀ width ∈ first :: second :: others, 0 < width := fun width member => (fits width member).1
  obtain ⟨firstWide, _⟩ := fits first (by simp)
  obtain ⟨secondWide, secondFits⟩ := fits second (by simp)
  have secondBytes : bytesFor second = (second + 7) / 8 := rfl
  let packet : List UInt8 := 128 :: List.replicate 1599 0
  let layout : List (Nat × Nat) := (first :: second :: others).map (0, ·)
  have top : bitSlice packet 0 second = 2 ^ (second - 1) := by
    have split : packet = 128 :: List.replicate (bytesFor second - 1) 0 ++
        List.replicate (1600 - bytesFor second) 0 := by
      rw [List.cons_append, List.replicate_append_replicate,
        show bytesFor second - 1 + (1600 - bytesFor second) = 1599 by omega]
    rw [split]
    exact bitSlice_top secondWide _
  have packetLength : packet.length = frontHeaderLen + metaLen := by
    rw [List.length_cons, List.length_replicate]
    rfl
  obtain ⟨key, ours, theirs⟩ := @sameMatchKey_agree _ same packet layout packetLength
    (by simp [layout, Function.comp_def]) positive (by
      intro field member
      obtain ⟨width, listed, rfl⟩ := List.mem_map.mp member
      have bound := (fits width listed).2
      simp only [packet, List.length_cons, List.length_replicate]
      omega)
  have field : (keyInfoOf second (bitSlice packet 0 second)).field =
      128 :: List.replicate (bytesFor second - 1) 0 := by
    rw [top]
    exact keyInfoOf_top secondWide
  refine combineToSingleKeyWith_second firstWide field (.inl ?_) ours theirs
  rw [Ne, List.replicate_eq_nil_iff]
  omega

private theorem sameMatchKey_two (fits : ∀ width ∈ first :: second :: others, 0 < width ∧
      width ≤ packetBits) :
    ¬ SameMatchKey (first :: second :: others) := by
  by_cases short : second ≤ 8
  · exact sameMatchKey_two_short fits short
  · exact sameMatchKey_two_long fits (Nat.lt_of_not_le short)

end Two

/-- The controller and the data plane build the same key exactly when it has at most one field. -/
theorem sameMatchKey_iff (widths : List Nat) (fits : ∀ width ∈ widths, 0 < width ∧ width ≤ packetBits) :
    SameMatchKey widths ↔ widths.length ≤ 1 := by
  constructor
  · intro same
    match widths with
    | [] => exact Nat.zero_le 1
    | [_] => exact le_rfl
    | first :: second :: others => exact absurd same (sameMatchKey_two fits)
  · intro single keys thread phv isWidths small length carried
    have positive : ∀ key ∈ keys, 0 < key.1 := fun key member =>
      (fits key.1 (isWidths ▸ List.mem_map_of_mem member)).1
    have controller := packUpdate_eq positive
    have matcher := matchKey_carries positive carried
    match keys with
    | [] => exact ⟨[], controller.trans rfl, matcher.trans rfl⟩
    | [key] =>
        have bound := (fits key.1 (isWidths ▸ List.mem_map_of_mem List.mem_cons_self)).2
        have bits : packetBits = 12800 := rfl
        have one := fun advance stays => @combineToSingleKeyWith_one advance stays key.1 key.2
          (positive key List.mem_cons_self) (by omega)
        simp only [List.map_cons, List.map_nil, List.sum_cons, List.sum_nil,
          Nat.add_zero] at controller matcher
        rw [one 1 le_rfl] at controller
        rw [one 0 (Nat.zero_le 1)] at matcher
        refine ⟨_, controller.trans ?_, matcher⟩
        rw [Option.map_some, length_keyInfoOf_field]
    | first :: second :: others =>
        rw [← isWidths] at single
        simp at single

theorem sameMatchKey_one_field : SameMatchKey [9] :=
  (sameMatchKey_iff [9] (by decide)).mpr (by decide)

/-- Two byte fields that both hold 5: the controller sends 5 5, the data plane looks up 10 0. -/
theorem sameMatchKey_two_fields :
    extractExact [updateField (8, 5), updateField (8, 5)] = some ([5, 5], 2) ∧
      MatcherThread.matchKey { procId := 0, fdInfos := [⟨0, 0, 8, .field⟩, ⟨0, 8, 8, .field⟩] }
        { Phv.fresh with packet := [5, 5] ++ List.replicate 1598 0 } = some [10, 0] ∧
      ¬ SameMatchKey [8, 8] := by
  exact ⟨by decide, by decide, sameMatchKey_two (by decide)⟩

end Ipbm.System
