import Mathlib.Data.List.MinMax
import Ipbm.Dataplane.TcamTable
import Ipbm.System.TableEntry

/-! Longest prefix match. The table is a ternary one: the controller packs prefix and mask, and
nothing orders the rows by the length of the prefix. -/

set_option autoImplicit false

namespace Ipbm.System
open Lib Dataplane Controller

/-- The leading bits of the addresses of a field. -/
structure Prefix (width : Nat) where
  length : Nat
  bits : Nat
  value : List UInt8
  length_le : length ≤ width
  bits_lt : bits < 2 ^ length

namespace Prefix

variable {width : Nat}

def address (pre : Prefix width) : Nat := pre.bits * 2 ^ (width - pre.length)

def mask (pre : Prefix width) : Nat := (2 ^ pre.length - 1) * 2 ^ (width - pre.length)

def Contains (pre : Prefix width) (address : Nat) : Prop := address / 2 ^ (width - pre.length) = pre.bits

instance (pre : Prefix width) (address : Nat) : Decidable (pre.Contains address) :=
  inferInstanceAs (Decidable (_ = _))

/-- The key of the update document. -/
def field (pre : Prefix width) : UpdateField where
  width := width
  value := beBytes (bytesFor width) pre.address
  mask := beBytes (bytesFor width) pre.mask

/-- The entry as the controller sends it. -/
def entry (pre : Prefix width) : Option TernaryEntry := do
  let (key, mask, keyWidth) ← extractTernary [pre.field]
  return ⟨← getString key keyWidth, ← getString mask keyWidth, pre.value⟩

def Distinct (prefixes : List (Prefix width)) : Prop := (prefixes.map fun pre => (pre.length, pre.bits)).Nodup

instance (prefixes : List (Prefix width)) : Decidable (Distinct prefixes) :=
  inferInstanceAs (Decidable (List.Nodup _))

def longest (prefixes : List (Prefix width)) (address : Nat) : Option (Prefix width) :=
  (prefixes.filter fun pre => decide (pre.Contains address)).argmax length

/-- The value a lookup should return. -/
def longestValue (prefixes : List (Prefix width)) (address : Nat) : Option (List UInt8) :=
  (longest prefixes address).map value

end Prefix

/-- The largest item does not depend on the order if there are no ties. -/
theorem argmax_perm {α β : Type} [LinearOrder β] {size : α → β} {left right : List α} (perm : left.Perm right)
    (different : ∀ item ∈ left, ∀ other ∈ left, size item = size other → item = other) :
    left.argmax size = right.argmax size := by
  cases isLeft : left.argmax size with
  | none =>
      rw [List.argmax_eq_none.mp isLeft] at perm
      rw [← perm.nil_eq, List.argmax_nil]
  | some item =>
      cases isRight : right.argmax size with
      | none =>
          rw [List.argmax_eq_none.mp isRight] at perm
          rw [perm.eq_nil, List.argmax_nil] at isLeft
          cases isLeft
      | some other =>
          have inLeft := List.argmax_mem isLeft
          have inRight := perm.mem_iff.mpr (List.argmax_mem isRight)
          have below := List.le_of_mem_argmax inRight isLeft
          have above := List.le_of_mem_argmax (perm.mem_iff.mp inLeft) isRight
          rw [different item inLeft other inRight (le_antisymm above below)]

namespace Prefix

variable {width : Nat}

/-- The longest prefix is the same in every order. -/
theorem longest_perm {prefixes order : List (Prefix width)} (distinct : Distinct prefixes)
    (perm : order.Perm prefixes) (address : Nat) : longest order address = longest prefixes address := by
  refine (argmax_perm (perm.filter _).symm fun item member other otherMember sameLength => ?_).symm
  rw [List.mem_filter, decide_eq_true_eq] at member otherMember
  have sameBits : item.bits = other.bits := by
    rw [← member.2, ← otherMember.2, sameLength]
  exact List.inj_on_of_nodup_map distinct member.1 otherMember.1 (by rw [sameLength, sameBits])

/-- Both buffers are packed as a field of a packet is. -/
theorem entry_eq (positive : 0 < width) (short : width < 2 ^ 16) (pre : Prefix width) :
    pre.entry = some ⟨(keyInfoOf width pre.address).field, (keyInfoOf width pre.mask).field, pre.value⟩ := by
  have packed (number : Nat) : packUpdate [(width, beBytes (bytesFor width) number)] =
      some ((keyInfoOf width number).field, bytesFor width) := by
    have one : combineToSingleKey [keyInfoOf width number] width = some (keyInfoOf width number).field :=
      combineToSingleKeyWith_one (Nat.le_refl 1) width number positive short
    simp only [packUpdate, List.mapM_cons, List.mapM_nil, leftAlign_eq positive, List.map_cons, List.map_nil,
      List.sum_singleton, one, Option.bind_eq_bind, Option.bind_some, Option.pure_def]
  have whole (number : Nat) : getString (keyInfoOf width number).field (bytesFor width) =
      some (keyInfoOf width number).field := by
    rw [getString, length_keyInfoOf_field, if_pos (Nat.le_refl _), List.take_of_length_le (by simp)]
  simp only [entry, extractTernary, field, List.map_cons, List.map_nil, packed, whole,
    Option.bind_eq_bind, Option.bind_some, Option.pure_def]

end Prefix

/-- The prefixes inserted in an order, each packed by the controller. -/
def enterPrefixes {width : Nat} (order : List (Prefix width)) (state : Memory × MatcherThread) :
    Option (Memory × MatcherThread) :=
  order.foldlM (fun state pre => do MatcherThread.insertTernary state (← pre.entry)) state

/-- The rows that the prefixes take. -/
def prefixRows {width : Nat} (order : List (Prefix width)) : List TernaryEntry :=
  order.map fun pre => ⟨(keyInfoOf width pre.address).field, (keyInfoOf width pre.mask).field, pre.value⟩

/-- The prefixes enter in an order and a lookup of an address reports the longest one that contains it. -/
def LongestFound {width : Nat} (prefixes order : List (Prefix width))
    (state : Memory × MatcherThread) (scratch : Nat → UInt8) (address : Nat) : Prop :=
  ∃ after, enterPrefixes order state = some after ∧
    Reports (after.2.getMatchRes after.1 scratch (keyInfoOf width address).field)
      (Prefix.longestValue prefixes address)

theorem enterPrefixes_eq {width : Nat} (positive : 0 < width) (short : width < 2 ^ 16)
    (order : List (Prefix width)) (state : Memory × MatcherThread) :
    enterPrefixes order state = (prefixRows order).foldlM MatcherThread.insertTernary state := by
  rw [enterPrefixes, prefixRows, List.foldlM_map]
  simp only [Prefix.entry_eq positive short, Option.bind_eq_bind, Option.bind_some]

/-- Prefixes of one field, to be entered into an empty table. -/
structure PrefixTable {width : Nat} (prefixes : List (Prefix width)) (memory : Memory)
    (thread : MatcherThread) : Prop where
  positive : 0 < width
  sized : thread.TcamSized (bytesFor width)
  empty : MatcherThread.TcamEmpty memory thread
  distinct : Prefix.Distinct prefixes
  values : ∀ pre ∈ prefixes, thread.ValueFits pre.value

section PrefixTable

variable {width : Nat} {prefixes order : List (Prefix width)} {memory : Memory} {thread : MatcherThread}

/-- A key that fits the blocks of a cluster is short. -/
theorem PrefixTable.short (table : PrefixTable prefixes memory thread) : width < 2 ^ 16 := by
  have sized := table.sized
  have one : thread.keyWidth ≤ thread.keyWidth * thread.depth := Nat.le_mul_of_pos_right _ sized.depth
  have room := sized.keyRoom
  have fits := sized.keyFits
  simp only [tcamNumPerCluster, tcamNumAll, clusterNum, tcamWidth, bytesFor] at room fits
  omega

theorem PrefixTable.rowsFit (table : PrefixTable prefixes memory thread) (perm : order.Perm prefixes) :
    ∀ entry ∈ prefixRows order, thread.EntryFits (bytesFor width) entry := by
  intro entry member
  obtain ⟨pre, listed, rfl⟩ := List.mem_map.mp member
  exact ⟨length_keyInfoOf_field .., length_keyInfoOf_field .., table.values pre (perm.mem_iff.mp listed)⟩

theorem PrefixTable.longestFound_order (table : PrefixTable prefixes memory thread)
    (perm : order.Perm prefixes) (scratch : Nat → UInt8) (address : Nat) :
    LongestFound prefixes order (memory, thread) scratch address ↔
      prefixes.length ≤ 2 ^ tcamDepth ∧
        thread.FirstRowRight (prefixRows order) scratch (keyInfoOf width address).field
        (Prefix.longestValue order address) := by
  have sized := table.sized
  have fits := table.rowsFit perm
  have rows : (prefixRows order).length =
    prefixes.length := by rw [prefixRows, List.length_map, perm.length_eq]
  rw [LongestFound, enterPrefixes_eq table.positive table.short, Prefix.longestValue, Prefix.longestValue,
    Prefix.longest_perm table.distinct perm]
  by_cases room : prefixes.length ≤ 2 ^ tcamDepth
  · obtain ⟨after, inserted, holds⟩ := sized.insertAll_holds table.empty fits (rows ▸ room)
    have reports := sized.reports_iff holds scratch (length_keyInfoOf_field width address)
      ((Prefix.longest prefixes address).map Prefix.value)
    simp [inserted, room, reports]
  · simp [sized.insertAll_full (bytesFor_pos table.positive) table.empty fits
      (rows ▸ Nat.lt_of_not_le room), room]

private theorem forall_orders_iff {property : List TernaryEntry → Prop} :
    (∀ order : List (Prefix width), order.Perm prefixes → property (prefixRows order)) ↔
      ∀ rows : List TernaryEntry, rows.Perm (prefixRows prefixes) → property rows := by
  constructor
  · intro holds rows perm
    have orders := congrFun (congrFun (List.eq_map_comp_perm fun pre : Prefix width =>
      (⟨(keyInfoOf width pre.address).field, (keyInfoOf width pre.mask).field, pre.value⟩ :
        TernaryEntry)) rows) prefixes
    obtain ⟨order, rfl, same⟩ := orders.mpr perm
    exact holds order same
  · exact fun holds order perm => holds _ (perm.map _)

/-- The longest prefix is reported in every order of insertion exactly when the rows suffice, every
prefix that accepts the address under `tmp_mask` has the value of the longest one, and the rows
behind the prefixes have it where none accepts. -/
theorem longestFound_iff (table : PrefixTable prefixes memory thread) (scratch : Nat → UInt8)
    (address : Nat) : (∀ order : List (Prefix width), order.Perm prefixes →
      LongestFound prefixes order (memory, thread) scratch address) ↔
      prefixes.length ≤ 2 ^ tcamDepth ∧
        thread.RightInAnyOrder (prefixRows prefixes) scratch (keyInfoOf width address).field
        (Prefix.longestValue prefixes address) := by
  have orders (room : prefixes.length ≤ 2 ^ tcamDepth) := (@forall_orders_iff width prefixes fun rows =>
    thread.FirstRowRight rows scratch (keyInfoOf width address).field
      (Prefix.longestValue prefixes address)).trans
      (MatcherThread.rightInAnyOrder_iff (by rwa [prefixRows, List.length_map]))
  have value {order : List (Prefix width)} (perm : order.Perm prefixes) :
      Prefix.longestValue order address = Prefix.longestValue prefixes address := by
    rw [Prefix.longestValue, Prefix.longestValue, Prefix.longest_perm table.distinct perm]
  constructor
  · intro found
    have room :=
      ((table.longestFound_order (.refl prefixes) scratch address).mp (found prefixes (.refl prefixes))).1
    refine ⟨room, (orders room).mp fun order perm => ?_⟩
    rw [← value perm]
    exact ((table.longestFound_order perm scratch address).mp (found order perm)).2
  · intro ⟨room, right⟩ order perm
    refine (table.longestFound_order perm scratch address).mpr ⟨room, ?_⟩
    rw [value perm]
    exact (orders room).mpr right order perm

end PrefixTable

def prefixThread : MatcherThread := { ternaryThread with matchType := .lpm }

theorem prefixThread_table (prefixes : List (Prefix 8)) (distinct : Prefix.Distinct prefixes)
    (values : ∀ pre ∈ prefixes, pre.value.length ≤ 16) : PrefixTable prefixes Memory.fresh prefixThread where
  positive := by decide
  sized :=
    ⟨by decide, by decide, by decide, by decide, by decide, by decide +kernel, by decide +kernel,
      by decide, by decide, by decide, by decide⟩
  empty := ⟨rfl, fun _ _ _ => rfl, fun _ _ _ => rfl⟩
  distinct := distinct
  values pre member := ⟨Nat.zero_le _, values pre member⟩

/-- A prefix, one address of it and another prefix. -/
def fullPrefixes : List (Prefix 8) :=
  [⟨4, 15, [1], by decide, by decide⟩, ⟨8, 255, [7], by decide, by decide⟩, ⟨4, 1, [3], by decide, by decide⟩]

/-- In every order the address is found under a full `tmp_mask`. -/
theorem longestFound_full :
    PrefixTable fullPrefixes Memory.fresh prefixThread ∧ ∀ order : List (Prefix 8), order.Perm fullPrefixes →
      LongestFound fullPrefixes order (Memory.fresh, prefixThread) (fun _ => 255) 255 := by
  have table := prefixThread_table fullPrefixes (by decide) (by decide)
  exact ⟨table, (longestFound_iff table _ 255).mpr ⟨by decide, by decide⟩⟩

/-- Two nested prefixes. -/
def nestedPrefixes : List (Prefix 8) :=
  [⟨4, 1, [1], by decide, by decide⟩, ⟨8, 18, [2], by decide, by decide⟩]

/-- With a cleared `tmp_mask` the row behind the prefixes accepts every address. -/
theorem not_longestFound_nested : ¬ ∀ order : List (Prefix 8), order.Perm nestedPrefixes →
    LongestFound nestedPrefixes order (Memory.fresh, prefixThread) (fun _ => 0) 18 := by
  intro found
  have table := prefixThread_table nestedPrefixes (by decide) (by decide)
  have right := ((table.longestFound_order (.refl _) (fun _ => 0) 18).mp (found _ (.refl _))).2
  have longest : Prefix.longestValue nestedPrefixes 18 = some [2] := by decide
  rw [longest] at right
  obtain ⟨row, _, accepts, earlier, isPrefix⟩ := right
  rcases Nat.lt_trichotomy row 2 with below | rfl | above
  · interval_cases row
    · exact absurd accepts (by decide)
    · exact absurd accepts (by decide)
  · exact absurd isPrefix (by decide)
  · exact earlier 2 above (by decide)

end Ipbm.System
