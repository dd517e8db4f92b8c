import Mathlib.Data.List.Basic
import Mathlib.Data.List.Perm.Basic
import Mathlib.Order.Lattice

/-! A map whose entries are visited in the order of their keys, as an association
list. -/

set_option autoImplicit false

namespace Ipbm.Lib

abbrev OrderedMap (κ α : Type) : Type := List (κ × α)

namespace OrderedMap

variable {κ α : Type} [LinearOrder κ]

def find (map : OrderedMap κ α) (key : κ) : Option α :=
  (List.find? (fun entry => entry.1 = key) map).map Prod.snd

/-- The entry of a key replaced by a function of what is there. -/
def alter (map : OrderedMap κ α) (key : κ) (change : Option α → α) : OrderedMap κ α :=
  match map with
  | [] => [(key, change none)]
  | entry :: rest =>
      if key < entry.1 then (key, change none) :: entry :: rest
      else if key = entry.1 then (key, change (some entry.2)) :: rest
      else entry :: alter rest key change

/-- Adds an entry where there is none. -/
def insert (map : OrderedMap κ α) (key : κ) (value : α) : OrderedMap κ α :=
  alter map key fun old => old.getD value

def keys (map : OrderedMap κ α) : List κ := map.map Prod.fst

def Ordered (map : OrderedMap κ α) : Prop := (keys map).Pairwise (· < ·)

instance (map : OrderedMap κ α) : Decidable (Ordered map) :=
  inferInstanceAs (Decidable ((keys map).Pairwise (· < ·)))

theorem find_nil (key : κ) : find ([] : OrderedMap κ α) key = none := rfl

theorem find_cons (entry : κ × α) (rest : OrderedMap κ α) (key : κ) :
    find (entry :: rest) key = if entry.1 = key then some entry.2 else find rest key := by
  unfold find
  by_cases same : entry.1 = key
  · simp [same]
  · simp [same]

theorem find_isSome_iff {map : OrderedMap κ α} {key : κ} : (find map key).isSome ↔ key ∈ keys map := by
  induction map with
  | nil => simp [find_nil, keys]
  | cons entry rest ih =>
      rw [find_cons]
      by_cases same : entry.1 = key
      · simp [same, keys]
      · rw [if_neg same, ih, keys, keys, List.map_cons, List.mem_cons]
        exact (or_iff_right (Ne.symm same)).symm

theorem mem_of_find {map : OrderedMap κ α} {key : κ} {value : α} (found : find map key = some value) :
    (key, value) ∈ map := by
  obtain ⟨entry, first, rfl⟩ := Option.map_eq_some_iff.mp found
  have same : entry.1 = key := by simpa using List.find?_some first
  exact same ▸ List.mem_of_find?_eq_some first

theorem find_of_mem {map : OrderedMap κ α} (ordered : Ordered map) {key : κ} {value : α}
    (member : (key, value) ∈ map) : find map key = some value := by
  induction map with
  | nil => cases member
  | cons entry rest ih =>
      obtain ⟨smaller, later⟩ := List.pairwise_cons.mp ordered
      rw [find_cons]
      rcases List.mem_cons.mp member with rfl | inside
      · simp
      · have below : entry.1 < key := smaller key (List.mem_map_of_mem (f := Prod.fst) inside)
        rw [if_neg below.ne]
        exact ih later inside

theorem mem_keys_alter {map : OrderedMap κ α} {key other : κ} {change : Option α → α} :
    other ∈ keys (alter map key change) ↔ other = key ∨ other ∈ keys map := by
  induction map with
  | nil => simp [alter, keys]
  | cons entry rest ih =>
      unfold alter
      split
      · simp [keys]
      · split
        · next same => simp [keys, same]
        · simp only [keys, List.map_cons, List.mem_cons] at ih ⊢
          rw [ih]
          tauto

theorem ordered_alter {map : OrderedMap κ α} (ordered : Ordered map) (key : κ) (change : Option α → α) :
    Ordered (alter map key change) := by
  induction map with
  | nil => simp [alter, Ordered, keys]
  | cons entry rest ih =>
      obtain ⟨smaller, later⟩ := List.pairwise_cons.mp ordered
      unfold alter
      split
      · next below =>
          refine List.pairwise_cons.mpr ⟨?_, ordered⟩
          intro other member
          rcases List.mem_cons.mp member with rfl | inside
          · exact below
          · exact below.trans (smaller other inside)
      · split
        · next same =>
            subst same
            exact List.pairwise_cons.mpr ⟨smaller, later⟩
        · next notBelow different =>
            refine List.pairwise_cons.mpr ⟨?_, ih later⟩
            intro other member
            rcases mem_keys_alter.mp member with rfl | inside
            · exact lt_of_le_of_ne (not_lt.mp notBelow) (Ne.symm different)
            · exact smaller other inside

theorem find_alter_self {map : OrderedMap κ α} (ordered : Ordered map) (key : κ) (change : Option α → α) :
    find (alter map key change) key = some (change (find map key)) := by
  induction map with
  | nil => simp [alter, find_cons, find_nil]
  | cons entry rest ih =>
      obtain ⟨smaller, later⟩ := List.pairwise_cons.mp ordered
      unfold alter
      split
      · next below =>
          have missing : find (entry :: rest) key = none := by
            rw [← Option.not_isSome_iff_eq_none, find_isSome_iff]
            intro member
            rcases List.mem_cons.mp member with rfl | inside
            · exact lt_irrefl _ below
            · exact lt_asymm below (smaller key inside)
          rw [missing, find_cons, if_pos rfl]
      · split
        · next same => simp [find_cons, same]
        · next different =>
            rw [find_cons, if_neg (Ne.symm different), ih later, find_cons, if_neg (Ne.symm different)]

theorem find_alter_of_ne {map : OrderedMap κ α} {key other : κ} (different : other ≠ key)
    (change : Option α → α) : find (alter map key change) other = find map other := by
  induction map with
  | nil => simp [alter, find_cons, find_nil, different.symm]
  | cons entry rest ih =>
      unfold alter
      split
      · rw [find_cons, if_neg different.symm]
      · split
        · next same => rw [find_cons, if_neg different.symm, find_cons, if_neg (same ▸ different.symm)]
        · rw [find_cons, find_cons, ih]

theorem find_insert_of_none {map : OrderedMap κ α} {key : κ} (missing : find map key = none) (value : α) :
    find (insert map key value) key = some value := by
  induction map with
  | nil => simp [insert, alter, find_cons]
  | cons entry rest ih =>
      rw [find_cons] at missing
      split at missing
      · cases missing
      · next different =>
          unfold insert alter
          split
          · simp [find_cons]
          · rw [if_neg (Ne.symm different), find_cons, if_neg different]
            exact ih missing

theorem insert_perm {map : OrderedMap κ α} {key : κ} (missing : find map key = none) (value : α) :
    (insert map key value).Perm ((key, value) :: map) := by
  induction map with
  | nil => exact List.Perm.refl _
  | cons entry rest ih =>
      rw [find_cons] at missing
      split at missing
      · cases missing
      · next different =>
          unfold insert alter
          split
          · exact List.Perm.refl _
          · rw [if_neg (Ne.symm different)]
            exact ((ih missing).cons entry).trans (List.Perm.swap _ _ _)

omit [LinearOrder κ] in
@[simp] theorem keys_map_value {β : Type} (map : OrderedMap κ α) (change : α → β) :
    keys (map.map fun entry => (entry.1, change entry.2)) = keys map := by
  rw [keys, List.map_map]
  rfl

theorem ordered_map_value {β : Type} {map : OrderedMap κ α} (ordered : Ordered map) (change : α → β) :
    Ordered (map.map fun entry => (entry.1, change entry.2)) := by
  rw [Ordered, keys_map_value]
  exact ordered

theorem find_map_value {β : Type} (map : OrderedMap κ α) (change : α → β) (key : κ) :
    find (map.map fun entry => (entry.1, change entry.2)) key = (find map key).map change := by
  induction map with
  | nil => rfl
  | cons entry rest ih =>
      rw [List.map_cons, find_cons, find_cons, ih]
      split <;> rfl

theorem mem_iff_find {map : OrderedMap κ α} (ordered : Ordered map) {key : κ} {value : α} :
    (key, value) ∈ map ↔ find map key = some value :=
  ⟨find_of_mem ordered, mem_of_find⟩

/-- Maps that find the same are the same. -/
theorem eq_of_find {left right : OrderedMap κ α} (leftOrdered : Ordered left) (rightOrdered : Ordered right)
    (same : ∀ key, find left key = find right key) : left = right := by
  have pairs {map : OrderedMap κ α} (ordered : Ordered map) : map.Pairwise fun first second =>
      first.1 < second.1 :=
    List.pairwise_map.mp ordered
  have distinct {map : OrderedMap κ α} (ordered : Ordered map) : map.Nodup :=
    (pairs ordered).imp fun below equal => below.ne (congrArg Prod.fst equal)
  have members : ∀ entry, entry ∈ left ↔ entry ∈ right := by
    intro (key, value)
    rw [mem_iff_find leftOrdered, mem_iff_find rightOrdered, same]
  have perm := (List.perm_ext_iff_of_nodup (distinct leftOrdered) (distinct rightOrdered)).mpr members
  exact perm.eq_of_pairwise (fun _ _ _ _ below above => absurd above (lt_asymm below))
    (pairs leftOrdered) (pairs rightOrdered)

/-- A search meets the smallest key first. -/
theorem find?_key_le {map : OrderedMap κ α} (ordered : Ordered map) {test : κ × α → Bool}
    {entry other : κ × α} (first : map.find? test = some entry) (member : other ∈ map)
    (passes : test other = true) : entry.1 ≤ other.1 := by
  obtain ⟨_, front, back, rfl, failed⟩ := List.find?_eq_some_iff_append.mp first
  rcases List.mem_append.mp member with before | behind
  · have fails := failed other before
    rw [passes] at fails
    cases fails
  · have pairs : (front ++ entry :: back).Pairwise fun first second => first.1 < second.1 :=
      List.pairwise_map.mp ordered
    rcases List.mem_cons.mp behind with rfl | later
    · exact le_rfl
    · exact ((List.pairwise_cons.mp (List.pairwise_append.mp pairs).2.1).1 other later).le

/-! ### Maps from entries -/

/-- The first entry of a key counts. -/
def ofEntries (entries : List (κ × α)) : OrderedMap κ α :=
  entries.foldl (fun map entry => insert map entry.1 entry.2) []

private theorem ordered_insertAll (entries : List (κ × α)) {map : OrderedMap κ α} (ordered : Ordered map) :
    Ordered (entries.foldl (fun map entry => insert map entry.1 entry.2) map) := by
  induction entries generalizing map with
  | nil => exact ordered
  | cons entry rest ih => exact ih (ordered_alter ordered _ _)

theorem ordered_ofEntries (entries : List (κ × α)) : Ordered (ofEntries entries) :=
  ordered_insertAll entries List.Pairwise.nil

private theorem find_insertAll (entries : List (κ × α)) {map : OrderedMap κ α}
    (ordered : Ordered map) (key : κ) :
    find (entries.foldl (fun map entry => insert map entry.1 entry.2) map) key =
      (find map key).or ((entries.find? fun entry => entry.1 = key).map Prod.snd) := by
  induction entries generalizing map with
  | nil => simp
  | cons entry rest ih =>
      have kept : Ordered (insert map entry.1 entry.2) := ordered_alter ordered _ _
      have later := ih kept
      rw [List.foldl_cons, later, List.find?_cons]
      by_cases same : entry.1 = key
      · subst same
        rw [insert, find_alter_self ordered]
        cases find map entry.1 <;> simp
      · rw [insert, find_alter_of_ne (Ne.symm same)]
        simp [same]

theorem find_ofEntries (entries : List (κ × α)) (key : κ) :
    find (ofEntries entries) key = (entries.find? fun entry => entry.1 = key).map Prod.snd := by
  have empty : Ordered ([] : OrderedMap κ α) := List.Pairwise.nil
  have whole := find_insertAll entries empty key
  rw [find_nil, Option.none_or] at whole
  exact whole

theorem mem_of_mem_ofEntries {entries : List (κ × α)} {entry : κ × α} (member : entry ∈ ofEntries entries) :
    entry ∈ entries := by
  have found := find_of_mem (ordered_ofEntries entries) member
  rw [find_ofEntries] at found
  obtain ⟨first, here, same⟩ := Option.map_eq_some_iff.mp found
  have key : first.1 = entry.1 := by simpa using List.find?_some here
  have whole : first = entry := Prod.ext key same
  exact whole ▸ List.mem_of_find?_eq_some here

end OrderedMap

end Ipbm.Lib
