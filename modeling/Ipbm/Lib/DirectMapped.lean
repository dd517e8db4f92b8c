import Mathlib.Data.List.Basic
import Mathlib.Data.List.Induction
import Mathlib.Logic.Function.Basic

/-! Direct-mapped caches. Every row holds one entry, the one stored there last. -/

set_option autoImplicit false

namespace Ipbm.Lib

variable {Row Key Value : Type}

abbrev DirectMapped (Row Key Value : Type) : Type := Row → Key × Value

namespace DirectMapped

def insert [DecidableEq Row] (rowOf : Key → Row) (cache : DirectMapped Row Key Value) (entry : Key × Value) :
    DirectMapped Row Key Value :=
  Function.update cache (rowOf entry.1) entry

def insertAll [DecidableEq Row] (rowOf : Key → Row) (cache : DirectMapped Row Key Value)
    (entries : List (Key × Value)) : DirectMapped Row Key Value :=
  entries.foldl (insert rowOf) cache

/-- The entry stored last in a row. -/
def lastIn [DecidableEq Row] (rowOf : Key → Row) (entries : List (Key × Value)) (row : Row) :
    Option (Key × Value) :=
  (entries.filter fun entry => rowOf entry.1 = row).getLast?

/-- The entry stored last for a key. -/
def lastFor [DecidableEq Key] (entries : List (Key × Value)) (key : Key) : Option (Key × Value) :=
  (entries.filter fun entry => entry.1 = key).getLast?

variable {rowOf : Key → Row} {cache : DirectMapped Row Key Value} {entries : List (Key × Value)}

theorem insertAll_concat [DecidableEq Row] (entry : Key × Value) :
    insertAll rowOf cache (entries ++ [entry]) = insert rowOf (insertAll rowOf cache entries) entry := by
  simp [insertAll]

theorem insertAll_row [DecidableEq Row] (row : Row) :
    insertAll rowOf cache entries row = (lastIn rowOf entries row).getD (cache row) := by
  induction entries using List.reverseRecOn with
  | nil => rfl
  | append_singleton entries entry ih =>
      rw [insertAll_concat, insert, lastIn, List.filter_append]
      by_cases same : rowOf entry.1 = row
      · rw [← same, Function.update_self]
        simp
      · rw [Function.update_of_ne (Ne.symm same), ih, lastIn]
        simp [same]

theorem lastFor_mem [DecidableEq Key] {key : Key} {entry : Key × Value}
    (last : lastFor entries key = some entry) :
    entry ∈ entries ∧ entry.1 = key := by
  simpa using List.mem_of_mem_getLast? last

theorem lastIn_mem [DecidableEq Row] {row : Row} {entry : Key × Value}
    (last : lastIn rowOf entries row = some entry) :
    entry ∈ entries ∧ rowOf entry.1 = row := by
  simpa using List.mem_of_mem_getLast? last

/-- Where keys of one row are equal, the last entry of a row is the last one for its key. -/
theorem lastIn_eq_lastFor [DecidableEq Row] [DecidableEq Key] {key : Key}
    (alone : ∀ entry ∈ entries, rowOf entry.1 = rowOf key → entry.1 = key) :
    lastIn rowOf entries (rowOf key) = lastFor entries key := by
  have same : (entries.filter fun entry => rowOf entry.1 = rowOf key) = entries.filter fun entry =>
      entry.1 = key := by
    apply List.filter_congr
    intro entry member
    simp only [decide_eq_decide]
    exact ⟨alone entry member, fun equal => equal ▸ rfl⟩
  rw [lastIn, same, lastFor]

theorem lastIn_some [DecidableEq Row] {row : Row} (stored : ∃ entry ∈ entries, rowOf entry.1 = row) :
    ∃ entry, lastIn rowOf entries row = some entry := by
  obtain ⟨entry, member, same⟩ := stored
  have inside : entry ∈ entries.filter fun entry => rowOf entry.1 = row := by simp [member, same]
  exact ⟨_, List.getLast?_eq_some_getLast (List.ne_nil_of_mem inside)⟩

/-- A cache that starts with one entry in every row holds exactly the stored keys if and only if no
row was given two keys and the row of the first entry was given one. -/
theorem holds_stored_iff [DecidableEq Row] {valid : Key → Prop} {start : Key × Value}
    (validStart : valid start.1) (validEntries : ∀ entry ∈ entries, valid entry.1) :
    (∀ key, valid key →
        ((insertAll rowOf (fun _ => start) entries (rowOf key)).1 = key ↔ ∃ entry ∈ entries, entry.1 = key)) ↔
      (∀ entry ∈ entries, ∀ other ∈ entries, rowOf entry.1 = rowOf other.1 → entry.1 = other.1) ∧
        ∃ entry ∈ entries, rowOf entry.1 = rowOf start.1 := by
  constructor
  · intro holds
    refine ⟨fun entry member other otherMember same => ?_, ?_⟩
    · have left := (holds entry.1 (validEntries entry member)).mpr ⟨entry, member, rfl⟩
      have right := (holds other.1 (validEntries other otherMember)).mpr ⟨other, otherMember, rfl⟩
      rw [← left, ← right, same]
    · by_contra unused
      have none : lastIn rowOf entries (rowOf start.1) = none := by
        rw [lastIn, List.getLast?_eq_none_iff, List.filter_eq_nil_iff]
        intro entry member same
        exact unused ⟨entry, member, by simpa using same⟩
      obtain ⟨entry, member, same⟩ :=
        (holds start.1 validStart).mp (by rw [insertAll_row, none, Option.getD_none])
      exact unused ⟨entry, member, same ▸ rfl⟩
  · rintro ⟨alone, entry, member, used⟩ key _
    rw [insertAll_row]
    constructor
    · intro here
      cases last : lastIn rowOf entries (rowOf key) with
      | some found =>
          rw [last, Option.getD_some] at here
          exact ⟨found, (lastIn_mem last).1, here⟩
      | none =>
          rw [last, Option.getD_none] at here
          obtain ⟨found, present⟩ : ∃ found, lastIn rowOf entries (rowOf start.1) = some found :=
            lastIn_some ⟨entry, member, used⟩
          rw [here, last] at present
          cases present
    · rintro ⟨stored, inside, rfl⟩
      obtain ⟨found, last⟩ : ∃ found, lastIn rowOf entries (rowOf stored.1) = some found :=
        lastIn_some ⟨stored, inside, rfl⟩
      obtain ⟨among, same⟩ := lastIn_mem last
      rw [last, Option.getD_some]
      exact alone found among stored inside same

end DirectMapped

end Ipbm.Lib
