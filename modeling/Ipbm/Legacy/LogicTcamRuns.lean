import Mathlib.Data.List.Nodup
import Ipbm.Legacy.LogicTcam

/-! Runs of a logical TCAM table. An erased entry leaves a second copy of the last one behind, and
its room is not given back. -/

set_option autoImplicit false

namespace Ipbm.Legacy
open Lib

inductive Call where
  | insert (key val : List UInt8)
  | erase (key : List UInt8)
  deriving DecidableEq, Repr

namespace Call

/-- The entries that a caller has inserted and not erased. -/
def update (live : List Entry) : Call → List Entry
  | insert key val => live ++ [(key, val)]
  | erase key => live.filter fun entry => entry.1 ≠ key

/-- Inserted keys are new, and there is room for what is live. -/
def Legal (keyLen valLen cap : Nat) (live : List Entry) : Call → Prop
  | insert key val => key.length = keyLen ∧ val.length = valLen ∧ key ∉ live.map Prod.fst ∧ live.length < cap
  | erase key => key.length = keyLen

/-- An erase that has nothing to do. -/
def Idle (live : List Entry) : Call → Prop
  | insert _ _ => False
  | erase key => key ∉ live.map Prod.fst

instance (keyLen valLen cap : Nat) (live : List Entry) (call : Call) :
    Decidable (call.Legal keyLen valLen cap live) := by
  cases call <;> unfold Legal <;> infer_instance

end Call

def LegalRun (keyLen valLen cap : Nat) (live : List Entry) : List Call → Prop
  | [] => True
  | call :: rest => call.Legal keyLen valLen cap live ∧ LegalRun keyLen valLen cap (call.update live) rest

instance LegalRun.decidable (keyLen valLen cap : Nat) (live : List Entry) (calls : List Call) :
    Decidable (LegalRun keyLen valLen cap live calls) :=
  match calls with
  | [] => isTrue trivial
  | call :: rest =>
      have := LegalRun.decidable keyLen valLen cap (call.update live) rest
      inferInstanceAs (Decidable (_ ∧ _))

namespace LogicTcam

def apply (table : LogicTcam) : Call → Option LogicTcam
  | .insert key val => table.insert key val
  | .erase key => table.erase key

/-- A lookup finds what is live, and nothing else. -/
structure Faithful (table : LogicTcam) (live : List Entry) : Prop where
  found : ∀ key val, (key, val) ∈ live →
    ∃ pos, table.matchExact key = some pos ∧ pos < table.endPos ∧ table.entryAt pos = (key, val)
  absent : ∀ key, key.length = table.keyLen → key ∉ live.map Prod.fst →
    table.matchExact key = some table.endPos

/-- Every call returns, and the table is faithful before and after each. -/
def Stores (table : LogicTcam) (live : List Entry) : List Call → Prop
  | [] => table.Faithful live
  | call :: rest => table.Faithful live ∧
      ∃ after, table.apply call = some after ∧ (call.Idle live → after = table) ∧
        Stores after (call.update live) rest

/-- An insertion has room behind the search bound. An erased key is stored once, and not in the
last entry; the last alternative is an erase from an empty table whose entries have no bytes. -/
def Allows (table : LogicTcam) : Call → Prop
  | .insert _ _ => table.size < table.cap
  | .erase key =>
      (table.entries.countP fun entry => entry.1 = key) = 1 ∧
        (∀ last ∈ table.entries.getLast?, last.1 ≠ key) ∨
        table.entryLen = 0 ∧ table.size = 0 ∧ 0 < table.cap

instance (table : LogicTcam) (call : Call) : Decidable (table.Allows call) := by
  cases call <;> unfold Allows <;> infer_instance

def AllowsRun (table : LogicTcam) : List Call → Prop
  | [] => True
  | call :: rest => table.Allows call ∧ ∀ after ∈ table.apply call, AllowsRun after rest

instance AllowsRun.decidable (table : LogicTcam) (calls : List Call) : Decidable (table.AllowsRun calls) :=
  match calls with
  | [] => isTrue trivial
  | call :: rest =>
      have (after : LogicTcam) := AllowsRun.decidable after rest
      inferInstanceAs (Decidable (table.Allows call ∧ ∀ after ∈ table.apply call, AllowsRun after rest))

/-! ### What an erase leaves -/

/-- The entries behind the first of a key move up, and the last one stays where it is. -/
def shifted (entries : List Entry) (key : List UInt8) : List Entry :=
  entries.eraseIdx (entries.findIdx fun entry => entry.1 = key) ++ entries.drop (entries.length - 1)

variable {entries : List Entry} {key : List UInt8}

private theorem split_first (known : key ∈ entries.map Prod.fst) :
    ∃ front entry back, entries = front ++ entry :: back ∧
    entry.1 = key ∧ (∀ other ∈ front, other.1 ≠ key) := by
  induction entries with
  | nil => cases known
  | cons first rest ih =>
      by_cases same : first.1 = key
      · exact ⟨[], first, rest, rfl, same, nofun⟩
      · have later : key ∈ rest.map Prod.fst := (List.mem_cons.mp known).resolve_left (Ne.symm same)
        obtain ⟨front, entry, back, rfl, found, before⟩ := ih later
        exact ⟨first :: front, entry, back, rfl, found, List.forall_mem_cons.mpr ⟨same, before⟩⟩

private theorem shifted_split {front back : List Entry} {entry : Entry} (found : entry.1 = key)
    (before : ∀ other ∈ front, other.1 ≠ key) :
    shifted (front ++ entry :: back) key = front ++ back ++ (entry :: back).drop back.length := by
  have none_ : front.findIdx (fun entry => entry.1 = key) = front.length := by
    apply List.findIdx_eq_length.mpr
    intro other member
    exact decide_eq_false (before other member)
  have first : (front ++ entry :: back).findIdx (fun entry => entry.1 = key) = front.length := by
    rw [List.findIdx_append, none_, if_neg (Nat.lt_irrefl _), List.findIdx_cons]
    simp [found]
  have last : (front ++ entry :: back).length - 1 = front.length + back.length := by
    rw [List.length_append, List.length_cons]
    omega
  rw [shifted, first, last, List.eraseIdx_append_of_length_le (Nat.le_refl _), Nat.sub_self,
    List.eraseIdx_cons_zero, List.drop_length_add_append]

theorem mem_shifted {entry : Entry} (member : entry ∈ shifted entries key) : entry ∈ entries := by
  rcases List.mem_append.mp member with moved | last
  · exact List.mem_of_mem_eraseIdx moved
  · exact List.mem_of_mem_drop last

theorem mem_shifted_of_ne (known : key ∈ entries.map Prod.fst) {entry : Entry} (member : entry ∈ entries)
    (different : entry.1 ≠ key) : entry ∈ shifted entries key := by
  obtain ⟨front, first, back, rfl, found, before⟩ := split_first known
  rw [shifted_split found before]
  apply List.mem_append_left
  rcases List.mem_append.mp member with inFront | behind
  · exact List.mem_append_left _ inFront
  · rcases List.mem_cons.mp behind with rfl | inBack
    · exact absurd found different
    · exact List.mem_append_right _ inBack

/-- The key is gone if it was stored once, and not in the last entry. -/
theorem key_not_mem_shifted_iff (known : key ∈ entries.map Prod.fst) :
    (∀ entry ∈ shifted entries key, entry.1 ≠ key) ↔
    (entries.countP fun entry => entry.1 = key) = 1 ∧ ∀ last ∈ entries.getLast?, last.1 ≠ key := by
  obtain ⟨front, first, back, rfl, found, before⟩ := split_first known
  rw [shifted_split found before]
  have none_ : (front.countP fun entry => entry.1 = key) = 0 := by
    apply List.countP_eq_zero.mpr
    intro other member
    simpa using before other member
  rw [List.countP_append, none_, Nat.zero_add]
  rcases List.eq_nil_or_concat back with rfl | ⟨rest, last, rfl⟩
  · constructor
    · intro gone
      exact absurd found (gone first (List.mem_append_right _ List.mem_cons_self))
    · intro condition
      exact absurd found (condition.2 first (by simp))
  · have isLast : (first :: rest.concat last).drop (rest.concat last).length = [last] := by
      rw [List.concat_eq_append, List.length_append, List.length_singleton, List.drop_succ_cons,
        List.drop_left' rfl]
    have getLast : (front ++ first :: rest.concat last).getLast? = some last := by
      rw [List.concat_eq_append, ← List.cons_append, ← List.append_assoc, List.getLast?_concat]
    have count : ((first :: rest.concat last).countP fun entry => entry.1 = key) = 1 ↔
        (∀ entry ∈ rest, entry.1 ≠ key) ∧ last.1 ≠ key := by
      rw [List.countP_cons_of_pos (by simpa using found), Nat.add_eq_right, List.countP_eq_zero,
        List.concat_eq_append]
      simp [or_imp, forall_and]
    rw [isLast, getLast, count]
    simp only [List.concat_eq_append, List.mem_append, List.mem_singleton, or_imp, forall_and,
      forall_eq, Option.mem_def, Option.some.injEq, forall_eq']
    exact and_congr_left' (and_iff_right before)

/-! ### Steps -/

/-- The table stores what is live, some of it more than once. -/
structure Represents (table : LogicTcam) (live : List Entry) : Prop where
  valid : table.Valid
  same : ∀ entry, entry ∈ table.entries ↔ entry ∈ live
  distinct : (live.map Prod.fst).Nodup

variable {table : LogicTcam} {live : List Entry}

private theorem take_key (right : key.length = table.keyLen) : key.take table.keyLen = key :=
  List.take_of_length_le (Nat.le_of_eq right)

theorem matchExact_of_length (valid : table.Valid) (right : key.length = table.keyLen) :
    table.matchExact key = some (table.entries.findIdx fun entry => entry.1 = key) := by
  rw [matchExact_eq valid, take_key right]

private theorem matchExact_absent_iff (valid : table.Valid) (right : key.length = table.keyLen) :
    table.matchExact key = some table.endPos ↔ ∀ entry ∈ table.entries, entry.1 ≠ key := by
  rw [matchExact_of_length valid right, Option.some.injEq, endPos, ← length_entries, List.findIdx_eq_length]
  simp only [decide_eq_false_iff_not, ne_eq]

private theorem Represents.known_iff (represents : table.Represents live) :
    key ∈ table.entries.map Prod.fst ↔ key ∈ live.map Prod.fst := by
  simp only [List.mem_map, represents.same]

private theorem Represents.absent_iff (represents : table.Represents live)
    (right : key.length = table.keyLen) :
    table.matchExact key = some table.endPos ↔ key ∉ live.map Prod.fst := by
  rw [matchExact_absent_iff represents.valid right, ← represents.known_iff]
  constructor
  · intro none_ known
    obtain ⟨entry, member, same⟩ := List.mem_map.mp known
    exact none_ entry member same
  · intro unknown entry member same
    exact unknown (same ▸ List.mem_map_of_mem member)

private theorem Represents.position (represents : table.Represents live) (known : key ∈ live.map Prod.fst) :
    table.matchExact key = some (table.entries.findIdx fun entry => entry.1 = key) ∧
      (table.entries.findIdx fun entry => entry.1 = key) < table.size := by
  obtain ⟨entry, member, rfl⟩ := List.mem_map.mp (represents.known_iff.mpr known)
  refine ⟨matchExact_of_length represents.valid (length_key represents.valid member), ?_⟩
  rw [← length_entries]
  exact List.findIdx_lt_length_of_exists ⟨entry, member, by simp⟩

theorem Represents.faithful (represents : table.Represents live) : table.Faithful live where
  found key val member := by
    have known : key ∈ live.map Prod.fst := List.mem_map_of_mem member
    obtain ⟨isPos, low⟩ := represents.position known
    refine ⟨_, isPos, low, ?_⟩
    have here := entries_getElem? low
    have stored := (represents.same _).mp (List.mem_of_getElem? here)
    obtain ⟨bound, isEntry⟩ := List.getElem?_eq_some_iff.mp here
    have sameKey := @List.findIdx_getElem _ (fun entry => entry.1 = key) table.entries bound
    rw [isEntry, decide_eq_true_eq] at sameKey
    exact List.inj_on_of_nodup_map represents.distinct stored member sameKey
  absent key right := (represents.absent_iff right).mpr

theorem Represents.insert (represents : table.Represents live) {val : List UInt8}
    (legal : (Call.insert key val).Legal table.keyLen table.valLen table.cap live)
    (room : table.size < table.cap) :
    ∃ after, table.apply (.insert key val) = some after ∧
      after.Represents ((Call.insert key val).update live) ∧
      after.keyLen = table.keyLen ∧ after.valLen = table.valLen ∧ after.cap = table.cap := by
  obtain ⟨keyLength, valLength, fresh, -⟩ := legal
  obtain ⟨after, inserted, holds⟩ := insert_holds represents.valid keyLength valLength room
  refine ⟨after, inserted, ⟨holds.valid, ?_, ?_⟩, holds.keyLen, holds.valLen, holds.cap⟩
  · intro entry
    rw [holds.entries, Call.update, List.mem_append, List.mem_append, represents.same]
  · rw [Call.update, List.map_append, List.map_singleton, List.nodup_append]
    refine ⟨represents.distinct, List.nodup_singleton _, ?_⟩
    intro other old new isNew
    rw [List.mem_singleton.mp isNew]
    rintro rfl
    exact fresh old

/-- An erased key is gone if the table allows the erase, and the table still finds it otherwise. -/
theorem Represents.erase (represents : table.Represents live) (known : key ∈ live.map Prod.fst) :
    ∃ after, table.apply (.erase key) = some after ∧
      after.keyLen = table.keyLen ∧ after.valLen = table.valLen ∧ after.cap = table.cap ∧
      (table.Allows (.erase key) → after.Represents ((Call.erase key).update live)) ∧
      (after.Faithful ((Call.erase key).update live) → table.Allows (.erase key)) := by
  obtain ⟨isPos, low⟩ := represents.position known
  obtain ⟨after, erased, holds, -⟩ := erase_holds represents.valid isPos low
  have isShifted : after.entries = shifted table.entries key := by
    rw [holds.entries, shifted, length_entries]
  have stored := represents.known_iff.mpr known
  have gone := key_not_mem_shifted_iff stored
  refine ⟨after, erased, holds.keyLen, holds.valLen, holds.cap, ?_, ?_⟩
  · rintro (once | ⟨-, empty, -⟩)
    · refine ⟨holds.valid, ?_, represents.distinct.sublist (List.filter_sublist.map Prod.fst)⟩
      intro entry
      rw [isShifted, Call.update, List.mem_filter, ← represents.same, decide_eq_true_eq]
      constructor
      · intro member
        exact ⟨mem_shifted member, gone.mpr once entry member⟩
      · intro kept
        exact mem_shifted_of_ne stored kept.1 kept.2
    · omega
  · intro faithful
    refine Or.inl (gone.mp ?_)
    obtain ⟨entry, member, rfl⟩ := List.mem_map.mp stored
    have right := (length_key represents.valid member).trans holds.keyLen.symm
    rw [← isShifted, ← matchExact_absent_iff holds.valid right]
    apply faithful.absent _ right
    simp [Call.update]

/-- An erase of an absent key returns only if it has nothing to move. -/
theorem Represents.eraseAbsent (represents : table.Represents live) (right : key.length = table.keyLen)
    (unknown : key ∉ live.map Prod.fst) :
    table.apply (.erase key) = (if table.Allows (.erase key) then some table else none) := by
  have missing : table.matchExact key = some table.size := (represents.absent_iff right).mpr unknown
  have notOnce : (table.entries.countP fun entry => entry.1 = key) ≠ 1 := by
    intro once
    obtain ⟨entry, member, same⟩ := List.countP_pos_iff.mp (Nat.lt_of_lt_of_eq Nat.one_pos once.symm)
    exact unknown (represents.known_iff.mp (of_decide_eq_true same ▸ List.mem_map_of_mem member))
  have empty : table.entryLen = 0 → table.size = 0 := by
    intro noBytes
    by_contra some_
    have first := entries_getElem? (Nat.pos_of_ne_zero some_)
    have member := List.mem_of_getElem? first
    have noKey : (table.entryAt 0).1 = key := by
      have length := length_key represents.valid member
      unfold entryLen at noBytes
      rw [List.eq_nil_of_length_eq_zero (length.trans (by omega)),
        List.eq_nil_of_length_eq_zero (right.trans (by omega))]
    exact unknown (represents.known_iff.mp (noKey ▸ List.mem_map_of_mem member))
  have condition : table.Allows (.erase key) ↔ table.size < table.cap ∧ table.entryLen = 0 := by
    rw [Allows, or_iff_right (fun once => notOnce once.1)]
    constructor
    · rintro ⟨noBytes, noEntries, room⟩
      exact ⟨noEntries ▸ room, noBytes⟩
    · rintro ⟨room, noBytes⟩
      exact ⟨noBytes, empty noBytes, empty noBytes ▸ room⟩
  rw [apply, erase_absent missing]
  simp only [condition]

/-! ### Runs -/

theorem Stores.faithful {calls : List Call} (stores : table.Stores live calls) : table.Faithful live := by
  cases calls with
  | nil => exact stores
  | cons call rest => exact stores.1

section Step

variable {call : Call} {rest : List Call}

private theorem step_iff {after : LogicTcam} (faithful : table.Faithful live)
    (applied : table.apply call = some after)
    (idle : call.Idle live → after = table) (only : after.Faithful (call.update live) → table.Allows call)
    (run : table.Allows call → (after.Stores (call.update live) rest ↔ after.AllowsRun rest)) :
    table.Stores live (call :: rest) ↔ table.AllowsRun (call :: rest) := by
  rw [Stores, AllowsRun, and_iff_right faithful, applied]
  constructor
  · intro ⟨other, isAfter, _, stores⟩
    cases isAfter
    have allowed := only stores.faithful
    refine ⟨allowed, fun other isAfter => ?_⟩
    cases isAfter
    exact (run allowed).mp stores
  · intro ⟨allowed, runs⟩
    exact ⟨after, rfl, idle, (run allowed).mpr (runs after rfl)⟩

private theorem failed_iff (applied : table.apply call = none) (disallowed : ¬table.Allows call) :
    table.Stores live (call :: rest) ↔ table.AllowsRun (call :: rest) := by
  refine iff_of_false ?_ (fun runs => disallowed runs.1)
  intro ⟨_, after, isAfter, _⟩
  rw [applied] at isAfter
  cases isAfter

end Step

theorem Represents.stores_iff (represents : table.Represents live) {calls : List Call}
    (legal : LegalRun table.keyLen table.valLen table.cap live calls) :
    table.Stores live calls ↔ table.AllowsRun calls := by
  induction calls generalizing table live with
  | nil => exact iff_of_true represents.faithful trivial
  | cons call rest ih =>
      obtain ⟨legalCall, legalRest⟩ := legal
      cases call with
      | insert key val =>
          by_cases room : table.size < table.cap
          · obtain ⟨after, inserted, stored, keyLen, valLen, cap⟩ := represents.insert legalCall room
            rw [← keyLen, ← valLen, ← cap] at legalRest
            exact step_iff represents.faithful inserted False.elim (fun _ => room)
              (fun _ => ih stored legalRest)
          · exact failed_iff (insert_full (Nat.le_of_not_lt room) key val) room
      | erase key =>
          by_cases known : key ∈ live.map Prod.fst
          · obtain ⟨after, erased, keyLen, valLen, cap, keeps, only⟩ := represents.erase known
            rw [← keyLen, ← valLen, ← cap] at legalRest
            exact step_iff represents.faithful erased (absurd known) only (fun allowed =>
              ih (keeps allowed) legalRest)
          · have unchanged : (Call.erase key).update live = live := by
              apply List.filter_eq_self.mpr
              intro entry member
              apply decide_eq_true
              intro same
              exact known (same ▸ List.mem_map_of_mem member)
            have applied := represents.eraseAbsent legalCall known
            rw [unchanged] at legalRest
            by_cases allowed : table.Allows (.erase key)
            · rw [if_pos allowed] at applied
              refine step_iff represents.faithful applied (fun _ => rfl) (fun _ => allowed) (fun _ => ?_)
              rw [unchanged]
              exact ih represents legalRest
            · rw [if_neg allowed] at applied
              exact failed_iff applied allowed

theorem new_represents (memory : Nat → UInt8) (keyLen valLen cap : Nat) :
    (new memory keyLen valLen cap).Represents [] where
  valid := new_valid memory keyLen valLen cap
  same _ := Iff.rfl
  distinct := List.nodup_nil

/-- A new table stores what is live in exactly the runs whose every step it allows. -/
theorem new_stores_iff (memory : Nat → UInt8) {keyLen valLen cap : Nat} {calls : List Call}
    (legal : LegalRun keyLen valLen cap [] calls) :
    (new memory keyLen valLen cap).Stores [] calls ↔ (new memory keyLen valLen cap).AllowsRun calls :=
  (new_represents memory keyLen valLen cap).stores_iff legal

/-- An entry that is followed by another can be erased, and its room is lost. -/
theorem new_stores_followed : (new (fun _ => 0) 1 1 3).Stores [] [.insert [1] [10],
      .insert [2] [20], .erase [1], .insert [1] [30]] :=
  (new_stores_iff (fun _ => 0) (by decide)).mpr (by decide)

/-- The last entry stays, an absent key moves memory that no table has, and a freed entry is not
reused. -/
theorem not_new_stores_last : LegalRun 1 1 2 [] [.insert [1] [10], .erase [1]] ∧
    ¬(new (fun _ => 0) 1 1 2).Stores [] [.insert [1] [10], .erase [1]] ∧
    ¬(new (fun _ => 0) 1 1 2).Stores [] [.erase [1]] ∧
    ¬(new (fun _ => 0) 1 1 2).Stores [] [.insert [1] [10], .insert [2] [20], .erase [1],
      .insert [3] [30]] := by
  have start := new_represents (fun _ => 0) 1 1 2
  refine ⟨by decide, ?_, ?_, ?_⟩
  · rw [start.stores_iff (by decide)]
    decide
  · rw [start.stores_iff (by decide)]
    decide
  · rw [start.stores_iff (by decide)]
    decide

end LogicTcam

end Ipbm.Legacy
