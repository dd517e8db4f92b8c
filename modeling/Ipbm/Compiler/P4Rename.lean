import Mathlib.Data.List.Forall2
import Mathlib.Data.List.Infix
import Mathlib.Tactic.Push

/-! Shortened names (`p4r/p4_rename.h`). A name loses its leading components as long
as no other name ends like what is left. -/

set_option autoImplicit false

namespace Ipbm.Compiler.P4r

/-- `std::to_string`. -/
def intText (value : Int) : List Char :=
  if value < 0 then '-' :: Nat.toDigits 10 value.natAbs else Nat.toDigits 10 value.natAbs

/-- What stands behind the first dot. -/
def behindDot (text : List Char) : Option (List Char) :=
  match text.dropWhile (· ≠ '.') with
  | [] => none
  | _ :: rest => some rest

def dotsToUnderscores (text : List Char) : List Char := text.map fun c => if c = '.' then '_' else c

/-- The vectors of the class, as one list of entries with different names; `new_names` keeps what
`getName` computed. -/
structure RenameEntry where
  originalName : String
  hasSuffix : Bool
  isDuplicated : Bool
  deriving DecidableEq, Repr

abbrev P4Rename : Type := List RenameEntry

namespace P4Rename

def addName (rename : P4Rename) (name : String) (suffix : Bool) : P4Rename :=
  if rename.any fun entry => entry.originalName = name then
    rename.map fun entry => if entry.originalName = name then { entry with isDuplicated := true } else entry
  else
    rename ++ [⟨name, suffix, false⟩]

def addNames (rename : P4Rename) (names : List (String × Bool)) : P4Rename :=
  names.foldl (fun rename name => rename.addName name.1 name.2) rename

/-- The loop over the dots, which ends after ten. -/
def shorten (rename : P4Rename) (originalName : String) : Nat → List Char → List Char
  | 0, text => text
  | fuel + 1, text =>
      match behindDot text with
      | none => text
      | some rest =>
          if rename.any fun entry =>
              entry.originalName ≠ originalName && rest.isSuffixOf entry.originalName.toList then
            text
          else
            shorten rename originalName fuel rest

def getName (rename : P4Rename) (originalName : String) (index : Int) : List Char :=
  match rename.find? fun entry => entry.originalName = originalName with
  | none => originalName.toList
  | some entry =>
      let temp := dotsToUnderscores (rename.shorten originalName 10 originalName.toList)
      let newName := if entry.hasSuffix then temp ++ "_s".toList else temp
      if entry.isDuplicated then newName ++ '_' :: intText index else newName

end P4Rename

/-! ### Which names fall together -/

theorem intText_injective {left right : Int} (same : intText left = intText right) : left = right := by
  have digits (value : Nat) : '-' ∉ Nat.toDigits 10 value := by
    intro member
    have digit := Nat.isDigit_of_mem_toDigits (by decide) (by decide) member
    cases digit
  have back {left right : Nat} (same : Nat.toDigits 10 left = Nat.toDigits 10 right) : left = right := by
    rw [← Nat.ofDigitChars_ten_toDigits (n := left), same, Nat.ofDigitChars_ten_toDigits]
  unfold intText at same
  split at same
  · split at same
    · have abs := back (List.cons.inj same).2
      omega
    · exact absurd (same ▸ List.mem_cons_self) (digits _)
  · split at same
    · exact absurd (same ▸ List.mem_cons_self) (digits _)
    · have abs := back same
      omega

/-- The text behind some number of dots. -/
inductive BehindDots (name : List Char) : Nat → List Char → Prop where
  | whole : BehindDots name 0 name
  | step {count : Nat} {text rest : List Char} :
      BehindDots name count text → behindDot text = some rest → BehindDots name (count + 1) rest

/-- The shortest ending of a name, behind ten dots at most, that no other name ends with; the whole
name if there is none. -/
def OwnEnding (names : List String) (name : String) (text : List Char) : Prop :=
  ∃ count, count ≤ 10 ∧ BehindDots name.toList count text ∧
    (count ≠ 0 → ∀ other ∈ names, other ≠ name → ¬ text <:+ other.toList) ∧
    (count ≠ 10 → ∀ rest, behindDot text = some rest → ∃ other ∈ names, other ≠ name ∧ rest <:+ other.toList)

namespace BehindDots

variable {name text other : List Char} {count more : Nat}

theorem unique (left : BehindDots name count text) (right : BehindDots name count other) : text = other := by
  induction left generalizing other with
  | whole =>
      cases right
      rfl
  | step _ behind ih =>
      cases right with
      | step later behind' =>
          cases ih later
          exact Option.some.inj (behind.symm.trans behind')

theorem suffix_behindDot {rest : List Char} (behind : behindDot text = some rest) : rest <:+ text := by
  unfold behindDot at behind
  split at behind
  · cases behind
  · rename_i dot rest' split
    obtain rfl := Option.some.inj behind
    exact (List.suffix_cons dot rest').trans (split ▸ List.dropWhile_suffix _)

/-- Behind more dots stands less of the text. -/
theorem suffix (left : BehindDots name count text) (right : BehindDots name more other)
    (later : count ≤ more) :
    other <:+ text := by
  induction right with
  | whole =>
      obtain rfl := Nat.le_zero.mp later
      rw [left.unique .whole]
  | @step more middle rest before behind ih =>
      rcases Nat.lt_or_eq_of_le later with less | rfl
      · exact (suffix_behindDot behind).trans (ih (Nat.le_of_lt_succ less))
      · rw [left.unique (.step before behind)]

/-- Something stands behind the next dot if something stands behind a later one. -/
theorem next (left : BehindDots name count text) (right : BehindDots name more other) (later : count < more) :
    ∃ rest, behindDot text = some rest ∧ other <:+ rest := by
  induction right with
  | whole => cases later
  | @step more middle rest before behind ih =>
      rcases Nat.lt_or_eq_of_le (Nat.le_of_lt_succ later) with less | rfl
      · obtain ⟨first, isFirst, ending⟩ := ih less
        exact ⟨first, isFirst, (suffix_behindDot behind).trans ending⟩
      · cases left.unique before
        exact ⟨rest, behind, List.suffix_refl rest⟩

end BehindDots

namespace OwnEnding

variable {names : List String} {name other : String} {text otherText : List Char}

theorem count_not_lt {count more : Nat} (behind : BehindDots name.toList count text)
    (behindMore : BehindDots name.toList more otherText)
    (least : count ≠ 10 → ∀ rest, behindDot text = some rest →
      ∃ other ∈ names, other ≠ name ∧ rest <:+ other.toList)
    (own : more ≠ 0 → ∀ other ∈ names, other ≠ name → ¬ otherText <:+ other.toList) (bound : more ≤ 10) :
    ¬ count < more := by
  intro less
  obtain ⟨rest, isRest, ending⟩ := behind.next behindMore less
  obtain ⟨other, listed, different, ends⟩ := least (by omega) rest isRest
  exact own (by omega) other listed different (ending.trans ends)

theorem unique (left : OwnEnding names name text) (right : OwnEnding names name otherText) :
    text = otherText := by
  obtain ⟨count, bound, behind, own, least⟩ := left
  obtain ⟨more, otherBound, otherBehind, otherOwn, otherLeast⟩ := right
  have notLess := count_not_lt behind otherBehind least otherOwn otherBound
  have notMore := count_not_lt otherBehind behind otherLeast own bound
  obtain rfl : count = more := by omega
  exact behind.unique otherBehind

/-- Different names have different endings of their own. -/
theorem ne (left : OwnEnding names name text) (right : OwnEnding names other otherText)
    (listed : name ∈ names) (otherListed : other ∈ names) (different : name ≠ other) : text ≠ otherText := by
  rintro rfl
  obtain ⟨count, _, behind, own, _⟩ := left
  obtain ⟨more, _, otherBehind, otherOwn, _⟩ := right
  have ends := BehindDots.suffix .whole behind (Nat.zero_le _)
  have otherEnds := BehindDots.suffix .whole otherBehind (Nat.zero_le _)
  cases count with
  | succ count => exact own (Nat.succ_ne_zero _) other otherListed different.symm otherEnds
  | zero =>
      cases more with
      | succ more => exact otherOwn (Nat.succ_ne_zero _) name listed different ends
      | zero =>
          exact different (String.toList_inj.mp
            ((behind.unique .whole).symm.trans (otherBehind.unique .whole)))

theorem congr {more : List String} (same : ∀ other, other ∈ names ↔ other ∈ more)
    (ending : OwnEnding names name text) : OwnEnding more name text := by
  obtain ⟨count, bound, behind, own, least⟩ := ending
  refine ⟨count, bound, behind, fun positive other listed => own positive other ((same other).mpr listed), ?_⟩
  intro small rest isRest
  obtain ⟨other, listed, found⟩ := least small rest isRest
  exact ⟨other, (same other).mp listed, found⟩

end OwnEnding

namespace P4Rename

theorem any_endsWith {rename : P4Rename} {name : String} {rest : List Char} :
    (rename.any fun entry => entry.originalName ≠ name && rest.isSuffixOf entry.originalName.toList) = true ↔
      ∃ other ∈ rename.map RenameEntry.originalName, other ≠ name ∧ rest <:+ other.toList := by
  simp [List.any_eq_true, List.isSuffixOf_iff_suffix]

/-- The loop ends with the ending that is the name's own. -/
theorem shorten_ownEnding (rename : P4Rename) (name : String) :
    OwnEnding (rename.map RenameEntry.originalName) name (rename.shorten name 10 name.toList) := by
  have general (fuel count : Nat) (text : List Char) (turns : count + fuel = 10)
      (behind : BehindDots name.toList count text)
      (own : count ≠ 0 → ∀ other ∈ rename.map RenameEntry.originalName, other ≠ name →
        ¬ text <:+ other.toList) :
      OwnEnding (rename.map RenameEntry.originalName) name (rename.shorten name fuel text) := by
    induction fuel generalizing count text with
    | zero => exact ⟨count, by omega, behind, own, fun small => absurd turns small⟩
    | succ fuel ih =>
        unfold shorten
        cases next : behindDot text with
        | none => exact ⟨count, by omega, behind, own, fun _ rest isRest => nomatch next.symm.trans isRest⟩
        | some rest =>
            dsimp only
            split
            case isTrue shared =>
              refine ⟨count, by omega, behind, own, fun _ other isOther => ?_⟩
              obtain rfl := Option.some.inj (next.symm.trans isOther)
              exact any_endsWith.mp shared
            case isFalse free =>
              refine ih (count + 1) rest (by omega) (.step behind next) ?_
              intro _ other listed different ends
              exact free (any_endsWith.mpr ⟨other, listed, different, ends⟩)
  exact general 10 0 name.toList rfl .whole fun positive => absurd rfl positive

/-! The entries after some names have been added. -/

theorem find_addName (rename : P4Rename) (name other : String) (suffix : Bool) :
    (rename.addName name suffix).find? (fun entry => entry.originalName = other) =
      if other = name then
        some (match rename.find? fun entry => entry.originalName = name with
          | some entry => { entry with isDuplicated := true }
          | none => ⟨name, suffix, false⟩)
      else
        rename.find? fun entry => entry.originalName = other := by
  unfold addName
  by_cases present : rename.any fun entry => entry.originalName = name
  · have kept : ((fun entry : RenameEntry => decide (entry.originalName = other)) ∘ fun entry =>
        if entry.originalName = name then { entry with isDuplicated := true } else entry) =
          fun entry => decide (entry.originalName = other) := by
      funext entry
      by_cases same : entry.originalName = name <;> simp [same]
    rw [if_pos present, List.find?_map, kept]
    cases found : rename.find? fun entry => entry.originalName = other with
    | none =>
        obtain ⟨entry, listed, same⟩ := List.any_eq_true.mp present
        have absent := List.find?_eq_none.mp found entry listed
        rw [if_neg (fun equal => absent (by simpa [equal] using same)), Option.map_none]
    | some entry =>
        have isOther : entry.originalName = other := by simpa using List.find?_some found
        by_cases equal : other = name
        · rw [if_pos equal, ← equal, found, Option.map_some, if_pos isOther]
        · rw [if_neg equal, Option.map_some, if_neg (fun same => equal (isOther.symm.trans same))]
  · have absent : (rename.find? fun entry => entry.originalName = name) = none := by
      rw [List.find?_eq_none]
      intro entry listed same
      exact present (List.any_eq_true.mpr ⟨entry, listed, same⟩)
    rw [if_neg present, List.find?_append, absent]
    by_cases equal : other = name
    · rw [if_pos equal, equal, absent]
      simp
    · rw [if_neg equal]
      simp [Ne.symm equal]

/-- The entry of a name after some names have been added with their flags. -/
def addedEntry (added : List (String × Bool)) (name : String) : Option RenameEntry :=
  (added.find? fun pair => pair.1 = name).map fun first =>
    ⟨name, first.2, decide (2 ≤ (added.map Prod.fst).count name)⟩

theorem find_addNames (added : List (String × Bool)) (name : String) :
    ((addNames [] added).find? fun entry => entry.originalName = name) = addedEntry added name := by
  induction added using List.reverseRecOn generalizing name with
  | nil => rfl
  | append_singleton added last ih =>
      have front : addNames [] (added ++ [last]) = (addNames [] added).addName last.1 last.2 :=
        List.foldl_concat ..
      rw [front, find_addName, ih, ih]
      unfold addedEntry
      rw [List.map_append, List.count_append, List.find?_append]
      by_cases same : name = last.1
      · subst same
        rw [if_pos rfl]
        cases found : added.find? fun pair => pair.1 = last.1 with
        | none =>
            have absent : last.1 ∉ added.map Prod.fst := by
              intro member
              obtain ⟨pair, listed, same⟩ := List.mem_map.mp member
              exact List.find?_eq_none.mp found pair listed (by simpa using same)
            simp [List.count_eq_zero.mpr absent]
        | some first =>
            have member : last.1 ∈ added.map Prod.fst := by
              have isFirst : first.1 = last.1 := by simpa using List.find?_some found
              exact isFirst ▸ List.mem_map_of_mem (List.mem_of_find?_eq_some found)
            have twice : 2 ≤ (added.map Prod.fst).count last.1 + 1 :=
              Nat.succ_le_succ (List.count_pos_iff.mpr member)
            simp [twice]
      · rw [if_neg same]
        simp [Ne.symm same]

theorem mem_addNames (added : List (String × Bool)) (name : String) :
    name ∈ (addNames [] added).map RenameEntry.originalName ↔ name ∈ added.map Prod.fst := by
  have left : name ∈ (addNames [] added).map RenameEntry.originalName ↔
      ((addNames [] added).find? fun entry => entry.originalName = name).isSome := by
    simp [List.find?_isSome]
  have right : name ∈ added.map Prod.fst ↔ (addedEntry added name).isSome := by
    simp [addedEntry, List.find?_isSome]
  rw [left, right, find_addNames]

/-- A name whose first entry asks for `_s`. -/
def suffixed (added : List (String × Bool)) (name : String) : Bool :=
  (added.find? fun pair => pair.1 = name).any Prod.snd

/-- A name that was added more than once, and so gets the index. -/
def twice (added : List (String × Bool)) (name : String) : Bool := 2 ≤ (added.map Prod.fst).count name

/-- The ending with its suffix. -/
def stem (suffix : Bool) (text : List Char) : List Char :=
  if suffix then dotsToUnderscores text ++ "_s".toList else dotsToUnderscores text

theorem getName_eq {added : List (String × Bool)} {name : String}
    (listed : name ∈ added.map Prod.fst) (index : Int) :
    ∃ text, OwnEnding (added.map Prod.fst) name text ∧
      (addNames [] added).getName name index =
        if twice added name then stem (suffixed added name) text ++ '_' :: intText index
        else stem (suffixed added name) text := by
  refine ⟨_, (shorten_ownEnding (addNames [] added) name).congr (mem_addNames added), ?_⟩
  obtain ⟨pair, member, same⟩ := List.mem_map.mp listed
  obtain ⟨first, found⟩ : ∃ first, (added.find? fun pair => pair.1 = name) = some first :=
    Option.isSome_iff_exists.mp (List.find?_isSome.mpr ⟨pair, member, by simpa using same⟩)
  rw [getName, find_addNames, addedEntry, found, suffixed, found]
  rfl

end P4Rename

/-! ### Names that read alike -/

def IsSeparator (letter : Char) : Prop := letter = '.' ∨ letter = '_'

/-- Names with the same letters, where a dot and an underscore count as one. -/
def ReadAlike (left right : List Char) : Prop :=
  List.Forall₂ (fun letter other => letter = other ∨ IsSeparator letter ∧ IsSeparator other) left right

/-- A name that ends in a separator with a word behind it. -/
def EndsIn (name front word : List Char) : Prop :=
  ∃ separator, IsSeparator separator ∧ name = front ++ separator :: word

/-- Endings that read alike, where a name that gets `_s` reads like one that has it. -/
def StemsAlike : Bool → Bool → List Char → List Char → Prop
  | false, false, left, right | true, true, left, right => ReadAlike left right
  | true, false, left, right => ∃ front, EndsIn right front ['s'] ∧ ReadAlike left front
  | false, true, left, right => ∃ front, EndsIn left front ['s'] ∧ ReadAlike front right

/-- Two names merge if their endings read alike and they have the same index or none, or if one of
them gets an index that the other one has in its name. -/
def Merge (added : List (String × Bool)) (left right : String × Int) (text other : List Char) : Prop :=
  match P4Rename.twice added left.1, P4Rename.twice added right.1 with
  | false, false => StemsAlike (P4Rename.suffixed added left.1) (P4Rename.suffixed added right.1) text other
  | true, true => left.2 = right.2 ∧
      StemsAlike (P4Rename.suffixed added left.1) (P4Rename.suffixed added right.1) text other
  | true, false => P4Rename.suffixed added right.1 = false ∧ ∃ front, EndsIn other front (intText left.2) ∧
      StemsAlike (P4Rename.suffixed added left.1) false text front
  | false, true => P4Rename.suffixed added left.1 = false ∧ ∃ front, EndsIn text front (intText right.2) ∧
      StemsAlike false (P4Rename.suffixed added right.1) front other

/-- Two objects of one name have different indices that are printed, and two of different names have
endings of their own that do not merge. -/
def KeptApart (added : List (String × Bool)) (left right : String × Int) : Prop :=
  if left.1 = right.1 then
    2 ≤ (added.map Prod.fst).count left.1 ∧ left.2 ≠ right.2
  else
    ∀ text other, OwnEnding (added.map Prod.fst) left.1 text → OwnEnding (added.map Prod.fst) right.1 other →
      ¬ Merge added left right text other

namespace P4Rename

private theorem printed_letter {letter other : Char} :
    (if letter = '.' then '_' else letter) = (if other = '.' then '_' else other) ↔
      letter = other ∨ IsSeparator letter ∧ IsSeparator other := by
  unfold IsSeparator
  by_cases dot : letter = '.' <;> by_cases otherDot : other = '.' <;> simp [dot, otherDot, eq_comm]
  rintro rfl
  exact fun same => same.symm

theorem readAlike_iff {left right : List Char} :
    dotsToUnderscores left = dotsToUnderscores right ↔ ReadAlike left right := by
  unfold dotsToUnderscores ReadAlike
  induction left generalizing right with
  | nil => cases right <;> simp
  | cons letter rest ih =>
      cases right with
      | nil => simp
      | cons other right =>
          rw [List.map_cons, List.map_cons, List.cons.injEq, List.forall₂_cons, ih, printed_letter]

/-- Letters that are printed as they are. -/
private def Plain (word : List Char) : Prop := ∀ letter ∈ word, ¬ IsSeparator letter

private theorem printed_plain {text word : List Char} (plain : Plain word) :
    dotsToUnderscores text = word ↔ text = word := by
  constructor
  · rintro rfl
    refine (List.map_congr_left fun letter member => ?_).trans (List.map_id text) |>.symm
    have printed := plain _ (List.mem_map_of_mem (f := fun c => if c = '.' then '_' else c) member)
    by_cases dot : letter = '.'
    · exact absurd (.inr (if_pos dot)) printed
    · rw [if_neg dot, id]
  · rintro rfl
    refine (List.map_congr_left fun letter member => ?_).trans (List.map_id text)
    rw [if_neg fun dot => plain letter member (.inl dot), id]

private theorem endsIn_iff {name printed word : List Char} (plain : Plain word) :
    dotsToUnderscores name = printed ++ '_' :: word ↔ ∃ front, EndsIn name front word ∧
      dotsToUnderscores front = printed := by
  constructor
  · intro same
    obtain ⟨front, back, rfl, isPrinted, isBack⟩ := List.map_eq_append_iff.mp same
    obtain ⟨separator, rest, rfl, isSeparator, isWord⟩ := List.map_eq_cons_iff.mp isBack
    obtain rfl := (printed_plain plain).mp isWord
    refine ⟨front, ⟨separator, ?_, rfl⟩, isPrinted⟩
    by_cases dot : separator = '.'
    · exact .inl dot
    · exact .inr (by rwa [if_neg dot] at isSeparator)
  · rintro ⟨front, ⟨separator, isSeparator, rfl⟩, rfl⟩
    have underscore : (if separator = '.' then '_' else separator) = '_' := by
      rcases isSeparator with rfl | rfl <;> rfl
    have isWord := (printed_plain plain).mpr rfl
    unfold dotsToUnderscores at isWord ⊢
    rw [List.map_append, List.map_cons, underscore, isWord]

private theorem plain_suffix : Plain ['s'] := by
  rintro letter member (rfl | rfl) <;> simp at member

theorem stemsAlike_iff {suffix otherSuffix : Bool} {left right : List Char} :
    stem suffix left = stem otherSuffix right ↔ StemsAlike suffix otherSuffix left right := by
  cases suffix <;> cases otherSuffix
  · exact readAlike_iff
  · exact (endsIn_iff plain_suffix).trans (exists_congr fun _ => and_congr_right fun _ => readAlike_iff)
  · refine eq_comm.trans ((endsIn_iff plain_suffix).trans (exists_congr fun _ => and_congr_right fun _ => ?_))
    exact eq_comm.trans readAlike_iff
  · exact List.append_left_inj _ |>.trans readAlike_iff

private theorem mem_intText {letter : Char} {value : Int} (member : letter ∈ intText value) :
    letter = '-' ∨ letter.isDigit := by
  unfold intText at member
  split at member
  · rcases List.mem_cons.mp member with dash | digit
    · exact .inl dash
    · exact .inr (Nat.isDigit_of_mem_toDigits (by decide) (by decide) digit)
  · exact .inr (Nat.isDigit_of_mem_toDigits (by decide) (by decide) member)

private theorem plain_intText (value : Int) : Plain (intText value) := by
  rintro letter member (rfl | rfl) <;> rcases mem_intText member with dash | digit
  · cases dash
  · cases digit
  · cases dash
  · cases digit

private theorem split_last {left right word other : List Char} (plain : Plain word) (otherPlain : Plain other)
    (same : left ++ '_' :: word = right ++ '_' :: other) : left = right ∧ word = other := by
  rcases List.append_eq_append_iff.mp same with ⟨between, rfl, behind⟩ | ⟨between, rfl, behind⟩
  · cases between with
    | nil =>
        rw [List.nil_append] at behind
        exact ⟨(List.append_nil _).symm, (List.cons.inj behind).2⟩
    | cons letter between =>
        have inside : '_' ∈ word := by
          rw [(List.cons.inj behind).2]
          exact List.mem_append_right _ List.mem_cons_self
        exact absurd (.inr rfl) (plain '_' inside)
  · cases between with
    | nil =>
        rw [List.nil_append] at behind
        exact ⟨List.append_nil _, (List.cons.inj behind).2.symm⟩
    | cons letter between =>
        have inside : '_' ∈ other := by
          rw [(List.cons.inj behind).2]
          exact List.mem_append_right _ List.mem_cons_self
        exact absurd (.inr rfl) (otherPlain '_' inside)

/-- A text with an index is that of a name without one only if the name has the index itself, and no
suffix behind it. -/
private theorem index_iff {suffix otherSuffix : Bool} {left right : List Char} {index : Int} :
    stem suffix left ++ '_' :: intText index = stem otherSuffix right ↔
      otherSuffix = false ∧ ∃ front, EndsIn right front (intText index) ∧
        stem suffix left = dotsToUnderscores front := by
  cases otherSuffix with
  | true =>
      simp only [Bool.true_eq_false, false_and, iff_false]
      intro same
      have word := (split_last (plain_intText index) plain_suffix same).2
      rcases mem_intText (word ▸ List.mem_singleton_self 's' : 's' ∈ intText index) with dash | digit
      · cases dash
      · cases digit
  | false =>
      rw [and_iff_right rfl]
      refine eq_comm.trans ((endsIn_iff (plain_intText index)).trans ?_)
      exact exists_congr fun _ => and_congr_right fun _ => eq_comm

end P4Rename

open P4Rename

theorem getName_ne_iff {added : List (String × Bool)} {left right : String × Int}
    (leftListed : left.1 ∈ added.map Prod.fst) (rightListed : right.1 ∈ added.map Prod.fst) :
    (addNames [] added).getName left.1 left.2 ≠ (addNames [] added).getName right.1 right.2 ↔
      KeptApart added left right := by
  obtain ⟨text, own, isText⟩ := getName_eq leftListed left.2
  obtain ⟨other, otherOwn, isOther⟩ := getName_eq rightListed right.2
  rw [isText, isOther]
  unfold KeptApart
  by_cases same : left.1 = right.1
  · rw [if_pos same, same]
    rw [same] at own
    cases own.unique otherOwn
    by_cases both : 2 ≤ (added.map Prod.fst).count right.1
    · have isTwice : twice added right.1 = true := decide_eq_true both
      simp only [isTwice, both, if_true, true_and, ne_eq, List.append_cancel_left_eq, List.cons.injEq]
      exact not_congr ⟨intText_injective, fun equal => equal ▸ rfl⟩
    · have once : twice added right.1 = false := decide_eq_false both
      simp [once, both]
  · rw [if_neg same]
    have merged : (if twice added left.1 then stem (suffixed added left.1) text ++ '_' :: intText left.2
        else stem (suffixed added left.1) text) =
        (if twice added right.1 then stem (suffixed added right.1) other ++ '_' :: intText right.2
        else stem (suffixed added right.1) other) ↔ Merge added left right text other := by
      unfold Merge
      cases twice added left.1 <;> cases twice added right.1
      · exact stemsAlike_iff
      · refine eq_comm.trans (index_iff.trans (and_congr_right fun _ => exists_congr fun _ =>
          and_congr_right fun _ => ?_))
        exact eq_comm.trans (@stemsAlike_iff false ..)
      · exact index_iff.trans (and_congr_right fun _ => exists_congr fun _ => and_congr_right fun _ =>
          @stemsAlike_iff _ false ..)
      · constructor
        · intro same
          obtain ⟨stems, indices⟩ := split_last (plain_intText _) (plain_intText _) same
          exact ⟨intText_injective indices, stemsAlike_iff.mp stems⟩
        · rintro ⟨indices, stems⟩
          rw [indices, stemsAlike_iff.mpr stems]
    rw [ne_eq, merged]
    constructor
    · intro different text' other' own' otherOwn'
      rwa [own'.unique own, otherOwn'.unique otherOwn]
    · intro apart
      exact apart text other own otherOwn

end Ipbm.Compiler.P4r
