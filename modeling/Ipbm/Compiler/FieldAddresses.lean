import Mathlib.Algebra.Order.BigOperators.Group.List
import Mathlib.Data.List.Induction
import Mathlib.Data.List.Nodup
import Ipbm.Compiler.HeaderManager

/-! The addresses of fields: an id from one counter of headers and metadata, and a range of bits
inside the header. -/

set_option autoImplicit false

namespace Ipbm.Compiler
open Lib Dataplane

/-- The fields that take up bits, with their lengths. -/
def bitFields (fields : List FieldDef) : List (String × Int) :=
  fields.filterMap fun field =>
    match field.type with
    | .bit length => some (field.name, length)
    | .named _ => none

/-- The names of a header, that of its validity included. -/
def fieldNames (fields : List FieldDef) : List String :=
  "isValid" :: (bitFields fields).map Prod.fst

/-- The bits of a header. -/
def bitLength (fields : List FieldDef) : Int := ((bitFields fields).map Prod.snd).sum

/-- The fields of a header follow each other without a gap, and each has its own entry. -/
structure Header.Tiles (header : Header) (fields : List FieldDef) : Prop where
  lengths : ∀ bits ∈ bitFields fields, 0 ≤ bits.2
  start : ∀ before name length after, bitFields fields = before ++ (name, length) :: after →
    header.lookup name = some ⟨header.headerId.toNat, (before.map Prod.snd).sum, length, .field⟩
  offset : header.offset = bitLength fields
  entries : header.fields.length = (fieldNames fields).length

/-! ### The fields of one header -/

namespace Header

private theorem bitFields_bit (fields : List FieldDef) (length : Int) (name : String) :
    bitFields (fields ++ [⟨.bit length, name⟩]) = bitFields fields ++ [(name, length)] := by
  simp [bitFields]

private theorem bitFields_named (fields : List FieldDef) (type name : String) :
    bitFields (fields ++ [⟨.named type, name⟩]) = bitFields fields := by
  simp [bitFields]

/-- The first field of a name counts, and validity comes before all of them. -/
structure Layout (headerId : Nat) (bits : List (String × Int))
    (state : List (String × HeaderField) × Int) : Prop where
  offset : state.2 = wrapInt (bits.map Prod.snd).sum
  names : ∀ name, name ∈ state.1.map Prod.fst ↔ name ∈ "isValid" :: bits.map Prod.fst
  unique : (state.1.map Prod.fst).Nodup
  entry : ∀ entry ∈ state.1, entry = ("isValid", ⟨headerId, 0, 0, .valid⟩) ∨
    ∃ before length after, bits = before ++ (entry.1, length) :: after ∧ entry.1 ∉ before.map Prod.fst ∧
      entry.2 = ⟨headerId, wrapInt (before.map Prod.snd).sum, length, .field⟩

private theorem Layout.bit {headerId : Nat} {bits : List (String × Int)}
    {state : List (String × HeaderField) × Int}
    (laid : Layout headerId bits state) (name : String) (length : Int) :
    Layout headerId (bits ++ [(name, length)])
      (insertField state.1 name ⟨headerId, state.2, length, .field⟩, wrapInt (state.2 + length)) := by
  have total : wrapInt (state.2 + length) = wrapInt ((bits ++ [(name, length)]).map Prod.snd).sum := by
    simp [laid.offset, wrapInt_add]
  have older : ∀ entry ∈ state.1, entry = ("isValid", ⟨headerId, 0, 0, .valid⟩) ∨
      ∃ before length_ after, bits ++ [(name, length)] = before ++ (entry.1, length_) :: after ∧
        entry.1 ∉ before.map Prod.fst ∧
          entry.2 = ⟨headerId, wrapInt (before.map Prod.snd).sum, length_, .field⟩ := by
    intro entry member
    refine (laid.entry entry member).imp_right ?_
    rintro ⟨before, own, after, rfl, first, info⟩
    exact ⟨before, own, after ++ [(name, length)], by simp, first, info⟩
  unfold insertField
  by_cases taken : state.1.any fun entry => entry.1 = name
  · have known : name ∈ state.1.map Prod.fst := by simpa using taken
    rw [if_pos taken]
    refine ⟨total, ?_, laid.unique, older⟩
    intro other
    rw [laid.names]
    have inBits := (laid.names name).mp known
    simp only [List.map_append, List.map_singleton, ← List.cons_append, List.mem_append, List.mem_singleton]
    constructor
    · exact Or.inl
    · rintro (old | rfl)
      · exact old
      · exact inBits
  · have fresh : name ∉ state.1.map Prod.fst := by simpa using taken
    rw [if_neg taken]
    refine ⟨total, ?_, ?_, ?_⟩
    · intro other
      simp only [List.map_append, List.map_singleton, ← List.cons_append, List.mem_append]
      rw [laid.names]
    · rw [List.map_append, List.nodup_append]
      refine ⟨laid.unique, List.nodup_singleton _, ?_⟩
      intro other old new isNew
      rw [List.mem_singleton.mp isNew]
      rintro rfl
      exact fresh old
    · intro entry member
      rcases List.mem_append.mp member with old | new
      · exact older entry old
      · rw [List.mem_singleton.mp new, laid.offset]
        refine Or.inr ⟨bits, length, [], rfl, ?_, rfl⟩
        intro inBits
        exact fresh ((laid.names name).mpr (List.mem_cons_of_mem _ inBits))

theorem layout_isLayout (headerId : Nat) (fields : List FieldDef) :
    Layout headerId (bitFields fields) (layout headerId fields) := by
  induction fields using List.reverseRecOn with
  | nil =>
      refine ⟨rfl, fun name => Iff.rfl, List.nodup_singleton _, ?_⟩
      intro entry member
      exact Or.inl (List.mem_singleton.mp member)
  | append_singleton fields field ih =>
      obtain ⟨type, name⟩ := field
      unfold layout at ih ⊢
      rw [List.foldl_append, List.foldl_cons, List.foldl_nil]
      cases type with
      | bit length =>
          rw [bitFields_bit]
          exact ih.bit name length
      | named type =>
          rw [bitFields_named]
          exact ih

/-- What a name refers to, and where. -/
theorem Layout.find {headerId : Nat} {bits : List (String × Int)} {state : List (String × HeaderField) × Int}
    (laid : Layout headerId bits state) {name : String} {field : HeaderField}
    (found : (state.1.find? fun entry => entry.1 = name).map Prod.snd = some field) :
    name = "isValid" ∧ field = ⟨headerId, 0, 0, .valid⟩ ∨
      ∃ before length after, bits = before ++ (name, length) :: after ∧ name ∉ before.map Prod.fst ∧
        field = ⟨headerId, wrapInt (before.map Prod.snd).sum, length, .field⟩ := by
  obtain ⟨entry, first, rfl⟩ := Option.map_eq_some_iff.mp found
  have named : entry.1 = name := by simpa using List.find?_some first
  subst named
  rcases laid.entry entry (List.mem_of_find?_eq_some first) with rfl | placed
  · exact Or.inl ⟨rfl, rfl⟩
  · exact Or.inr placed

/-- Lengths that are not negative and stay within an `int` in all. -/
structure Measured (bits : List (String × Int)) : Prop where
  lengths : ∀ entry ∈ bits, 0 ≤ entry.2
  total : (bits.map Prod.snd).sum < 2 ^ 31

private theorem sum_nonneg {bits : List (String × Int)} (lengths : ∀ entry ∈ bits, 0 ≤ entry.2) :
    0 ≤ (bits.map Prod.snd).sum := by
  refine List.sum_nonneg fun length member => ?_
  obtain ⟨entry, listed, rfl⟩ := List.mem_map.mp member
  exact lengths entry listed

private theorem Measured.wrapInt {before after : List (String × Int)}
    (measured : Measured (before ++ after)) :
    wrapInt (before.map Prod.snd).sum = (before.map Prod.snd).sum := by
  have front := sum_nonneg fun entry member => measured.lengths entry (List.mem_append_left _ member)
  have back := sum_nonneg fun entry member => measured.lengths entry (List.mem_append_right _ member)
  have total := measured.total
  rw [List.map_append, List.sum_append] at total
  exact wrapInt_of_small (by omega) (by omega)

private theorem range_behind {front before between after back : List (String × Int)}
    {name other : String} {length width : Int} (isFront : front = before ++ between)
    (rest : (name, length) :: after = between ++ (other, width) :: back) :
    name = other ∧ before = front ∧ length = width ∨ name ∈ front.map Prod.fst ∧
      ((∀ entry ∈ front, 0 ≤ entry.2) → (before.map Prod.snd).sum + length ≤ (front.map Prod.snd).sum) := by
  cases between with
  | nil =>
      cases rest
      exact Or.inl ⟨rfl, by rw [isFront, List.append_nil], rfl⟩
  | cons first between =>
      cases rest
      subst isFront
      refine Or.inr ⟨by simp, fun lengths => ?_⟩
      have behind : 0 ≤ (between.map Prod.snd).sum := sum_nonneg fun entry member =>
        lengths entry (List.mem_append_right _ (List.mem_cons_of_mem _ member))
      rw [List.map_append, List.sum_append, List.map_cons, List.sum_cons]
      omega

theorem Layout.find_headerId {headerId : Nat} {bits : List (String × Int)}
    {state : List (String × HeaderField) × Int}
    (laid : Layout headerId bits state) {name : String} {field : HeaderField}
    (found : (state.1.find? fun entry => entry.1 = name).map Prod.snd = some field) :
    field.headerId = headerId := by
  rcases laid.find found with ⟨-, rfl⟩ | ⟨before, length, after, -, -, rfl⟩
  · rfl
  · rfl

/-- The ranges of two names of one header have no bit in common. -/
theorem Layout.disjoint {headerId : Nat} {bits : List (String × Int)}
    {state : List (String × HeaderField) × Int}
    (laid : Layout headerId bits state) (measured : Measured bits) {name other : String}
    (different : name ≠ other) {field second : HeaderField}
    (found : (state.1.find? fun entry => entry.1 = name).map Prod.snd = some field)
    (there : (state.1.find? fun entry => entry.1 = other).map Prod.snd = some second) :
    field.fieldInternalOffset + field.fieldLength ≤ second.fieldInternalOffset ∨
      second.fieldInternalOffset + second.fieldLength ≤ field.fieldInternalOffset := by
  have offset : ∀ {before after : List (String × Int)}, bits = before ++ after →
      wrapInt (before.map Prod.snd).sum = (before.map Prod.snd).sum ∧ 0 ≤ (before.map Prod.snd).sum ∧
        ∀ entry ∈ before, 0 ≤ entry.2 := by
    rintro before after rfl
    have lengths : ∀ entry ∈ before, 0 ≤ entry.2 := fun entry member =>
      measured.lengths entry (List.mem_append_left _ member)
    exact ⟨measured.wrapInt, sum_nonneg lengths, lengths⟩
  rcases laid.find found with ⟨-, rfl⟩ | ⟨before, length, after, split, -, rfl⟩
  · rcases laid.find there with ⟨-, rfl⟩ | ⟨front, width, back, isSplit, -, rfl⟩
    · exact Or.inl (Int.le_refl _)
    · obtain ⟨start, low, -⟩ := offset isSplit
      exact Or.inl (by simpa only [start, Int.zero_add] using low)
  · obtain ⟨start, low, earlier⟩ := offset split
    rcases laid.find there with ⟨-, rfl⟩ | ⟨front, width, back, isSplit, -, rfl⟩
    · exact Or.inr (by simpa only [start, Int.zero_add] using low)
    · obtain ⟨second, -, front⟩ := offset isSplit
      simp only [start, second]
      rw [split] at isSplit
      rcases List.append_eq_append_iff.mp isSplit with ⟨between, isFront, rest⟩ | ⟨between, isBefore, rest⟩
      · rcases range_behind isFront rest with ⟨same, -, -⟩ | ⟨-, behind⟩
        · exact absurd same different
        · exact Or.inl (behind front)
      · rcases range_behind isBefore rest with ⟨same, -, -⟩ | ⟨-, behind⟩
        · exact absurd same.symm different
        · exact Or.inr (behind earlier)

private theorem first_unique {before front after back : List (String × Int)} {name : String}
    {length width : Int} (same : before ++ (name, length) :: after = front ++ (name, width) :: back)
    (first : name ∉ before.map Prod.fst) (other : name ∉ front.map Prod.fst) :
    before = front ∧ length = width := by
  rcases List.append_eq_append_iff.mp same with ⟨between, isFront, rest⟩ | ⟨between, isBefore, rest⟩
  · rcases range_behind isFront rest with ⟨-, same⟩ | ⟨inside, -⟩
    · exact same
    · exact absurd inside other
  · rcases range_behind isBefore rest with ⟨-, same⟩ | ⟨inside, -⟩
    · exact ⟨same.1.symm, same.2.symm⟩
    · exact absurd inside first

/-- A header tiles its bits if its names are different and no offset leaves an `int`. -/
theorem tiles_iff {header : Header} {id : Nat} {fields : List FieldDef} (isId : header.headerId = id)
    (laid : (header.fields, header.offset) = layout id fields) :
    header.Tiles fields ↔ (fieldNames fields).Nodup ∧ Measured (bitFields fields) := by
  have isLayout : Layout id (bitFields fields) (header.fields, header.offset) :=
    laid ▸ layout_isLayout id fields
  have keys : (header.fields.map Prod.fst).length = header.fields.length := List.length_map ..
  constructor
  · intro tiles
    have names : header.fields.map Prod.fst ⊆ fieldNames fields := fun name => (isLayout.names name).mp
    have perm :=
      (List.subperm_of_subset isLayout.unique names).perm_of_length_le (by rw [keys, tiles.entries])
    have total : bitLength fields = wrapInt (bitLength fields) := tiles.offset.symm.trans isLayout.offset
    have small : bitLength fields < 2 ^ 31 := total ▸ (wrapInt_bounds (bitLength fields)).2
    exact ⟨perm.nodup_iff.mp isLayout.unique, tiles.lengths, small⟩
  · rintro ⟨different, measured⟩
    have perm := (List.perm_ext_iff_of_nodup isLayout.unique different).mpr isLayout.names
    have whole : Measured (bitFields fields ++ []) := (List.append_nil _).symm ▸ measured
    refine ⟨measured.lengths, ?_, isLayout.offset.trans whole.wrapInt, by rw [← keys, perm.length_eq]⟩
    intro before name length after split
    have listed : name ∈ (bitFields fields).map Prod.fst := by simp [split]
    obtain ⟨notValid, distinct⟩ := List.nodup_cons.mp different
    have found : (header.lookup name).isSome := by
      have known := (isLayout.names name).mpr (List.mem_cons_of_mem _ listed)
      simpa [lookup] using known
    obtain ⟨field, isField⟩ := Option.isSome_iff_exists.mp found
    have first : name ∉ before.map Prod.fst := by
      rw [split, List.map_append, List.map_cons, List.nodup_append] at distinct
      intro inside
      exact distinct.2.2 name inside name List.mem_cons_self rfl
    rcases isLayout.find isField with ⟨rfl, -⟩ | ⟨front, width, back, isSplit, other, rfl⟩
    · exact absurd listed notValid
    · obtain ⟨rfl, rfl⟩ := first_unique (split.symm.trans isSplit) first other
      rw [split] at measured
      rw [isField, isId, Int.toNat_natCast, measured.wrapInt]

end Header

/-! ### Declarations -/

/-- A header instance or a metadata struct of a program. -/
structure Declaration where
  name : String
  isHeader : Bool
  fields : List FieldDef
  deriving DecidableEq, Repr

namespace Declaration

/-- Only standard metadata has an id that is not counted. -/
def numbered (declaration : Declaration) : Bool :=
  declaration.isHeader || declaration.name ≠ "standard_metadata"

def ofMember (headerDefs : List HeaderDef) (field : FieldDef) : Option Declaration :=
  match field.type with
  | .named typeName =>
      (headerDefs.find? fun headerDef => headerDef.name = typeName).map fun headerDef =>
        ⟨field.name, true, headerDef.fields⟩
  | .bit _ => none

def ofStruct (headerDefs : List HeaderDef) (structDef : StructDef) : List Declaration :=
  if structDef.isHeader then structDef.fields.filterMap (ofMember headerDefs)
  else [⟨structDef.name, false, structDef.fields⟩]

/-- The first declaration of each name. -/
def addFirst (seen : List Declaration) (declaration : Declaration) : List Declaration :=
  if seen.any fun other => other.name = declaration.name then seen else seen ++ [declaration]

/-- The declarations of a program that count, in their order. -/
def ofProgram (headerDefs : List HeaderDef) (structDefs : List StructDef) : List Declaration :=
  (structDefs.flatMap (ofStruct headerDefs)).foldl addFirst []

def header (declaration : Declaration) (id : Nat) : Header where
  isHeader := declaration.isHeader
  isStandardMetadata := !declaration.isHeader && declaration.name = "standard_metadata"
  headerId := id
  offset := (Header.layout id declaration.fields).2
  fields := (Header.layout id declaration.fields).1

/-- The id of a declaration that follows others. -/
def idBehind (before : List Declaration) (declaration : Declaration) : Nat :=
  if declaration.numbered then before.countP numbered else 31

end Declaration

/-- Every name has its own bits, and the id 31 belongs to standard metadata alone. -/
structure FieldsAddressed (headerDefs : List HeaderDef) (structDefs : List StructDef) : Prop where
  tiled : ∀ declaration ∈ Declaration.ofProgram headerDefs structDefs,
    ∃ header, (HeaderManager.load headerDefs structDefs).getHeader declaration.name = some header ∧
      header.Tiles declaration.fields
  apart : ∀ name field other second, (name, field) ≠ (other, second) → ∀ found there,
    (HeaderManager.load headerDefs structDefs).lookupName name field = some found →
    (HeaderManager.load headerDefs structDefs).lookupName other second = some there →
    found.headerId = there.headerId →
      found.fieldInternalOffset + found.fieldLength ≤ there.fieldInternalOffset ∨
        there.fieldInternalOffset + there.fieldLength ≤ found.fieldInternalOffset
  reserved : ∀ name header, (HeaderManager.load headerDefs structDefs).getHeader name = some header →
    header.headerId = 31 → header.isHeader = false ∧ header.isStandardMetadata

namespace HeaderManager
open Declaration

/-- The headers of the first declarations, numbered in their order. -/
structure Loaded (manager : HeaderManager) (seen : List Declaration) : Prop where
  counter : manager.globalHeaderId = seen.countP numbered
  find : ∀ name header, manager.headers.find name = some header ↔
    ∃ before declaration after, seen = before ++ declaration :: after ∧ declaration.name = name ∧
      header = declaration.header (idBehind before declaration)

def declare (manager : HeaderManager) (declaration : Declaration) : HeaderManager :=
  if (manager.headers.find declaration.name).isSome then
    manager
  else
    { manager with
      globalHeaderId := if declaration.numbered then manager.globalHeaderId + 1 else manager.globalHeaderId
      headers := manager.headers.insert declaration.name
        (declaration.header (if declaration.numbered then manager.globalHeaderId else 31)) }

theorem addHeader_eq (manager : HeaderManager) (headerDef : HeaderDef) (name : String) :
    manager.addHeader headerDef name = manager.declare ⟨name, true, headerDef.fields⟩ := rfl

theorem addMetadata_eq (manager : HeaderManager) (structDef : StructDef) :
    manager.addMetadata structDef = manager.declare ⟨structDef.name, false, structDef.fields⟩ := by
  unfold addMetadata declare
  by_cases standard : structDef.name = "standard_metadata"
  · simp [numbered, standard, header, Header.ofStructDef]
  · simp [numbered, standard, header, Header.ofStructDef]

private theorem concat_eq_split {seen before after : List Declaration} {last declaration : Declaration} :
    seen ++ [last] = before ++ declaration :: after ↔
      (before = seen ∧ declaration = last ∧ after = []) ∨ ∃ rest, after = rest ++ [last] ∧
        seen = before ++ declaration :: rest := by
  rcases List.eq_nil_or_concat after with rfl | ⟨rest, other, rfl⟩
  · constructor
    · intro same
      obtain ⟨fronts, lasts⟩ := List.append_inj' same rfl
      exact Or.inl ⟨fronts.symm, (List.cons.inj lasts).1.symm, rfl⟩
    · rintro (⟨rfl, rfl, -⟩ | ⟨rest, none_, -⟩)
      · rfl
      · simp at none_
  · rw [List.concat_eq_append, ← List.cons_append, ← List.append_assoc]
    constructor
    · intro same
      obtain ⟨fronts, lasts⟩ := List.append_inj' same rfl
      exact Or.inr ⟨rest, by rw [(List.cons.inj lasts).1], fronts⟩
    · rintro (⟨-, -, none_⟩ | ⟨others, sameLast, rfl⟩)
      · simp at none_
      · obtain ⟨rfl, lasts⟩ := List.append_inj' sameLast rfl
        rw [lasts]

theorem Loaded.find_of_mem {manager : HeaderManager} {seen : List Declaration} (loaded : Loaded manager seen)
    {declaration : Declaration} (member : declaration ∈ seen) :
    ∃ id, manager.headers.find declaration.name = some (declaration.header id) := by
  obtain ⟨before, after, split⟩ := List.append_of_mem member
  exact ⟨_, (loaded.find _ _).mpr ⟨before, declaration, after, split, rfl, rfl⟩⟩

theorem Loaded.declare {manager : HeaderManager} {seen : List Declaration} (loaded : Loaded manager seen)
    (declaration : Declaration) : Loaded (manager.declare declaration) (addFirst seen declaration) := by
  have known : (manager.headers.find declaration.name).isSome ↔
      seen.any fun other => other.name = declaration.name := by
    rw [Option.isSome_iff_exists, List.any_eq_true]
    constructor
    · rintro ⟨header, found⟩
      obtain ⟨before, other, after, rfl, named, -⟩ := (loaded.find _ _).mp found
      exact ⟨other, List.mem_append_right _ List.mem_cons_self, decide_eq_true named⟩
    · rintro ⟨other, member, named⟩
      obtain ⟨id, found⟩ := loaded.find_of_mem member
      exact ⟨_, of_decide_eq_true named ▸ found⟩
  unfold HeaderManager.declare addFirst
  by_cases present : seen.any fun other => other.name = declaration.name
  · rw [if_pos (known.mpr present), if_pos present]
    exact loaded
  · rw [if_neg (mt known.mp present), if_neg present]
    have missing : manager.headers.find declaration.name = none :=
      Option.not_isSome_iff_eq_none.mp (mt known.mp present)
    constructor
    · rw [List.countP_append, List.countP_singleton, ← loaded.counter]
      split <;> rfl
    · intro name header
      have number : (if declaration.numbered then manager.globalHeaderId else 31) =
          idBehind seen declaration := by
        rw [loaded.counter, idBehind]
      rw [number]
      simp only [concat_eq_split]
      by_cases here : name = declaration.name
      · subst here
        rw [OrderedMap.find_insert_of_none missing]
        constructor
        · intro found
          exact ⟨seen, declaration, [], Or.inl ⟨rfl, rfl, rfl⟩, rfl, (Option.some.inj found).symm⟩
        · rintro ⟨before, other, after, ⟨rfl, rfl, -⟩ | ⟨rest, -, split⟩, named, rfl⟩
          · rfl
          · have old := (loaded.find _ _).mpr ⟨before, other, rest, split, named, rfl⟩
            rw [missing] at old
            cases old
      · rw [OrderedMap.insert, OrderedMap.find_alter_of_ne here, loaded.find]
        constructor
        · rintro ⟨before, other, rest, split, named, isHeader⟩
          exact ⟨before, other, rest ++ [declaration], Or.inr ⟨rest, rfl, split⟩, named, isHeader⟩
        · rintro ⟨before, other, after, ⟨rfl, rfl, -⟩ | ⟨rest, -, split⟩, named, isHeader⟩
          · exact absurd named.symm here
          · exact ⟨before, other, rest, split, named, isHeader⟩

theorem Loaded.addStruct {manager : HeaderManager} {seen : List Declaration} (loaded : Loaded manager seen)
    (headerDefs : List HeaderDef) (structDef : StructDef) :
    Loaded (manager.addStruct headerDefs structDef)
      ((ofStruct headerDefs structDef).foldl addFirst seen) := by
  unfold HeaderManager.addStruct ofStruct
  split
  · have named : Loaded { manager with headerName := structDef.name } seen := ⟨loaded.counter, loaded.find⟩
    generalize { manager with headerName := structDef.name } = start at named
    clear loaded
    induction structDef.fields generalizing start seen with
    | nil => exact named
    | cons field rest ih =>
        rw [List.foldl_cons, List.filterMap_cons]
        obtain ⟨type, name⟩ := field
        cases type with
        | bit length => exact ih _ named
        | named typeName =>
            simp only [addMember, ofMember]
            cases headerDefs.find? fun headerDef => headerDef.name = typeName with
            | none => exact ih _ named
            | some headerDef =>
                simp only [Option.map_some, List.foldl_cons, addHeader_eq]
                exact ih _ (named.declare _)
  · rw [addMetadata_eq]
    exact loaded.declare _

theorem load_loaded (headerDefs : List HeaderDef) (structDefs : List StructDef) :
    Loaded (load headerDefs structDefs) (ofProgram headerDefs structDefs) := by
  have run : ∀ (structDefs : List StructDef) (manager : HeaderManager) (seen : List Declaration),
    Loaded manager seen →
      Loaded (structDefs.foldl (HeaderManager.addStruct headerDefs) manager)
        ((structDefs.flatMap (ofStruct headerDefs)).foldl addFirst seen) := by
    intro structDefs
    induction structDefs with
    | nil => exact fun manager seen loaded => loaded
    | cons structDef rest ih =>
        intro manager seen loaded
        rw [List.foldl_cons, List.flatMap_cons, List.foldl_append]
        exact ih _ _ (loaded.addStruct headerDefs structDef)
  refine run structDefs {} [] ⟨rfl, ?_⟩
  intro name header
  simp [OrderedMap.find_nil]

private theorem exists_numbered {declarations : List Declaration} {id : Nat}
    (passed : id < declarations.countP numbered) :
    ∃ before declaration after, declarations = before ++ declaration :: after ∧ declaration.numbered ∧
      before.countP numbered = id := by
  induction declarations generalizing id with
  | nil => exact absurd passed (Nat.not_lt_zero id)
  | cons first rest ih =>
      by_cases counts : first.numbered
      · rw [List.countP_cons_of_pos counts] at passed
        cases id with
        | zero => exact ⟨[], first, rest, rfl, counts, rfl⟩
        | succ id =>
            obtain ⟨before, declaration, after, rfl, isNumbered, same⟩ := ih (Nat.lt_of_succ_lt_succ passed)
            exact ⟨first :: before, declaration, after, rfl,
              isNumbered, by rw [List.countP_cons_of_pos counts, same]⟩
      · rw [List.countP_cons_of_neg counts] at passed
        obtain ⟨before, declaration, after, rfl, isNumbered, same⟩ := ih passed
        exact ⟨first :: before, declaration, after, rfl,
          isNumbered, by rw [List.countP_cons_of_neg counts, same]⟩

private theorem countP_behind {front before between after back : List Declaration}
    {first second : Declaration} (counts : first.numbered) (isFront : front = before ++ between)
    (rest : first :: after = between ++ second :: back)
    (same : before.countP numbered = front.countP numbered) :
    first = second := by
  cases between with
  | nil => exact (List.cons.inj rest).1
  | cons other between =>
      obtain rfl := (List.cons.inj rest).1
      rw [isFront, List.countP_append, List.countP_cons_of_pos counts] at same
      omega

theorem not_numbered {declaration : Declaration} (reserved : ¬declaration.numbered) :
    declaration.isHeader = false ∧ declaration.name = "standard_metadata" := by
  simpa [numbered] using reserved

/-- With less than 32 numbered declarations an id tells the name. -/
theorem name_of_id {declarations before after front back : List Declaration} {first second : Declaration}
    (few : declarations.countP numbered ≤ 31) (here : declarations = before ++ first :: after)
    (there : declarations = front ++ second :: back) (same : idBehind before first = idBehind front second) :
    first.name = second.name := by
  have below : ∀ {earlier later : List Declaration} {declaration : Declaration},
      declarations = earlier ++ declaration :: later → declaration.numbered →
          earlier.countP numbered < 31 := by
    intro earlier later declaration split counts
    rw [split, List.countP_append, List.countP_cons_of_pos counts] at few
    omega
  unfold idBehind at same
  by_cases firstCounts : first.numbered
  · have firstLow := below here firstCounts
    by_cases secondCounts : second.numbered
    · rw [if_pos firstCounts, if_pos secondCounts] at same
      rcases List.append_eq_append_iff.mp
        (here.symm.trans there) with ⟨between, isFront, rest⟩ | ⟨between, isBefore, rest⟩
      · rw [countP_behind firstCounts isFront rest same]
      · rw [countP_behind secondCounts isBefore rest same.symm]
    · rw [if_pos firstCounts, if_neg secondCounts] at same
      omega
  · by_cases secondCounts : second.numbered
    · have secondLow := below there secondCounts
      rw [if_neg firstCounts, if_pos secondCounts] at same
      omega
    · rw [(not_numbered firstCounts).2, (not_numbered secondCounts).2]

end HeaderManager

namespace FieldsAddressed
open Declaration HeaderManager

variable {headerDefs : List HeaderDef} {structDefs : List StructDef}

theorem not_many (addressed : FieldsAddressed headerDefs structDefs) :
    (ofProgram headerDefs structDefs).countP numbered ≤ 31 := by
  by_contra many
  obtain ⟨before, declaration, after, split, counts, id⟩ := exists_numbered (Nat.lt_of_not_le many)
  have found :=
    ((load_loaded headerDefs structDefs).find _ _).mpr ⟨before, declaration, after, split, rfl, rfl⟩
  rw [idBehind, if_pos counts, id] at found
  have reserved := addressed.reserved _ _ found rfl
  simp only [header, Bool.and_eq_true, Bool.not_eq_true', decide_eq_true_eq] at reserved
  simp [numbered, reserved] at counts

end FieldsAddressed

/-- The fields of a program are addressed if at most 31 of its declarations are numbered, and the
fields of a header have different names, no negative length and less than `2 ^ 31` bits in all. -/
theorem fieldsAddressed_iff (headerDefs : List HeaderDef) (structDefs : List StructDef) :
    FieldsAddressed headerDefs structDefs ↔
      (Declaration.ofProgram headerDefs structDefs).countP Declaration.numbered ≤ 31 ∧
        ∀ declaration ∈ Declaration.ofProgram headerDefs structDefs,
          (fieldNames declaration.fields).Nodup ∧ Header.Measured (bitFields declaration.fields) := by
  have loaded := HeaderManager.load_loaded headerDefs structDefs
  constructor
  · intro addressed
    refine ⟨addressed.not_many, ?_⟩
    intro declaration member
    obtain ⟨header, found, tiles⟩ := addressed.tiled declaration member
    obtain ⟨id, own⟩ := loaded.find_of_mem member
    obtain rfl := Option.some.inj (found.symm.trans own)
    exact (Header.tiles_iff rfl rfl).mp tiles
  · rintro ⟨few, distinct⟩
    constructor
    · intro declaration member
      obtain ⟨id, own⟩ := loaded.find_of_mem member
      exact ⟨_, own, (Header.tiles_iff rfl rfl).mpr (distinct declaration member)⟩
    · intro name field other second different place otherPlace found there same
      obtain ⟨header, isHeader, found⟩ := Option.bind_eq_some_iff.mp found
      obtain ⟨otherHeader, isOther, there⟩ := Option.bind_eq_some_iff.mp there
      obtain ⟨before, declaration, after, split, named, rfl⟩ := (loaded.find _ _).mp isHeader
      obtain ⟨front, declared, back, isSplit, otherNamed, rfl⟩ := (loaded.find _ _).mp isOther
      have isLayout := Header.layout_isLayout (Declaration.idBehind before declaration) declaration.fields
      have otherLayout := Header.layout_isLayout (Declaration.idBehind front declared) declared.fields
      rw [isLayout.find_headerId found, otherLayout.find_headerId there] at same
      have names : name = other :=
        named.symm.trans ((HeaderManager.name_of_id few split isSplit same).trans otherNamed)
      rw [← names, isHeader] at isOther
      rw [← Option.some.inj isOther] at there
      have member : declaration ∈ Declaration.ofProgram headerDefs structDefs :=
        split ▸ List.mem_append_right _ List.mem_cons_self
      refine isLayout.disjoint (distinct declaration member).2 ?_ found there
      intro fields
      exact different (congrArg₂ Prod.mk names fields)
    · intro name header found isReserved
      obtain ⟨before, declaration, after, split, named, rfl⟩ := (loaded.find _ _).mp found
      have notCounted : ¬declaration.numbered := by
        intro counts
        have id : Declaration.idBehind before declaration = 31 := Int.ofNat_inj.mp isReserved
        rw [Declaration.idBehind, if_pos counts] at id
        rw [split, List.countP_append, List.countP_cons_of_pos counts] at few
        omega
      obtain ⟨isStruct, standard⟩ := HeaderManager.not_numbered notCounted
      simp [Declaration.header, isStruct, standard]

/-- Thirty-two instances of one header, and standard metadata. -/
theorem not_fieldsAddressed_instances : ¬FieldsAddressed [⟨"tag_t", [⟨.bit 8, "kind"⟩]⟩]
    [⟨(List.range 32).map fun i => ⟨.named "tag_t", String.ofList (List.replicate (i + 1) 't')⟩,
      "headers", true⟩, ⟨[⟨.bit 9, "ingress_port"⟩], "standard_metadata", false⟩] := by
  intro addressed
  exact absurd addressed.not_many (by decide)

end Ipbm.Compiler
