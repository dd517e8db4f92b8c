import Ipbm.Compiler.P4Rename
import Ipbm.Json.Documents

/-! The values a configuration is written as (`ipsa_value.h`, `ipsa_module.h`) and
their text (`ipsa_output.h`). -/

set_option autoImplicit false

namespace Ipbm.Compiler
open Lib P4r

/-- A null pointer is a value of its own. -/
inductive IpsaValue where
  | null
  | integer (value : Int)
  | string (value : String)
  | list (value : List IpsaValue)
  | dict (value : List (String × IpsaValue))
  deriving Repr

namespace IpsaOutput

def offset (tab : Nat) : List Char := List.replicate tab ' '

mutual

/-- Strings are written as they are. -/
def emit (tab : Nat) : IpsaValue → List Char
  | .null => ['n', 'u', 'l', 'l']
  | .integer value => intText value
  | .string value => '\"' :: value.toList ++ ['\"']
  | .list
    items => if items.isEmpty then ['[', ']']
      else '[' :: '\n' :: emitItems (tab + 2) items ++ offset tab ++ [']']
  | .dict members =>
      if members.isEmpty then ['{', '}']
        else '{' :: '\n' :: emitMembers (tab + 2) members ++ offset tab ++ ['}']

def emitItems (tab : Nat) : List IpsaValue → List Char
  | [] => []
  | item ::
    rest => offset tab ++ emit tab item ++ (if rest.isEmpty then [] else [',']) ++ '\n' :: emitItems tab rest

def emitMembers (tab : Nat) : List (String × IpsaValue) → List Char
  | [] => []
  | (key, value) :: rest =>
      offset tab ++
        '\"' :: key.toList ++ ['\"', ' ', ':', ' '] ++ emit tab value ++
        (if rest.isEmpty then [] else [',']) ++ '\n' :: emitMembers tab rest

end

end IpsaOutput

namespace IpsaValue

mutual

/-- The document a value is meant to be. -/
def toJson : IpsaValue → Json
  | .null => .null
  | .integer value => .integer value
  | .string value => .string value
  | .list items => .array (toJsonItems items)
  | .dict members => .object (toJsonMembers members)

def toJsonItems : List IpsaValue → List Json
  | [] => []
  | item :: rest => item.toJson :: toJsonItems rest

def toJsonMembers : List (String × IpsaValue) → List (String × Json)
  | [] => []
  | (key, value) :: rest => (key, value.toJson) :: toJsonMembers rest

end

mutual

def numbers : IpsaValue → List Int
  | .null => []
  | .integer value => [value]
  | .string _ => []
  | .list items => numbersOfItems items
  | .dict members => numbersOfMembers members

def numbersOfItems : List IpsaValue → List Int
  | [] => []
  | item :: rest => item.numbers ++ numbersOfItems rest

def numbersOfMembers : List (String × IpsaValue) → List Int
  | [] => []
  | (_, value) :: rest => value.numbers ++ numbersOfMembers rest

end

theorem toJsonItems_eq (items : List IpsaValue) : toJsonItems items = items.map toJson := by
  induction items with
  | nil => rfl
  | cons item rest ih => rw [toJsonItems, ih, List.map_cons]

theorem toJsonMembers_eq (members : List (String × IpsaValue)) :
    toJsonMembers members = members.map fun entry => (entry.1, entry.2.toJson) := by
  induction members with
  | nil => rfl
  | cons entry rest ih => rw [toJsonMembers, ih, List.map_cons]

theorem numbersOfItems_eq (items : List IpsaValue) : numbersOfItems items = items.flatMap numbers := by
  induction items with
  | nil => rfl
  | cons item rest ih => rw [numbersOfItems, ih, List.flatMap_cons]

theorem numbersOfMembers_eq (members : List (String × IpsaValue)) :
    numbersOfMembers members = members.flatMap fun entry => entry.2.numbers := by
  induction members with
  | nil => rfl
  | cons entry rest ih => rw [numbersOfMembers, ih, List.flatMap_cons]

theorem toJson_list (items : List IpsaValue) : (list items).toJson = .array (items.map toJson) := by
  rw [toJson, toJsonItems_eq]

theorem toJson_dict (members : List (String × IpsaValue)) :
    (dict members).toJson = .object (members.map fun entry => (entry.1, entry.2.toJson)) := by
  rw [toJson, toJsonMembers_eq]

/-- The numbers of a value are numbers of the type `int`. -/
def Fits (value : IpsaValue) : Prop := ∀ number ∈ value.numbers, -2 ^ 31 ≤ number ∧ number < 2 ^ 31

instance (value : IpsaValue) : Decidable value.Fits :=
  inferInstanceAs (Decidable (∀ number ∈ value.numbers, -2 ^ 31 ≤ number ∧ number < 2 ^ 31))

@[simp] theorem fits_null : Fits .null := by simp [Fits, numbers]

theorem fits_integer {value : Int} : (integer value).Fits ↔ -2 ^ 31 ≤ value ∧ value < 2 ^ 31 := by
  simp [Fits, numbers]

@[simp] theorem fits_string (value : String) : (string value).Fits := by simp [Fits, numbers]

theorem fits_list {items : List IpsaValue} : (list items).Fits ↔ ∀ item ∈ items, item.Fits := by
  simp only [Fits, numbers, numbersOfItems_eq, List.mem_flatMap]
  exact ⟨fun all item member number inside => all number ⟨item, member, inside⟩,
    fun all number ⟨item, member, inside⟩ => all item member number inside⟩

theorem fits_dict {members : List (String × IpsaValue)} :
    (dict members).Fits ↔ ∀ entry ∈ members, entry.2.Fits := by
  simp only [Fits, numbers, numbersOfMembers_eq, List.mem_flatMap]
  exact ⟨fun all entry member number inside => all number ⟨entry, member, inside⟩,
    fun all number ⟨entry, member, inside⟩ => all entry member number inside⟩

/-- Text that means itself between quotes. -/
def PlainText (text : String) : Prop := ∀ c ∈ text.toList, c ≠ '\"' ∧ c ≠ '\\' ∧ 0x20 ≤ c.toNat

instance (text : String) : Decidable (PlainText text) := List.decidableBAll _ text.toList

/-- No text needs an escape, and the members of a map are in the order of its keys. -/
inductive Plain : IpsaValue → Prop where
  | null : Plain .null
  | integer (value : Int) : Plain (.integer value)
  | string {value : String} : PlainText value → Plain (.string value)
  | list {items : List IpsaValue} : (∀ item ∈ items, Plain item) → Plain (.list items)
  | dict {members : OrderedMap String IpsaValue} : OrderedMap.Ordered members →
      (∀ entry ∈ members, PlainText entry.1) →
      (∀ entry ∈ members, Plain entry.2) → Plain (.dict members)

theorem Plain.sorted {value : IpsaValue} (plain : value.Plain) : value.toJson.Sorted := by
  induction plain with
  | null => exact .null
  | integer value => exact .integer value
  | string => exact .string _
  | list _ each =>
      rw [toJson_list]
      refine .array fun item member => ?_
      obtain ⟨source, inside, rfl⟩ := List.mem_map.mp member
      exact each source inside
  | dict ordered _ _ each =>
      rw [toJson_dict]
      refine .object (OrderedMap.ordered_map_value ordered _) fun entry member => ?_
      obtain ⟨source, inside, rfl⟩ := List.mem_map.mp member
      exact each source inside

end IpsaValue

/-! ### What the reader makes of the text -/

namespace IpsaOutput
open Json Json.Lexer IpsaValue

theorem tokens_offset (tab : Nat) (rest : List Char) :
    scanner.tokens (offset tab ++ rest) = scanner.tokens rest := by
  refine tokens_blanks (fun c member => ?_) rest
  rw [List.eq_of_mem_replicate member]
  rfl

theorem tokens_intText {value : Int} (fits : -2 ^ 31 ≤ value ∧ value < 2 ^ 31) {rest : List Char}
    (stops : Stops rest) :
    scanner.tokens (intText value ++ rest) = .valueInteger value :: scanner.tokens rest := by
  unfold intText
  split
  · next negative =>
      rw [tokens_negative (by omega) stops]
      congr 2
      omega
  · next positive =>
      rw [tokens_natural (by omega) stops]
      congr 2
      omega

private theorem stops_behind (last : Bool) (rest : List Char) :
    Stops ((if last then [] else [',']) ++ '\n' :: rest) := by
  cases last <;> intro c member <;> cases member <;> decide

private theorem tokens_behind (last : Bool) (rest : List Char) :
    scanner.tokens ((if last then [] else [',']) ++ '\n' :: rest) =
      (if last then [] else [.valueSeparator]) ++ scanner.tokens rest := by
  cases last with
  | true => exact tokens_blank rfl rest
  | false =>
      change scanner.tokens (',' :: '\n' :: rest) = .valueSeparator :: scanner.tokens rest
      rw [tokens_structural rfl rfl, tokens_blank rfl]

/-- The text of a value is its document, at any depth and before anything but more of a number. -/
def Spells (value : IpsaValue) : Prop :=
  ∀ tab {rest : List Char}, Stops rest →
    scanner.tokens (emit tab value ++ rest) = value.toJson.tokens ++ scanner.tokens rest

private theorem tokens_emitItems {items : List IpsaValue} (each : ∀ item ∈ items, Spells item) (tab : Nat)
    (rest : List Char) : scanner.tokens (emitItems tab items ++ rest) =
      [.valueSeparator].intercalate ((items.map toJson).map tokens) ++ scanner.tokens rest := by
  induction items with
  | nil => rfl
  | cons item items ih =>
      have here := each item List.mem_cons_self tab (stops_behind items.isEmpty (emitItems tab items ++ rest))
      have later := ih fun item member => each item (List.mem_cons_of_mem _ member)
      have shape : emitItems tab (item :: items) ++ rest = offset tab ++ (emit tab item ++
          ((if items.isEmpty then [] else [',']) ++ '\n' :: (emitItems tab items ++ rest))) := by
        simp [emitItems]
      rw [shape, tokens_offset, here, tokens_behind, later]
      cases items <;> simp

private theorem tokens_key {key : String} (plain : PlainText key) (rest : List Char) :
    scanner.tokens ('\"' :: key.toList ++ ['\"', ' ', ':', ' '] ++ rest) =
      .valueString key :: .nameSeparator :: scanner.tokens rest := by
  have shape : '\"' :: key.toList ++ ['\"', ' ', ':', ' '] ++ rest =
      '\"' :: key.toList ++ '\"' :: (' ' :: ':' :: ' ' :: rest) := by
    simp
  rw [shape, tokens_string plain, String.ofList_toList, tokens_blank rfl, tokens_structural rfl rfl,
      tokens_blank rfl]

private theorem tokens_emitMembers {members : List (String × IpsaValue)}
    (keys : ∀ entry ∈ members, PlainText entry.1)
    (each : ∀ entry ∈ members, Spells entry.2) (tab : Nat) (rest : List Char) :
    scanner.tokens (emitMembers tab members ++ rest) =
      [.valueSeparator].intercalate (tokensOfMembers (members.map fun entry => (entry.1, entry.2.toJson))) ++
        scanner.tokens rest := by
  induction members with
  | nil => rfl
  | cons entry members ih =>
      have here :=
        each entry List.mem_cons_self tab (stops_behind members.isEmpty (emitMembers tab members ++ rest))
      have later := ih (fun entry member => keys entry (List.mem_cons_of_mem _ member))
        fun entry member => each entry (List.mem_cons_of_mem _ member)
      have shape : emitMembers tab (entry :: members) ++ rest = offset tab ++ ('\"' :: entry.1.toList ++
          ['\"', ' ', ':', ' '] ++ (emit tab entry.2 ++
          ((if members.isEmpty then [] else [',']) ++ '\n' :: (emitMembers tab members ++ rest)))) := by
        simp [emitMembers]
      rw [shape, tokens_offset, tokens_key (keys entry List.mem_cons_self), here, tokens_behind, later]
      cases members <;> simp [tokensOfMembers]

theorem spells_of_plain {value : IpsaValue} (plain : value.Plain) (fits : value.Fits) : Spells value := by
  induction plain with
  | null =>
      intro tab rest _
      exact tokens_null rest
  | integer value =>
      intro tab rest stops
      exact tokens_intText (fits_integer.mp fits) stops
  | @string value plain =>
      intro tab rest _
      have shape : '\"' :: value.toList ++ ['\"'] ++ rest = '\"' :: value.toList ++ '\"' :: rest := by simp
      rw [emit, shape, tokens_string plain, String.ofList_toList]
      rfl
  | @list items _ each =>
      intro tab rest _
      have inside := fits_list.mp fits
      rw [toJson_list, Json.tokens, tokensOfItems_eq]
      cases items with
      | nil => exact (tokens_structural rfl rfl _).trans (congrArg _ (tokens_structural rfl rfl _))
      | cons item items =>
          have shape : emit tab (.list (item :: items)) ++ rest =
              '[' :: '\n' :: (emitItems (tab + 2) (item :: items) ++ (offset tab ++ ']' :: rest)) := by
            simp [emit]
          rw [shape, tokens_structural rfl rfl, tokens_blank rfl,
            tokens_emitItems (fun item member => each item member (inside item member)), tokens_offset,
            tokens_structural rfl rfl]
          simp
  | @dict members _ keys _ each =>
      intro tab rest _
      have inside := fits_dict.mp fits
      rw [toJson_dict, Json.tokens]
      cases members with
      | nil => exact (tokens_structural rfl rfl _).trans (congrArg _ (tokens_structural rfl rfl _))
      | cons entry members =>
          have shape : emit tab (.dict (entry :: members)) ++ rest =
              '{' :: '\n' :: (emitMembers (tab + 2) (entry :: members) ++ (offset tab ++ '}' :: rest)) := by
            simp [emit]
          rw [shape, tokens_structural rfl rfl, tokens_blank rfl,
            tokens_emitMembers keys (fun entry member => each entry member (inside entry member)),
            tokens_offset,
            tokens_structural rfl rfl]
          simp

/-- No value starts with a byte order mark. -/
theorem head_emit (tab : Nat) (value : IpsaValue) : (emit tab value).head? ≠ some '\uFEFF' := by
  have digits (number : Nat) : (Nat.toDigits 10 number).head? ≠ some '\uFEFF' := by
    intro first
    have digit := Nat.isDigit_of_mem_toDigits (n := number) (by decide) (by decide) (List.mem_of_head? first)
    cases digit
  cases value with
  | null => simp [emit]
  | integer value =>
      rw [emit, intText]
      split
      · simp
      · exact digits _
  | string value => simp [emit]
  | list items =>
      rw [emit]
      split <;> simp
  | dict members =>
      rw [emit]
      split <;> simp

/-- What is written without an escape is read back as it was. -/
theorem parse_emit {value : IpsaValue} (plain : value.Plain) (fits : value.Fits) (tab : Nat) :
    Json.parse (emit tab value) = some value.toJson := by
  have stops : Lexer.Stops [] := fun c member => by cases member
  have spelled := spells_of_plain plain fits tab stops
  rw [List.append_nil] at spelled
  exact plain.sorted.parse spelled (head_emit tab value)

end IpsaOutput

end Ipbm.Compiler
