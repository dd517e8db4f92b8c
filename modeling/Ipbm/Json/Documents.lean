import Ipbm.Json.Parser

/-! Documents and the tokens that spell them, and what the lexer makes of the texts
of such tokens. -/

set_option autoImplicit false

namespace Ipbm.Json
open Lib

mutual

def tokens : Json → List Token
  | .null => [.literalNull]
  | .boolean value => [if value then .literalTrue else .literalFalse]
  | .integer value => [.valueInteger value]
  | .float => [.valueFloat]
  | .string text => [.valueString text]
  | .array items => .beginArray :: ([.valueSeparator].intercalate (tokensOfItems items) ++ [.endArray])
  | .object
    members => .beginObject :: ([.valueSeparator].intercalate (tokensOfMembers members) ++ [.endObject])

def tokensOfItems : List Json → List (List Token)
  | [] => []
  | item :: rest => item.tokens :: tokensOfItems rest

def tokensOfMembers : List (String × Json) → List (List Token)
  | [] => []
  | (key, value) :: rest => (.valueString key :: .nameSeparator :: value.tokens) :: tokensOfMembers rest

end

theorem tokensOfItems_eq (items : List Json) : tokensOfItems items = items.map tokens := by
  induction items with
  | nil => rfl
  | cons item rest ih => rw [tokensOfItems, ih, List.map_cons]

/-- Objects list their members in the order of the keys, each key once. -/
inductive Sorted : Json → Prop where
  | null : Sorted .null
  | boolean (value : Bool) : Sorted (.boolean value)
  | integer (value : Int) : Sorted (.integer value)
  | float : Sorted .float
  | string (text : String) : Sorted (.string text)
  | array {items : List Json} : (∀ item ∈ items, Sorted item) → Sorted (.array items)
  | object {members : OrderedMap String Json} : OrderedMap.Ordered members →
      (∀ entry ∈ members, Sorted entry.2) →
      Sorted (.object members)

/-- What the parser does with the tokens of a document, whatever is around them. -/
def Reads (json : Json) : Prop :=
  ∀ frames rest, parseValue frames (json.tokens ++ rest) = afterValue frames json rest

theorem tokens_ne_endArray (json : Json) : ∃ first rest, json.tokens = first :: rest ∧ first ≠ .endArray := by
  cases json with
  | boolean value => cases value <;> exact ⟨_, _, rfl, by decide⟩
  | _ => exact ⟨_, _, rfl, by simp⟩

private theorem parseValue_beginArray {first : Token} (different : first ≠ .endArray) (frames : List Frame)
    (rest : List Token) :
    parseValue frames (.beginArray :: first :: rest) = parseValue (.array [] :: frames) (first :: rest) := by
  rw [parseValue]
  intro rest same
  exact different (List.cons.inj same).1

private theorem head_intercalate_items (item : Json) (items : List Json) :
    ∃ first more, [Token.valueSeparator].intercalate ((item :: items).map tokens) = first :: more ∧
      first ≠ .endArray := by
  obtain ⟨first, more, spelled, different⟩ := tokens_ne_endArray item
  cases items with
  | nil => exact ⟨first, more, by simp [spelled], different⟩
  | cons next
    items => exact ⟨first,
      _, by rw [List.map_cons, List.map_cons, List.intercalate_cons_cons, spelled]; rfl, different⟩

private theorem reads_items {items : List Json} (each : ∀ item ∈ items, Reads item) (some_ : items ≠ [])
    (frames : List Frame) (done : List Json) (rest : List Token) :
    parseValue (.array done :: frames) ([.valueSeparator].intercalate (items.map tokens) ++
      .endArray :: rest) = afterValue frames (.array (done ++ items)) rest := by
  induction items generalizing done with
  | nil => exact absurd rfl some_
  | cons item items ih =>
      have here := each item List.mem_cons_self
      cases items with
      | nil =>
          rw [List.map_singleton, List.intercalate_singleton, here]
          rfl
      | cons next items =>
          have later :=
            ih (fun item member => each item (List.mem_cons_of_mem _ member)) (List.cons_ne_nil _ _)
            (done ++ [item])
          rw [List.map_cons, List.map_cons, List.intercalate_cons_cons, List.append_assoc,
            List.append_assoc, here, List.singleton_append, afterValue, ← List.map_cons, later,
            List.append_assoc, List.singleton_append]

/-- A key behind all others stands at the end. -/
theorem put_last {members : OrderedMap String Json} {key : String} (last : ∀ entry ∈ members, entry.1 < key)
    (value : Json) : put members key value = members ++ [(key, value)] := by
  induction members with
  | nil => rfl
  | cons entry rest ih =>
      have below := last entry List.mem_cons_self
      rw [put, OrderedMap.alter, if_neg (lt_asymm below), if_neg below.ne', ← put,
        ih fun entry member => last entry (List.mem_cons_of_mem _ member), List.cons_append]

private theorem reads_members {members : OrderedMap String Json} (each : ∀ entry ∈ members, Reads entry.2)
    {key : String} {value : Json} (first : Reads value) (frames : List Frame) (done : OrderedMap String Json)
    (ordered : OrderedMap.Ordered (done ++ (key, value) :: members)) (rest : List Token) :
    parseValue (.object done key :: frames)
        (value.tokens ++ (members.flatMap fun entry =>
          .valueSeparator :: .valueString entry.1 :: .nameSeparator :: entry.2.tokens) ++
            .endObject :: rest) =
      afterValue frames (.object (done ++ (key, value) :: members)) rest := by
  have last : put done key value = done ++ [(key, value)] := by
    refine put_last (fun entry member => ?_) value
    rw [OrderedMap.Ordered, OrderedMap.keys, List.map_append] at ordered
    exact (List.pairwise_append.mp ordered).2.2 entry.1 (List.mem_map_of_mem member) key List.mem_cons_self
  induction members generalizing done key value with
  | nil =>
      rw [List.flatMap_nil, List.append_nil, first, afterValue, last]
  | cons entry members ih =>
      have moved : done ++ (key, value) :: entry :: members = done ++ [(key, value)] ++
          (entry.1, entry.2) :: members := by
        simp
      rw [moved] at ordered
      have last' : put (done ++ [(key, value)]) entry.1 entry.2 = done ++ [(key, value)] ++
          [(entry.1, entry.2)] := by
        refine put_last (fun other member => ?_) entry.2
        rw [OrderedMap.Ordered, OrderedMap.keys, List.map_append] at ordered
        exact (List.pairwise_append.mp ordered).2.2 other.1
          (List.mem_map_of_mem member) entry.1 List.mem_cons_self
      have later :=
        ih (fun entry member => each entry (List.mem_cons_of_mem _ member)) (each entry List.mem_cons_self)
        (done ++ [(key, value)]) ordered last'
      rw [List.flatMap_cons, List.append_assoc, first]
      simp only [List.cons_append]
      rw [afterValue, last, later, moved]

private theorem intercalate_members (members : OrderedMap String Json) (key : String) (value : Json) :
    [Token.valueSeparator].intercalate (tokensOfMembers ((key, value) :: members)) =
      .valueString key :: .nameSeparator :: value.tokens ++ members.flatMap fun entry =>
        .valueSeparator :: .valueString entry.1 :: .nameSeparator :: entry.2.tokens := by
  induction members generalizing key value with
  | nil => simp [tokensOfMembers]
  | cons entry members ih =>
      have later := ih entry.1 entry.2
      rw [tokensOfMembers, tokensOfMembers, List.intercalate_cons_cons, ← tokensOfMembers, later]
      simp

/-- The tokens of a document are read as that document. -/
theorem Sorted.reads {json : Json} (sorted : json.Sorted) : json.Reads := by
  induction sorted with
  | null => intro frames rest; rfl
  | boolean value => intro frames rest; cases value <;> rfl
  | integer value => intro frames rest; rfl
  | float => intro frames rest; rfl
  | string text => intro frames rest; rfl
  | @array items _ each =>
      intro frames rest
      rw [tokens, tokensOfItems_eq, List.cons_append, List.append_assoc, List.singleton_append]
      cases items with
      | nil => rfl
      | cons item items =>
          have whole := reads_items each (List.cons_ne_nil _ _) frames [] rest
          rw [List.nil_append] at whole
          rw [← whole]
          obtain ⟨first, more, spelled, different⟩ := head_intercalate_items item items
          rw [spelled, List.cons_append, parseValue_beginArray different]
  | @object members ordered _ each =>
      intro frames rest
      rw [tokens, List.cons_append, List.append_assoc, List.singleton_append]
      cases members with
      | nil => rfl
      | cons entry members =>
          have whole := reads_members (fun entry member => each entry (List.mem_cons_of_mem _ member))
            (each entry List.mem_cons_self) frames [] ordered rest
          rw [List.nil_append] at whole
          rw [← whole, intercalate_members]
          rfl

/-- A text that spells a document, whatever stands behind it. -/
theorem Sorted.parse {json : Json} (sorted : json.Sorted) {text : List Char} {rest : List Token}
    (spelled : Lexer.scanner.tokens text = json.tokens ++ rest) (noMark : text.head? ≠ some '\uFEFF') :
    Json.parse text = some json := by
  rw [Json.parse, if_neg noMark, spelled, sorted.reads, afterValue]

/-! ### Texts of tokens -/

namespace Lexer

theorem tokens_blank {c : Char} (isBlank : blank c = true) (rest : List Char) :
    scanner.tokens (c :: rest) = scanner.tokens rest := by
  rw [Scanner.tokens_cons]
  change (scan c rest).1.toList ++ scanner.tokens (scan c rest).2 = _
  rw [scan, if_pos isBlank]
  rfl

theorem tokens_blanks {blanks : List Char} (all : ∀ c ∈ blanks, blank c = true) (rest : List Char) :
    scanner.tokens (blanks ++ rest) = scanner.tokens rest := by
  induction blanks with
  | nil => rfl
  | cons c blanks ih =>
      rw [List.cons_append, tokens_blank (all c List.mem_cons_self),
        ih fun c member => all c (List.mem_cons_of_mem _ member)]

/-- The token at the front of a text without a blank there. -/
theorem tokens_token {c : Char} (notBlank : blank c = false) (rest : List Char) :
    scanner.tokens (c :: rest) = (scanToken c rest).1 :: scanner.tokens (scanToken c rest).2 := by
  rw [Scanner.tokens_cons]
  change (scan c rest).1.toList ++ scanner.tokens (scan c rest).2 = _
  rw [scan, if_neg (by rw [notBlank]; decide)]
  rfl

theorem tokens_structural {c : Char} {token : Token} (isStructural : structural c = some token)
    (notBlank : blank c = false) (rest : List Char) :
    scanner.tokens (c :: rest) = token :: scanner.tokens rest := by
  rw [tokens_token notBlank, scanToken, isStructural]

/-- Text between quotes that needs no escape. -/
theorem scanString_plain {text : List Char} (plain : ∀ c ∈ text, c ≠ '\"' ∧ c ≠ '\\' ∧ 0x20 ≤ c.toNat)
    (rest : List Char) {fuel : Nat} (enough : text.length < fuel) :
    scanString fuel (text ++ '\"' :: rest) = some (text, rest) := by
  induction text generalizing fuel with
  | nil =>
      obtain ⟨less, rfl⟩ : ∃ less, fuel = less + 1 :=
        ⟨fuel - 1, by simp only [List.length_nil] at enough; omega⟩
      rfl
  | cons c text ih =>
      obtain ⟨less, rfl⟩ : ∃ less, fuel = less + 1 :=
        ⟨fuel - 1, by simp only [List.length_cons] at enough; omega⟩
      obtain ⟨notQuote, notBackslash, printable⟩ := plain c List.mem_cons_self
      have later :=
        ih (fun c member => plain c (List.mem_cons_of_mem _ member)) (Nat.lt_of_succ_lt_succ enough)
      rw [List.cons_append, scanString, if_neg notQuote, if_neg notBackslash,
        if_neg (Nat.not_lt.mpr printable), later]
      rfl

theorem tokens_string {text : List Char} (plain : ∀ c ∈ text, c ≠ '\"' ∧ c ≠ '\\' ∧ 0x20 ≤ c.toNat)
    (rest : List Char) :
    scanner.tokens
    ('\"' :: text ++ '\"' :: rest) = .valueString (String.ofList text) :: scanner.tokens rest := by
  have enough : text.length < (text ++ '\"' :: rest).length := by simp
  have read := scanString_plain plain rest enough
  have quoted : scanToken '\"' (text ++ '\"' :: rest) = (.valueString (String.ofList text), rest) := by
    rw [scanToken, read]
    rfl
  rw [List.cons_append, tokens_token rfl, quoted]

/-- A text that does not go on with a number. -/
def Stops (text : List Char) : Prop := ∀ c ∈ text.head?, c.isDigit = false ∧ c ≠ '.' ∧ c ≠ 'e' ∧ c ≠ 'E'

private theorem scanTail_stops {rest : List Char} (stops : Stops rest) (negative : Bool)
    (digits : List Char) :
    scanTail negative digits rest = (integerToken negative digits, rest) := by
  unfold scanTail
  split
  · exact absurd rfl (stops _ rfl).2.1
  · exact absurd rfl (stops _ rfl).2.2.1
  · exact absurd rfl (stops _ rfl).2.2.2
  · rfl

theorem head_toDigits {value : Nat} (positive : 0 < value) : (Nat.toDigits 10 value).head? ≠ some '0' := by
  induction value using Nat.strong_induction_on with
  | _ value ih =>
      by_cases small : value < 10
      · have digits : ∀ digit < 10, 0 < digit → [Nat.digitChar digit].head? ≠ some '0' := by decide
        rw [Nat.toDigits_of_lt_base small]
        exact digits value small positive
      · have large : 10 ≤ value := Nat.le_of_not_lt small
        have shorter := ih (value / 10) (Nat.div_lt_self positive (by decide)) (Nat.div_pos large (by decide))
        rw [Nat.toDigits_of_base_le (by decide) large, List.head?_append]
        cases front : (Nat.toDigits 10 (value / 10)).head? with
        | none => exact absurd (List.head?_eq_none_iff.mp front) Nat.toDigits_ne_nil
        | some c =>
            rw [front] at shorter
            exact shorter

theorem scanNumber_digits {rest : List Char} (stops : Stops rest) (negative : Bool) (value : Nat) :
    scanNumber negative (Nat.toDigits 10 value ++ rest) =
      (integerToken negative (Nat.toDigits 10 value), rest) := by
  have digits : ∀ c ∈ Nat.toDigits 10 value, c.isDigit = true := fun c member =>
    Nat.isDigit_of_mem_toDigits (by decide) (by decide) member
  have ends := takeWhile_run digits fun c member => (stops c member).1
  unfold scanNumber
  split
  · next behind same =>
      rcases Nat.eq_zero_or_pos value with rfl | positive
      · rw [Nat.toDigits_zero, List.singleton_append] at same
        cases same
        rw [Nat.toDigits_zero]
        exact scanTail_stops stops negative _
      · obtain ⟨first, more, spelled⟩ := List.exists_cons_of_ne_nil (@Nat.toDigits_ne_nil value 10)
        have notZero := head_toDigits positive
        rw [spelled] at same notZero
        cases same
        exact absurd rfl notZero
  · rw [scanDigits, ends.1, ends.2, if_neg Nat.toDigits_ne_nil]
    exact scanTail_stops stops negative _

private theorem scanToken_digit {first : Char} (digit : first.isDigit = true) (rest : List Char) :
    scanToken first rest = scanNumber false (first :: rest) := by
  have ne {c : Char} (notDigit : c.isDigit = false) : first ≠ c := fun same => by
    rw [same, notDigit] at digit
    cases digit
  have notStructural : structural first = none := by
    unfold structural
    split <;> first | rfl | cases digit
  rw [scanToken, notStructural]
  dsimp only
  rw [if_neg (ne rfl), if_neg (ne rfl), if_neg (ne rfl), if_neg (ne rfl), if_neg (ne rfl), if_pos digit]

private theorem blank_digit {first : Char} (digit : first.isDigit = true) : blank first = false := by
  have ne {c : Char} (notDigit : c.isDigit = false) : first ≠ c := fun same => by
    rw [same, notDigit] at digit
    cases digit
  simp [blank, ne]

theorem tokens_natural {value : Nat} (small : value < 2 ^ 64) {rest : List Char} (stops : Stops rest) :
    scanner.tokens (Nat.toDigits 10 value ++ rest) = .valueInteger value :: scanner.tokens rest := by
  obtain ⟨first, more, spelled⟩ := List.exists_cons_of_ne_nil (@Nat.toDigits_ne_nil value 10)
  have digit : first.isDigit = true :=
    Nat.isDigit_of_mem_toDigits (b := 10) (n := value) (by decide) (by decide) (spelled ▸ List.mem_cons_self)
  have number := scanNumber_digits stops false value
  rw [integerToken, Nat.ofDigitChars_ten_toDigits, if_neg (by decide), if_pos small, spelled,
    List.cons_append] at number
  rw [spelled, List.cons_append, tokens_token (blank_digit digit), scanToken_digit digit, number]

theorem tokens_negative {value : Nat} (small : value ≤ 2 ^ 63) {rest : List Char} (stops : Stops rest) :
    scanner.tokens ('-' :: Nat.toDigits 10 value ++ rest) = .valueInteger (-value) ::
      scanner.tokens rest := by
  have number := scanNumber_digits stops true value
  rw [integerToken, Nat.ofDigitChars_ten_toDigits, if_pos rfl, if_pos small] at number
  have minus (text : List Char) : scanToken '-' text = scanNumber true text := rfl
  rw [List.cons_append, tokens_token rfl, minus, number]

theorem tokens_null (rest : List Char) :
    scanner.tokens ('n' :: 'u' :: 'l' :: 'l' :: rest) = .literalNull :: scanner.tokens rest := by
  have literal : scanToken 'n' ('u' :: 'l' :: 'l' :: rest) = (.literalNull, rest) := by
    have read : scanToken 'n' ('u' :: 'l' :: 'l' :: rest) = scanLiteral ['u', 'l', 'l'] .literalNull
      ('u' :: 'l' :: 'l' :: rest) := rfl
    rw [read, scanLiteral, if_pos (by simp)]
    rfl
  rw [tokens_token rfl, literal]

end Lexer

end Ipbm.Json
