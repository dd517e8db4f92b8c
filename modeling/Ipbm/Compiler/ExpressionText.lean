import Ipbm.Compiler.P4Parameter

/-! Which printed expressions the compiler reads back. -/

set_option autoImplicit false

namespace Ipbm.Compiler.P4r
open Lib Lexer Grammar

variable (headers : List P4Header) (runtimeData : List P4RuntimeData)

def P4Header.ofName (name : String) : Option P4Header := headers.find? fun header => header.name = name

/-- The name of a field in rP4, where the validity of a header is a field. -/
def fieldName (name : String) : String :=
  if name = "$valid$" then "isValid" else String.ofList (properName name.toList)

/-- The field a header and a name stand for: a member of the struct `hdr` for a packet header, and
a member of its own struct for metadata. -/
def P4Header.lvalue (header : P4Header) (name : String) : LValue :=
  if header.metadata then .member (String.ofList header.translatedPrefix) (fieldName name)
  else .field "hdr" header.name (fieldName name)

/-- The value of a hexadecimal literal of any width. -/
def hexValue (text : String) : Option Nat :=
  match text.toList with
  | '0' :: 'x' :: digits => if digits ≠ [] ∧ digits.all hexDigit then some (digitsValue 16 digits) else none
  | _ => none

/-- The same expression in rP4. -/
def translate : P4Parameter → Option Rp4Operation
  | .field [headerName, name] => do return .lvalue ((← P4Header.ofName headers headerName).lvalue name)
  | .runtimeData value =>
      if value < 0 then none else runtimeData[value.toNat]?.map fun data => .parameter data.name
  | .hexstr value => (hexValue value).map fun (value : Nat) => .literal value
  | .bool value => some (.literal (if value then 1 else 0))
  | .expression op left right => do
      let op ← Rp4Operator.all.find? fun listed => decide (listed.text = op)
      return .binary op (← translate left) (← translate right)
  | _ => none

/-- The text of an expression on the right of an assignment reads back as the same expression,
whatever follows. -/
def ParsesBack (parameter : P4Parameter) : Prop :=
  ∃ operation text, translate headers runtimeData parameter = some operation ∧
    parameter.output headers (some runtimeData) = some text ∧
    ∀ rest, parseOperation (lex (text ++ ';' :: rest)) = some (operation, .op .semicolon :: lex rest)

/-- The names that the text of a field takes are identifiers. -/
def NamedField (header : P4Header) (name : String) : Prop :=
  if header.metadata then
    Identifier (String.ofList header.translatedPrefix) ∧ Identifier (String.ofList (properName name.toList))
  else
    Identifier header.name ∧ (name = "$valid$" ∨ Identifier (String.ofList (properName name.toList)))

/-- Action parameters are printed outermost only, and literals fit an `int`. -/
inductive Printable : Bool → P4Parameter → Prop where
  | field {outermost : Bool} {header : P4Header} {headerName name : String}
      (declared : P4Header.ofName headers headerName = some header) (named : NamedField header name) :
      Printable outermost (.field [headerName, name])
  | runtimeData {value : Int} {data : P4RuntimeData} (nonnegative : 0 ≤ value)
      (found : runtimeData[value.toNat]? = some data) (named : Identifier data.name) :
      Printable true (.runtimeData value)
  | hexstr {outermost : Bool} {text : String} {value : Nat} (hex : hexValue text = some value)
      (small : value < 2 ^ 31) : Printable outermost (.hexstr text)
  | bool {outermost : Bool} {value : Bool} : Printable outermost (.bool value)
  | expression {outermost : Bool} {op : Rp4Operator} {left right : P4Parameter} :
      Printable false left → Printable false right → Printable outermost (.expression op.text left right)

/-- The tokens of a field name. -/
def suffixTokens (name : String) : List Token :=
  if name = "$valid$" then [.keyword .isValid, .op .lparen, .op .rparen]
  else [wordToken (properName name.toList)]

def fieldTokens (header : P4Header) (name : String) : List Token :=
  if header.metadata then
    wordToken header.translatedPrefix :: .op .dot :: suffixTokens name
  else
    .identifier "hdr" :: .op .dot :: wordToken header.name.toList :: .op .dot :: suffixTokens name

/-- The tokens of a printed expression. -/
def printed (outermost : Bool) : P4Parameter → List Token
  | .field [headerName, name] => ((P4Header.ofName headers headerName).map (fieldTokens · name)).getD []
  | .runtimeData value =>
      if outermost then (runtimeData[value.toNat]?.map fun data => wordToken data.name.toList).toList else []
  | .hexstr value => ((hexValue value).map fun (value : Nat) => Token.valueInt (strtol value)).toList
  | .bool value => [.keyword (if value then .true else .false)]
  | .expression op left right =>
      .op .lparen :: printed false left ++
        (Rp4Operator.all.find? fun listed => decide (listed.text = op)).toList.map Rp4Operator.token ++
        printed false right ++ [.op .rparen]
  | _ => []

/-- What follows an operand in a printed expression. -/
def Closed (rest : List Char) : Prop := ∃ c behind, rest = c :: behind ∧ (c = ' ' ∨ c = ')' ∨ c = ';')

theorem Closed.stop {rest : List Char} (closed : Closed rest) :
    (∀ c ∈ rest.head?, identifierChar c = false) ∧ ∀ c ∈ rest.head?, hexDigit c = false := by
  obtain ⟨c, behind, rfl, here⟩ := closed
  constructor
  · intro other member
    obtain rfl : c = other := Option.some.inj member
    obtain rfl | rfl | rfl := here <;> rfl
  · intro other member
    obtain rfl : c = other := Option.some.inj member
    obtain rfl | rfl | rfl := here <;> rfl

theorem word_isValid : Word "isValid".toList where
  alpha := ⟨'i', "sValid".toList, by decide, by decide⟩
  chars := List.all_eq_true.mp (by decide)

/-- The name behind the last dot of a field. -/
def Suffix (name : String) : Prop := name = "$valid$" ∨ Word (properName name.toList)

theorem lex_suffix {name : String} (suffix : Suffix name) {rest : List Char} (closed : Closed rest) :
    lex (P4Field.outSuffix ["", name] ++ rest) = suffixTokens name ++ lex rest := by
  have single (text : List Char) : List.intercalate ['.'] [text] = text := by simp [List.intercalate]
  rw [P4Field.outSuffix, List.tail_cons, List.map_singleton, single, suffixTokens]
  by_cases valid : name = "$valid$"
  · have split : "isValid()".toList = "isValid".toList ++ ['(', ')'] := by decide
    have keyword : wordToken "isValid".toList = .keyword .isValid := by decide
    rw [if_pos valid, if_pos valid, split, List.append_assoc,
      lex_word word_isValid (by simp [identifierChar]), keyword, List.cons_append, List.cons_append,
      lex_lparen, lex_rparen]
    rfl
  · rw [if_neg valid, if_neg valid, lex_word (suffix.resolve_left valid) closed.stop.1]
    rfl

theorem outSuffix_tail (headerName other name : String) :
    P4Field.outSuffix [headerName, name] = P4Field.outSuffix [other, name] := rfl

/-- A field with lexable names. -/
def LexableField (header : P4Header) (name : String) : Prop :=
  Suffix name ∧ if header.metadata then Word header.translatedPrefix else Word header.name.toList

theorem word_hdr : Word "hdr".toList where
  alpha := ⟨'h', "dr".toList, by decide, by decide⟩
  chars := List.all_eq_true.mp (by decide)

theorem lex_field {header : P4Header} {headerName name : String}
    (declared : P4Header.ofName headers headerName = some header) (lexable : LexableField header name) :
    ∃ text, P4Field.output headers [headerName, name] = some text ∧
      ∀ rest, Closed rest → lex (text ++ rest) = fieldTokens header name ++ lex rest := by
  obtain ⟨suffix, names⟩ := lexable
  have isPrefix : P4Field.fieldPrefix headers [headerName, name] = some header.translatedPrefix := by
    change some (((P4Header.ofName headers headerName).map P4Header.translatedPrefix).getD []) = _
    rw [declared]
    rfl
  refine ⟨header.translatedPrefix ++ '.' :: P4Field.outSuffix [headerName,
    name], by simp [P4Field.output, isPrefix], ?_⟩
  intro rest closed
  rw [List.append_assoc, List.cons_append, outSuffix_tail headerName "", fieldTokens]
  have dotted : ∀ c ∈ ('.' :: (P4Field.outSuffix ["", name] ++ rest)).head?, identifierChar c = false := by
    intro c member
    obtain rfl : '.' = c := Option.some.inj member
    rfl
  by_cases isMeta : header.metadata
  · rw [if_pos isMeta] at names ⊢
    rw [lex_word names dotted, lex_dot, lex_suffix suffix closed]
    rfl
  · rw [if_neg isMeta] at names ⊢
    have split : header.translatedPrefix = "hdr".toList ++ '.' :: header.name.toList := by
      have own : "hdr.".toList = "hdr".toList ++ ['.'] := by decide
      rw [P4Header.translatedPrefix, if_pos (by simpa using isMeta), own, List.append_assoc]
      rfl
    have keyword : wordToken "hdr".toList = .identifier "hdr" := by decide
    rw [split, List.append_assoc, lex_word word_hdr (by simp [identifierChar]), keyword, List.cons_append,
      lex_dot, lex_word names dotted, lex_dot, lex_suffix suffix closed]
    rfl

theorem lex_op (op : Rp4Operator) (rest : List Char) :
    lex (op.text.toList ++ ' ' :: rest) = op.token :: lex rest := by
  cases op <;> exact (lex_cons _ _).trans (congrArg (_ :: ·) (lex_blank rest))

variable {headers runtimeData}

theorem translate_field {value : List String} {operation : Rp4Operation}
    (translated : translate headers runtimeData (.field value) = some operation) :
    ∃ headerName name header, value = [headerName, name] ∧ P4Header.ofName headers headerName = some header ∧
      operation = .lvalue (header.lvalue name) := by
  match value with
  | [headerName, name] =>
      obtain ⟨header, declared, translated⟩ := Option.bind_eq_some_iff.mp translated
      cases translated
      exact ⟨headerName, name, header, rfl, declared, rfl⟩
  | [] | [_] | _ :: _ :: _ :: _ => cases translated

theorem translate_runtimeData {value : Int} {operation : Rp4Operation}
    (translated : translate headers runtimeData (.runtimeData value) = some operation) :
    ∃ data, 0 ≤ value ∧ runtimeData[value.toNat]? = some data ∧ operation = .parameter data.name := by
  unfold translate at translated
  split at translated
  · cases translated
  · rename_i nonnegative
    obtain ⟨data, found, rfl⟩ := Option.map_eq_some_iff.mp translated
    exact ⟨data, Int.not_lt.mp nonnegative, found, rfl⟩

theorem translate_expression {op : String} {left right : P4Parameter} {operation : Rp4Operation}
    (translated : translate headers runtimeData (.expression op left right) = some operation) :
    ∃ (listed : Rp4Operator) (leftTree rightTree : Rp4Operation), op = listed.text ∧
      translate headers runtimeData left = some leftTree ∧
      translate headers runtimeData right = some rightTree ∧
      operation = .binary listed leftTree rightTree := by
  obtain ⟨listed, isListed, translated⟩ := Option.bind_eq_some_iff.mp translated
  obtain ⟨leftTree, isLeft, translated⟩ := Option.bind_eq_some_iff.mp translated
  obtain ⟨rightTree, isRight, translated⟩ := Option.bind_eq_some_iff.mp translated
  cases translated
  have same := List.find?_some isListed
  exact ⟨listed, leftTree, rightTree, (of_decide_eq_true same).symm, isLeft, isRight, rfl⟩

theorem find_text (op : Rp4Operator) :
    (Rp4Operator.all.find? fun listed => decide (listed.text = op.text)) = some op := by
  cases op <;> decide

/-- Well-named fields are lexable. -/
theorem lexableField_of_wellNamed {header : P4Header} {name : String}
    (named : Rp4Operation.WellNamed (.lvalue (header.lvalue name))) : LexableField header name := by
  have suffix (fieldNamed : Identifier (fieldName name) ∨ fieldName name = "isValid") : Suffix name := by
    by_cases valid : name = "$valid$"
    · exact .inl valid
    · rw [fieldName, if_neg valid] at fieldNamed
      refine .inr ?_
      rcases fieldNamed with identifier | isValid
      · simpa using identifier.word
      · rw [show properName name.toList = "isValid".toList by rw [← isValid, String.toList_ofList]]
        exact word_isValid
  unfold P4Header.lvalue at named
  unfold LexableField
  by_cases isMeta : header.metadata
  · rw [if_pos isMeta] at named ⊢
    exact ⟨suffix (.inl named.2), by simpa using named.1.word⟩
  · rw [if_neg isMeta] at named ⊢
    exact ⟨suffix named.2.2, named.2.1.word⟩

theorem lex_hexstr {text : String} {value : Nat} (hex : hexValue text = some value) {rest : List Char}
    (stop : ∀ c ∈ rest.head?, hexDigit c = false) :
    lex (text.toList ++ rest) = .valueInt (strtol value) :: lex rest := by
  unfold hexValue at hex
  split at hex
  · rename_i digits split
    split at hex
    · rename_i digitsHex
      obtain rfl := Option.some.inj hex
      rw [split]
      exact lex_hex digitsHex.1 (List.all_eq_true.mp digitsHex.2) stop
    · cases hex
  · cases hex

theorem lex_bool (value : Bool) {rest : List Char} (closed : Closed rest) :
    lex ((if value then "true".toList else "false".toList) ++ rest) =
      .keyword (if value then .true else .false) :: lex rest := by
  cases value with
  | true =>
      exact lex_word ⟨⟨'t', "rue".toList, by decide, by decide⟩, List.all_eq_true.mp
        (by decide)⟩ closed.stop.1
  | false =>
      exact lex_word ⟨⟨'f', "alse".toList, by decide, by decide⟩, List.all_eq_true.mp
        (by decide)⟩ closed.stop.1

/-- The text of an expression with a well-named translation is read as its tokens. -/
theorem lex_output {parameter : P4Parameter} {operation : Rp4Operation} (outermost : Bool)
    (translated : translate headers runtimeData parameter = some operation) (named : operation.WellNamed) :
    ∃ text, parameter.output headers (if outermost then some runtimeData else none) = some text ∧
      ∀ rest, Closed rest → lex (text ++ rest) = printed headers runtimeData outermost parameter ++
        lex rest := by
  induction parameter generalizing outermost operation with
  | null | header | other => cases translated
  | field value =>
      obtain ⟨headerName, name, header, rfl, declared, rfl⟩ := translate_field translated
      obtain ⟨text, isText, lexed⟩ := lex_field headers declared (lexableField_of_wellNamed named)
      refine ⟨text, isText, fun rest closed => ?_⟩
      rw [lexed rest closed, printed, declared]
      rfl
  | runtimeData value =>
      obtain ⟨data, nonnegative, found, rfl⟩ := translate_runtimeData translated
      cases outermost with
      | false => exact ⟨[], rfl, fun rest _ => rfl⟩
      | true =>
          refine ⟨data.name.toList, by simp [P4Parameter.output, Int.not_lt.mpr nonnegative, found], ?_⟩
          intro rest closed
          rw [lex_word named.word closed.stop.1, printed, if_pos rfl, found]
          rfl
  | hexstr value =>
      obtain ⟨number, hex, rfl⟩ := Option.map_eq_some_iff.mp translated
      refine ⟨value.toList, rfl, fun rest closed => ?_⟩
      rw [lex_hexstr hex closed.stop.2, printed, hex]
      rfl
  | bool value =>
      refine ⟨_, rfl, fun rest closed => ?_⟩
      rw [lex_bool value closed, printed]
      rfl
  | expression op left right leftIH rightIH =>
      obtain ⟨listed, leftTree, rightTree, rfl, isLeft, isRight, rfl⟩ := translate_expression translated
      obtain ⟨leftText, leftOutput, leftLexed⟩ := leftIH false isLeft named.1
      obtain ⟨rightText, rightOutput, rightLexed⟩ := rightIH false isRight named.2
      have notB2d : listed.text ≠ "b2d" := by cases listed <;> decide
      have leftThere : left ≠ .null := by rintro rfl; cases isLeft
      have rightThere : right ≠ .null := by rintro rfl; cases isRight
      simp only [Bool.false_eq_true, if_false] at leftOutput rightOutput
      refine ⟨'(' :: (leftText ++ [' ']) ++ listed.text.toList ++ ' ' :: rightText ++ [')'],
        by simp [P4Parameter.output, notB2d, leftThere, rightThere, leftOutput, rightOutput], ?_⟩
      intro rest _
      have leftClosed (rest : List Char) : Closed (' ' :: rest) := ⟨' ', rest, rfl, .inl rfl⟩
      have rightClosed : Closed (')' :: rest) := ⟨')', rest, rfl, .inr (.inl rfl)⟩
      simp only [List.cons_append, List.append_assoc, List.nil_append]
      rw [lex_lparen, leftLexed _ (leftClosed _), lex_blank, lex_op, rightLexed _ rightClosed, lex_rparen,
        printed, find_text]
      simp

/-- The tokens of a field are those of its translation, unless its name is the keyword. -/
theorem fieldTokens_length {header : P4Header} {name : String}
    (named : Rp4Operation.WellNamed (.lvalue (header.lvalue name))) :
    (fieldTokens header name).length ≤ Rp4Operation.size (.lvalue (header.lvalue name)) ∧
      ((fieldTokens header name).length = Rp4Operation.size (.lvalue (header.lvalue name)) →
        NamedField header name) := by
  unfold P4Header.lvalue at named ⊢
  unfold fieldTokens NamedField suffixTokens
  by_cases isMeta : header.metadata
  · rw [if_pos isMeta] at named ⊢
    rw [if_pos isMeta, if_pos isMeta]
    by_cases valid : name = "$valid$"
    · have last := named.2
      rw [fieldName, if_pos valid] at last
      exact absurd rfl (identifier_ne_isValid last)
    · have names := named
      rw [Rp4Operation.WellNamed, fieldName, if_neg valid] at names
      rw [if_neg valid]
      exact ⟨Nat.le_refl 3, fun _ => names⟩
  · rw [if_neg isMeta] at named ⊢
    rw [if_neg isMeta, if_neg isMeta]
    obtain ⟨_, member, last⟩ := named
    by_cases valid : name = "$valid$"
    · have size : Rp4Operation.size (.lvalue (.field "hdr" header.name (fieldName name))) = 7 := by
        rw [Rp4Operation.size, fieldName, if_pos valid]
        rfl
      rw [if_pos valid, size]
      exact ⟨Nat.le_refl 7, fun _ => ⟨member, .inl valid⟩⟩
    · rw [fieldName, if_neg valid] at last ⊢
      rw [if_neg valid, Rp4Operation.size]
      rcases last with identifier | isValid
      · rw [if_neg (identifier_ne_isValid identifier)]
        exact ⟨Nat.le_refl 5, fun _ => ⟨member, .inr identifier⟩⟩
      · rw [if_pos isValid]
        exact ⟨show 5 ≤ 7 by decide, fun same => absurd (show 5 = 7 from same) (by decide)⟩

/-- A printed expression has no more tokens than its translation, and as many only if it is printable. -/
theorem printed_length {parameter : P4Parameter} {operation : Rp4Operation} (outermost : Bool)
    (translated : translate headers runtimeData parameter = some operation) (named : operation.WellNamed) :
    (printed headers runtimeData outermost parameter).length ≤ operation.size ∧
      ((printed headers runtimeData outermost parameter).length = operation.size →
        Printable headers runtimeData outermost parameter) := by
  induction parameter generalizing outermost operation with
  | null | header | other => cases translated
  | field value =>
      obtain ⟨headerName, name, header, rfl, declared, rfl⟩ := translate_field translated
      have tokens : printed headers runtimeData outermost (.field [headerName, name]) =
          fieldTokens header name := by
        rw [printed, declared]
        rfl
      rw [tokens]
      exact ⟨(fieldTokens_length named).1, fun same => .field declared ((fieldTokens_length named).2 same)⟩
  | runtimeData value =>
      obtain ⟨data, nonnegative, found, rfl⟩ := translate_runtimeData translated
      cases outermost with
      | false => exact ⟨Nat.zero_le _, fun same => nomatch same⟩
      | true =>
          rw [printed, if_pos rfl, found]
          exact ⟨Nat.le_refl 1, fun _ => .runtimeData nonnegative found named⟩
  | hexstr value =>
      obtain ⟨number, hex, rfl⟩ := Option.map_eq_some_iff.mp translated
      rw [printed, hex]
      exact ⟨Nat.le_refl 1, fun _ => .hexstr hex (by have := named.2; omega)⟩
  | bool value =>
      obtain rfl := Option.some.inj translated
      exact ⟨Nat.le_refl 1, fun _ => .bool⟩
  | expression op left right leftIH rightIH =>
      obtain ⟨listed, leftTree, rightTree, rfl, isLeft, isRight, rfl⟩ := translate_expression translated
      have leftLength := leftIH false isLeft named.1
      have rightLength := rightIH false isRight named.2
      have length : (printed headers runtimeData outermost (.expression listed.text left right)).length =
          (printed headers runtimeData false left).length +
              (printed headers runtimeData false right).length + 3 := by
        rw [printed, find_text]
        simp only [List.length_append, List.length_cons, List.length_nil, List.length_map, Option.toList_some]
        omega
      rw [length, Rp4Operation.size]
      refine ⟨by omega, fun same => ?_⟩
      exact .expression (leftLength.2 (by omega)) (rightLength.2 (by omega))

theorem strtol_eq {value : Nat} (small : value < 2 ^ 31) : strtol value = value := by
  unfold strtol
  omega

/-- The tokens of a printable field are read as the field. -/
theorem parse_field {header : P4Header} {name : String} (named : NamedField header name) (fuel : Nat)
    {rest : List Token} (stop : rest.head? ≠ some (.op .dot)) :
    Rp4Operation.WellNamed (.lvalue (header.lvalue name)) ∧
      parseOperationFrom (fuel + 1) (fieldTokens header name ++ rest) =
        some (.lvalue (header.lvalue name), rest) := by
  unfold NamedField at named
  unfold fieldTokens P4Header.lvalue suffixTokens
  by_cases isMeta : header.metadata
  · rw [if_pos isMeta] at named
    obtain ⟨first, second⟩ := named
    have notValid : name ≠ "$valid$" := by
      rintro rfl
      obtain ⟨c, behind, word, alpha⟩ := second.word.alpha
      rw [String.toList_ofList] at word
      obtain ⟨rfl, _⟩ := List.cons.inj (show '$' :: "valid$".toList = c :: behind from word)
      cases alpha
    have firstToken := wordToken_identifier first
    have secondToken := wordToken_identifier second
    rw [String.toList_ofList] at firstToken secondToken
    rw [if_pos isMeta, if_pos isMeta, fieldName, if_neg notValid, if_neg notValid, firstToken, secondToken]
    refine ⟨⟨first, second⟩, ?_⟩
    rw [parseOperationFrom_operand (by simp)]
    exact parseOperand_member _ _ stop
  · rw [if_neg isMeta] at named
    obtain ⟨member, last⟩ := named
    have hdr : Identifier "hdr" := ⟨word_hdr, by decide⟩
    rw [if_neg isMeta, if_neg isMeta, wordToken_identifier member, fieldName]
    by_cases valid : name = "$valid$"
    · rw [if_pos valid, if_pos valid]
      exact ⟨⟨hdr, member, .inr rfl⟩, rfl⟩
    · have last := last.resolve_left valid
      have lastToken := wordToken_identifier last
      rw [String.toList_ofList] at lastToken
      rw [if_neg valid, if_neg valid, lastToken]
      exact ⟨⟨hdr, member, .inl last⟩, rfl⟩

/-- The tokens of a printable expression are read as its translation. -/
theorem parse_printed {parameter : P4Parameter} {outermost : Bool}
    (printable : Printable headers runtimeData outermost parameter) :
    ∃ operation, translate headers runtimeData parameter = some operation ∧ operation.WellNamed ∧
      ∀ fuel rest, (printed headers runtimeData outermost parameter).length ≤ fuel →
        rest.head? ≠ some (.op .dot) →
        parseOperationFrom (fuel + 1) (printed headers runtimeData outermost parameter ++ rest) =
          some (operation, rest) := by
  induction printable with
  | @field outermost header headerName name declared named =>
      refine ⟨_, by simp only [translate, declared, Option.bind_eq_bind, Option.bind_some]; rfl,
        (parse_field named 0 (show [].head? ≠ some (Token.op SingleOp.dot) by simp)).1, ?_⟩
      intro fuel rest _ stop
      rw [printed, declared]
      exact (parse_field named fuel stop).2
  | @runtimeData value data nonnegative found named =>
      refine ⟨.parameter
        data.name, by rw [translate, if_neg (Int.not_lt.mpr nonnegative), found]; rfl, named, ?_⟩
      intro fuel rest _ stop
      rw [printed, if_pos rfl, found, Option.map_some, wordToken_identifier named]
      exact (parseOperationFrom_operand (by simp)).trans (parseOperand_parameter _ stop)
  | @hexstr outermost text value hex small =>
      refine ⟨.literal value, by rw [translate, hex]; rfl, ⟨by omega, by omega⟩, ?_⟩
      intro fuel rest _ _
      rw [printed, hex, Option.map_some, strtol_eq small]
      rfl
  | @bool outermost value =>
      refine ⟨_, rfl, ?_, ?_⟩
      · cases value <;> simp [Rp4Operation.WellNamed]
      · intro fuel rest _ _
        cases value <;> rfl
  | @expression outermost op left right _ _ leftIH rightIH =>
      obtain ⟨leftTree, isLeft, leftNamed, leftParsed⟩ := leftIH
      obtain ⟨rightTree, isRight, rightNamed, rightParsed⟩ := rightIH
      refine ⟨.binary op leftTree rightTree, by rw [translate, find_text, isLeft, isRight]; rfl,
        ⟨leftNamed, rightNamed⟩, ?_⟩
      intro fuel rest enough _
      rw [printed, find_text] at enough ⊢
      simp only [List.length_append, List.length_cons, List.length_nil, List.length_map,
        Option.toList_some] at enough
      obtain ⟨less, rfl⟩ : ∃ less, fuel = less + 1 := ⟨fuel - 1, by omega⟩
      simp only [Option.toList_some, List.map_singleton, List.cons_append, List.append_assoc, List.nil_append]
      have opStop (behind : List Token) : (op.token :: behind).head? ≠ some (.op .dot) := by
        cases op <;> simp [Rp4Operator.token]
      exact parseOperationFrom_lparen.mpr ⟨op, leftTree, rightTree, _,
        leftParsed less _ (by omega) (opStop _), rightParsed less _ (by omega) (by simp), rfl⟩

/-- A printed expression reads back exactly if it is printable: the operands of an expression are
printed without the names of the action's parameters, and a literal becomes an `int`. -/
theorem parsesBack_iff (headers : List P4Header) (runtimeData : List P4RuntimeData)
    (parameter : P4Parameter) :
    ParsesBack headers runtimeData parameter ↔ Printable headers runtimeData true parameter := by
  have closed (rest : List Char) : Closed (';' :: rest) := ⟨';', rest, rfl, .inr (.inr rfl)⟩
  constructor
  · rintro ⟨operation, text, translated, isText, parsed⟩
    have back := parsed []
    have named := (parseOperationFrom_spec (lex_valid _) back).1
    obtain ⟨other, isOther, lexed⟩ := lex_output true translated named
    obtain rfl := Option.some.inj (isText.symm.trans isOther)
    obtain ⟨_, consumed, split, size⟩ := parseOperationFrom_spec (lex_valid _) back
    rw [lexed _ (closed _), lex_semicolon] at split
    rw [← List.append_cancel_right split] at size
    exact (printed_length true translated named).2 size
  · intro printable
    obtain ⟨operation, translated, named, parsed⟩ := parse_printed printable
    obtain ⟨text, isText, lexed⟩ := lex_output true translated named
    refine ⟨operation, text, translated, isText, fun rest => ?_⟩
    rw [parseOperation, lexed _ (closed _), lex_semicolon]
    exact parsed _ _ (by simp) (by simp)

/-- `hdr.ipv4.ttl` plus the first parameter of the action. -/
def nestedParameter : P4Parameter :=
  .expression "+" (.field ["ipv4", "ttl"]) (.runtimeData 0)

/-- The parameter is not printed, and `(hdr.ipv4.ttl + )` is no operation. -/
theorem nested_parameter_lost :
    (nestedParameter.output [⟨"ipv4", "ipv4_t", false⟩] (some [⟨"step", 8⟩])).map String.ofList =
        some "(hdr.ipv4.ttl + )" ∧
      parseOperation (lex "(hdr.ipv4.ttl + );".toList) = none ∧
      ¬ ParsesBack [⟨"ipv4", "ipv4_t", false⟩] [⟨"step", 8⟩] nestedParameter := by
  have text : nestedParameter.output [⟨"ipv4", "ipv4_t", false⟩] (some [⟨"step", 8⟩]) =
      some "(hdr.ipv4.ttl + )".toList := by
    decide
  have rejected : parseOperation (lex ("(hdr.ipv4.ttl + )".toList ++ [';'])) = none := by decide
  refine ⟨by rw [text, Option.map_some, String.ofList_toList], rejected, ?_⟩
  rintro ⟨operation, other, _, isOther, parsed⟩
  obtain rfl := Option.some.inj (text.symm.trans isOther)
  exact nomatch rejected.symm.trans (parsed [])

end Ipbm.Compiler.P4r
