import Ipbm.Compiler.UpdateKey
import Ipbm.Lib.Scanner

/-! The lexer of the compiler (`lex.l`). The longest rule wins and the first one
among the longest, so a word is a keyword only as a whole, and `//` hides `///`. -/

set_option autoImplicit false

namespace Ipbm.Compiler
open Lib

inductive Keyword where
  | bit | struct | true | false | header | headers | parser | state | transition | packet | packetIn
  | select | default | accept | extract | actions | action | noAction | tables | table | key | size
  | defaultAction | entries | exact | ternary | lpm | control | matcher | executor | switch | hit | miss
  | isValid | none | stage | valueWidth
  deriving DecidableEq, Repr

namespace Keyword

def all : List Keyword :=
  [bit, struct, true, false, header, headers, parser, state, transition, packet, packetIn, select, default,
    accept, extract, actions, action, noAction, tables, table, key, size, defaultAction, entries, exact,
    ternary, lpm, control, matcher, executor, switch, hit, miss, isValid, none, stage, valueWidth]

def text : Keyword → String
  | bit => "bit" | struct => "struct" | true => "true" | false => "false" | header => "header"
  | headers => "headers" | parser => "parser" | state => "state" | transition => "transition"
  | packet => "packet" | packetIn => "packet_in" | select => "select" | default => "default"
  | accept => "accept" | extract => "extract" | actions => "actions" | action => "action"
  | noAction => "NoAction" | tables => "tables" | table => "table" | key => "key" | size => "size"
  | defaultAction => "default_action" | entries => "entries" | exact => "exact" | ternary => "ternary"
  | lpm => "lpm" | control => "control" | matcher => "matcher" | executor => "executor"
  | switch => "switch" | hit => "__HIT__" | miss => "__MISS__" | isValid => "isValid" | none => "None"
  | stage => "stage" | valueWidth => "value_width"

/-- The keyword a word is. -/
def ofWord (word : List Char) : Option Keyword := all.find? fun keyword => keyword.text.toList = word

end Keyword

/-- The operators of one character. -/
inductive SingleOp where
  | semicolon | lparen | rparen | comma | star | assign | gt | lt | dot | colon | hash | lbracket | rbracket
  | lbrace | rbrace | plus | minus | slash | amp | bar | caret | tilde | bang
  deriving DecidableEq, Repr

def SingleOp.ofChar : Char → Option SingleOp
  | ';' => some semicolon | '(' => some lparen | ')' => some rparen | ',' => some comma | '*' => some star
  | '=' => some assign | '>' => some gt | '<' => some lt | '.' => some dot | ':' => some colon
  | '#' => some hash | '[' => some lbracket | ']' => some rbracket | '{' => some lbrace
  | '}' => some rbrace | '+' => some plus | '-' => some minus | '/' => some slash | '&' => some amp
  | '|' => some bar | '^' => some caret | '~' => some tilde | '!' => some bang
  | _ => none

inductive Token where
  | keyword (keyword : Keyword)
  | geq | leq | neq | equ | andAndAnd | divDivDiv
  | op (op : SingleOp)
  | identifier (text : String)
  | valueInt (value : Int)
  | valueString (text : String)
  | eof
  deriving DecidableEq, Repr

namespace Lexer

def identifierChar (c : Char) : Bool := c = '_' || c.isAlpha || c.isDigit

def hexDigit (c : Char) : Bool := (convert c).isSome

def binDigit (c : Char) : Bool := c = '0' || c = '1'

/-- The value of digits in a base. -/
def digitsValue (base : Nat) (digits : List Char) : Nat :=
  digits.foldl (fun value digit => value * base + (convert digit).getD 0) 0

/-- `strtol` stays within a 64-bit `long`; its value is then stored in an `int`. -/
def strtol (value : Int) : Int :=
  (max (-2 ^ 63) (min value (2 ^ 63 - 1)) + 2 ^ 31) % 2 ^ 32 - 2 ^ 31

/-- The text behind a comment, which may run to the end of the file. -/
def skipComment : List Char → List Char
  | [] => []
  | '*' :: '/' :: rest => rest
  | _ :: rest => skipComment rest

/-- A word is a keyword or an identifier. -/
def scanWord (text : List Char) : Option Token × List Char :=
  let word := text.takeWhile identifierChar
  let token := match Keyword.ofWord word with
    | some keyword => .keyword keyword
    | none => .identifier (String.ofList word)
  (some token, text.dropWhile identifierChar)

/-- Digits in a base behind their prefix. -/
def scanBase (base : Nat) (digit : Char → Bool) (digits : List Char) : Option Token × List Char :=
  (some (.valueInt (strtol (digitsValue base (digits.takeWhile digit)))), digits.dropWhile digit)

/-- Decimal digits behind their sign. -/
def scanDecimal (sign : Int) (text : List Char) : Option Token × List Char :=
  (some (.valueInt (strtol (sign * digitsValue 10 (text.takeWhile Char.isDigit)))),
    text.dropWhile Char.isDigit)

/-- `0x` or `0b` without a digit behind it is the number zero. -/
def scanNumber (first : Char) (rest : List Char) : Option Token × List Char :=
  match rest with
  | 'x' :: digits =>
      if first = '0' ∧ digits.takeWhile hexDigit ≠ [] then scanBase 16 hexDigit digits
      else scanDecimal 1 (first :: rest)
  | 'b' :: digits =>
      if first = '0' ∧ digits.takeWhile binDigit ≠ [] then scanBase 2 binDigit digits
      else scanDecimal 1 (first :: rest)
  | _ => scanDecimal 1 (first :: rest)

def quote : Char := Char.ofNat 39

/-- A quoted text; a quote that is not closed is an unexpected character. -/
def scanString (rest : List Char) : Option Token × List Char :=
  match rest.dropWhile (· ≠ quote) with
  | _ :: behind => (some (.valueString (String.ofList (rest.takeWhile (· ≠ quote)))), behind)
  | [] => (none, rest)

/-- Blanks, line ends and unexpected characters carry no token. -/
def scanOther (first : Char) (rest : List Char) : Option Token × List Char :=
  match first, rest with
  | '/', '*' :: behind => (none, skipComment behind)
  | '/', '/' :: behind => (none, behind.dropWhile (· ≠ '\n'))
  | '>', '=' :: behind => (some .geq, behind)
  | '<', '=' :: behind => (some .leq, behind)
  | '!', '=' :: behind => (some .neq, behind)
  | '=', '=' :: behind => (some .equ, behind)
  | '&', '&' :: '&' :: behind => (some .andAndAnd, behind)
  | '_', '_' :: 'H' :: 'I' :: 'T' :: '_' :: '_' :: behind => (some (.keyword .hit), behind)
  | '_', '_' :: 'M' :: 'I' :: 'S' :: 'S' :: '_' :: '_' :: behind => (some (.keyword .miss), behind)
  | '+', digit :: behind =>
      if digit.isDigit then scanDecimal 1 (digit :: behind) else (some (.op .plus), digit :: behind)
  | '-', digit :: behind =>
      if digit.isDigit then scanDecimal (-1) (digit :: behind) else (some (.op .minus), digit :: behind)
  | first, rest => ((SingleOp.ofChar first).map .op, rest)

def scan (first : Char) (rest : List Char) : Option Token × List Char :=
  if first.isAlpha then scanWord (first :: rest)
  else if first.isDigit then scanNumber first rest
  else if first = quote then scanString rest
  else scanOther first rest

theorem length_dropWhile_cons (p : Char → Bool) {first : Char} (holds : p first = true) (rest : List Char) :
    ((first :: rest).dropWhile p).length ≤ rest.length := by
  rw [List.dropWhile_cons_of_pos holds]
  exact List.length_dropWhile_le p rest

theorem length_skipComment (text : List Char) : (skipComment text).length ≤ text.length := by
  fun_induction skipComment text with
  | case1 => exact Nat.le_refl _
  | case2 rest => exact Nat.le_add_right _ 2
  | case3 _ rest _ ih => exact Nat.le_succ_of_le ih

theorem length_scanNumber {first : Char} (digit : first.isDigit = true) (rest : List Char) :
    (scanNumber first rest).2.length ≤ rest.length := by
  have decimal := length_dropWhile_cons Char.isDigit digit rest
  have based (p : Char → Bool) (digits : List Char) : (digits.dropWhile p).length ≤ digits.length + 1 :=
    Nat.le_succ_of_le (List.length_dropWhile_le p digits)
  unfold scanNumber
  split
  · split
    · exact based ..
    · exact decimal
  · split
    · exact based ..
    · exact decimal
  · exact decimal

theorem length_scanString (rest : List Char) : (scanString rest).2.length ≤ rest.length := by
  have shorter := List.length_dropWhile_le (· ≠ quote) rest
  unfold scanString
  split
  · rename_i behind closed
    rw [closed] at shorter
    exact Nat.le_of_succ_le shorter
  · exact Nat.le_refl _

theorem length_scanOther (first : Char) (rest : List Char) :
    (scanOther first rest).2.length ≤ rest.length := by
  have comment (behind : List Char) := Nat.le_succ_of_le (length_skipComment behind)
  have line (behind : List Char) := Nat.le_succ_of_le (List.length_dropWhile_le (· ≠ '\n') behind)
  have decimal (digit : Char) (behind : List Char) := List.length_dropWhile_le Char.isDigit (digit :: behind)
  unfold scanOther
  split
  case h_1 behind => exact comment behind
  case h_2 behind => exact line behind
  case h_10 digit behind =>
    split
    · exact decimal digit behind
    · exact Nat.le_refl _
  case h_11 digit behind =>
    split
    · exact decimal digit behind
    · exact Nat.le_refl _
  all_goals simp only [List.length_cons]; omega

def scanner : Scanner Char Token where
  scan := scan
  shorter first rest := by
    unfold scan
    split
    case isTrue alpha => exact length_dropWhile_cons identifierChar (by simp [identifierChar, alpha]) rest
    case isFalse =>
      split
      case isTrue digit => exact length_scanNumber digit rest
      case isFalse =>
        split
        · exact length_scanString rest
        · exact length_scanOther first rest

/-- The tokens of a file. -/
def lex (text : List Char) : List Token := scanner.tokens text ++ [.eof]

theorem lex_cons (first : Char) (rest : List Char) :
    lex (first :: rest) = (scan first rest).1.toList ++ lex (scan first rest).2 := by
  rw [lex, scanner.tokens_cons, List.append_assoc]
  rfl

/-- A word, closed by a character that does not continue it. -/
structure Word (word : List Char) : Prop where
  alpha : ∃ c rest, word = c :: rest ∧ c.isAlpha = true
  chars : ∀ c ∈ word, identifierChar c = true

def wordToken (word : List Char) : Token :=
  match Keyword.ofWord word with
  | some keyword => .keyword keyword
  | none => .identifier (String.ofList word)

/-- A word that is no keyword. -/
structure Identifier (name : String) : Prop where
  word : Word name.toList
  free : Keyword.ofWord name.toList = none

theorem wordToken_identifier {name : String} (identifier : Identifier name) :
    wordToken name.toList = .identifier name := by
  rw [wordToken, identifier.free, String.ofList_toList]

/-- What the lexer guarantees of a token. -/
def Valid : Token → Prop
  | .identifier name => Identifier name
  | .valueInt value => -2 ^ 31 ≤ value ∧ value < 2 ^ 31
  | _ => True

theorem strtol_valid (value : Int) : Valid (.valueInt (strtol value)) := by
  unfold Valid strtol
  omega

theorem scanWord_valid {first : Char} (alpha : first.isAlpha = true) (rest : List Char) {token : Token}
    (scanned : (scanWord (first :: rest)).1 = some token) : Valid token := by
  have chars : identifierChar first = true := by simp [identifierChar, alpha]
  have isWord : Word ((first :: rest).takeWhile identifierChar) := by
    refine ⟨⟨first, rest.takeWhile identifierChar, List.takeWhile_cons_of_pos chars, alpha⟩, ?_⟩
    intro c member
    exact List.mem_takeWhile_imp member
  obtain rfl := Option.some.inj scanned
  cases keyword : Keyword.ofWord ((first :: rest).takeWhile identifierChar) with
  | some keyword => trivial
  | none => exact ⟨by rwa [String.toList_ofList], by rwa [String.toList_ofList]⟩

theorem scanNumber_valid (first : Char) (rest : List Char) {token : Token}
    (scanned : (scanNumber first rest).1 = some token) : Valid token := by
  unfold scanNumber scanBase scanDecimal at scanned
  split at scanned
  · split at scanned <;> exact Option.some.inj scanned ▸ strtol_valid _
  · split at scanned <;> exact Option.some.inj scanned ▸ strtol_valid _
  · exact Option.some.inj scanned ▸ strtol_valid _

theorem scanString_valid (rest : List Char) {token : Token} (scanned : (scanString rest).1 = some token) :
    Valid token := by
  unfold scanString at scanned
  split at scanned
  · exact Option.some.inj scanned ▸ trivial
  · cases scanned

theorem scanOther_valid (first : Char) (rest : List Char) {token : Token}
    (scanned : (scanOther first rest).1 = some token) : Valid token := by
  unfold scanOther scanDecimal at scanned
  split at scanned
  case h_10 | h_11 =>
    split at scanned
    · exact Option.some.inj scanned ▸ strtol_valid _
    · exact Option.some.inj scanned ▸ trivial
  case h_12 =>
    obtain ⟨op, _, rfl⟩ := Option.map_eq_some_iff.mp scanned
    trivial
  all_goals
    cases scanned
    try trivial

theorem lex_valid (text : List Char) : ∀ token ∈ lex text, Valid token := by
  intro token member
  rcases List.mem_append.mp member with scanned | last
  · refine scanner.forall_tokens ?_ text token scanned
    intro first rest token scanned
    change (scan first rest).1 = some token at scanned
    unfold scan at scanned
    split at scanned
    case isTrue alpha => exact scanWord_valid alpha rest scanned
    case isFalse =>
      split at scanned
      · exact scanNumber_valid first rest scanned
      · split at scanned
        · exact scanString_valid rest scanned
        · exact scanOther_valid first rest scanned
  · rw [List.mem_singleton.mp last]
    trivial

theorem lex_word {word rest : List Char} (isWord : Word word)
    (stop : ∀ c ∈ rest.head?, identifierChar c = false) :
    lex (word ++ rest) = wordToken word :: lex rest := by
  obtain ⟨taken, dropped⟩ := takeWhile_run isWord.chars stop
  obtain ⟨c, behind, rfl, alpha⟩ := isWord.alpha
  rw [List.cons_append] at taken dropped ⊢
  rw [lex_cons, scan, if_pos alpha, scanWord, taken, dropped]
  rfl

theorem lex_hex {digits rest : List Char} (nonempty : digits ≠ []) (hex : ∀ c ∈ digits, hexDigit c = true)
    (stop : ∀ c ∈ rest.head?, hexDigit c = false) :
    lex ('0' :: 'x' :: digits ++ rest) = .valueInt (strtol (digitsValue 16 digits)) :: lex rest := by
  obtain ⟨taken, dropped⟩ := takeWhile_run hex stop
  have number : scan '0' ('x' :: (digits ++ rest)) = scanBase 16 hexDigit (digits ++ rest) := by
    change scanNumber '0' ('x' :: (digits ++ rest)) = _
    simp only [scanNumber, taken]
    rw [if_pos ⟨trivial, nonempty⟩]
  rw [List.cons_append, List.cons_append, lex_cons, number, scanBase, taken, dropped]
  rfl

theorem lex_blank (rest : List Char) : lex (' ' :: rest) = lex rest := lex_cons ' ' rest

theorem lex_lparen (rest : List Char) : lex ('(' :: rest) = .op .lparen :: lex rest := lex_cons '(' rest

theorem lex_rparen (rest : List Char) : lex (')' :: rest) = .op .rparen :: lex rest := lex_cons ')' rest

theorem lex_dot (rest : List Char) : lex ('.' :: rest) = .op .dot :: lex rest := lex_cons '.' rest

theorem lex_semicolon (rest : List Char) : lex (';' :: rest) = .op .semicolon :: lex rest := lex_cons ';' rest

end Lexer

end Ipbm.Compiler
