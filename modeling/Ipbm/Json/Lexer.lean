import Ipbm.Lib.Scanner
import Mathlib.Algebra.Ring.Int.Defs
import Mathlib.Algebra.Ring.Nat

/-! The lexer of the JSON library (class `lexer` of `json.hpp`), on characters
instead of bytes. The value of a number that is no integer of 64 bits is left out. -/

set_option autoImplicit false

namespace Ipbm.Json
open Lib

inductive Token where
  | beginArray | endArray | beginObject | endObject | nameSeparator | valueSeparator
  | literalTrue | literalFalse | literalNull
  | valueString (text : String)
  | valueInteger (value : Int)
  | valueFloat
  | endOfInput | parseError
  deriving DecidableEq, Repr

namespace Lexer

def blank (c : Char) : Bool := c = ' ' || c = '\t' || c = '\n' || c = '\r'

/-! ### Strings -/

def hexValue (c : Char) : Option Nat :=
  if '0' ≤ c ∧ c ≤ '9' then some (c.toNat - 48)
  else if 'A' ≤ c ∧ c ≤ 'F' then some (c.toNat - 55)
  else if 'a' ≤ c ∧ c ≤ 'f' then some (c.toNat - 87)
  else none

/-- Four hexadecimal digits. -/
def getCodepoint : List Char → Option (Nat × List Char)
  | first :: second :: third :: fourth :: rest => do
      let codepoint :=
        (← hexValue first) * 4096 + (← hexValue second) * 256 + (← hexValue third) * 16 + (← hexValue fourth)
      return (codepoint, rest)
  | _ => none

/-- A high surrogate needs a low one behind it, and a low one a high one before it. -/
def scanUnicode (text : List Char) : Option (Char × List Char) := do
  let (high, rest) ← getCodepoint text
  if 0xD800 ≤ high ∧ high ≤ 0xDBFF then
    match rest with
    | '\\' :: 'u' :: rest =>
        let (low, rest) ← getCodepoint rest
        if 0xDC00 ≤ low ∧ low ≤ 0xDFFF then some (Char.ofNat (high * 1024 + low - 0x35FDC00), rest) else none
    | _ => none
  else if 0xDC00 ≤ high ∧ high ≤ 0xDFFF then
    none
  else
    some (Char.ofNat high, rest)

/-- What stands behind a backslash. -/
def scanEscape : List Char → Option (Char × List Char)
  | '\"' :: rest => some ('\"', rest)
  | '\\' :: rest => some ('\\', rest)
  | '/' :: rest => some ('/', rest)
  | 'b' :: rest => some ('\x08', rest)
  | 'f' :: rest => some ('\x0c', rest)
  | 'n' :: rest => some ('\n', rest)
  | 'r' :: rest => some ('\r', rest)
  | 't' :: rest => some ('\t', rest)
  | 'u' :: rest => scanUnicode rest
  | _ => none

/-- The text behind an opening quote, up to the closing one. A control character ends it with an error. -/
def scanString : Nat → List Char → Option (List Char × List Char)
  | _, [] => none
  | 0, _ :: _ => none
  | fuel + 1, c :: rest =>
      if c = '\"' then
        some ([], rest)
      else if c = '\\' then do
        let (escaped, rest) ← scanEscape rest
        let (text, rest) ← scanString fuel rest
        return (escaped :: text, rest)
      else if c.toNat < 0x20 then
        none
      else do
        let (text, rest) ← scanString fuel rest
        return (c :: text, rest)

/-! ### Numbers -/

/-- `strtoll` and `strtoull` fail beyond 64 bits, and the number is read as a floating one then. -/
def integerToken (negative : Bool) (digits : List Char) : Token :=
  let value := Nat.ofDigitChars 10 digits 0
  if negative then
    if value ≤ 2 ^ 63 then .valueInteger (-value) else .valueFloat
  else
    if value < 2 ^ 64 then .valueInteger value else .valueFloat

/-- The states that want a digit and then take all that follow. -/
def scanDigits (text : List Char) : Option (List Char × List Char) :=
  if text.takeWhile Char.isDigit = [] then none
  else some (text.takeWhile Char.isDigit, text.dropWhile Char.isDigit)

/-- Behind the letter of an exponent. -/
def scanExponent (text : List Char) : Token × List Char :=
  let digits := match text with
    | '+' :: rest => rest
    | '-' :: rest => rest
    | _ => text
  match scanDigits digits with
  | none => (.parseError, text)
  | some (_, rest) => (.valueFloat, rest)

/-- Behind a decimal point. -/
def scanFraction (text : List Char) : Token × List Char :=
  match scanDigits text with
  | none => (.parseError, text)
  | some (_, 'e' :: rest) => scanExponent rest
  | some (_, 'E' :: rest) => scanExponent rest
  | some (_, rest) => (.valueFloat, rest)

/-- Behind the integer part. -/
def scanTail (negative : Bool) (digits : List Char) (text : List Char) : Token × List Char :=
  match text with
  | '.' :: rest => scanFraction rest
  | 'e' :: rest => scanExponent rest
  | 'E' :: rest => scanExponent rest
  | _ => (integerToken negative digits, text)

/-- A number starts with a zero only if that is its whole integer part. -/
def scanNumber (negative : Bool) (text : List Char) : Token × List Char :=
  match text with
  | '0' :: rest => scanTail negative ['0'] rest
  | _ =>
      match scanDigits text with
      | none => (.parseError, text)
      | some (digits, rest) => scanTail negative digits rest

/-! ### Tokens -/

def scanLiteral (literal : List Char) (token : Token) (text : List Char) : Token × List Char :=
  if literal.isPrefixOf text then (token, text.drop literal.length) else (.parseError, text)

def structural : Char → Option Token
  | '[' => some .beginArray
  | ']' => some .endArray
  | '{' => some .beginObject
  | '}' => some .endObject
  | ':' => some .nameSeparator
  | ',' => some .valueSeparator
  | '\x00' => some .endOfInput
  | _ => none

def scanToken (first : Char) (rest : List Char) : Token × List Char :=
  match structural first with
  | some token => (token, rest)
  | none =>
      if first = 't' then scanLiteral ['r', 'u', 'e'] .literalTrue rest
      else if first = 'f' then scanLiteral ['a', 'l', 's', 'e'] .literalFalse rest
      else if first = 'n' then scanLiteral ['u', 'l', 'l'] .literalNull rest
      else if first = '\"' then
        match scanString rest.length rest with
        | none => (.parseError, rest)
        | some (text, rest) => (.valueString (String.ofList text), rest)
      else if first = '-' then scanNumber true rest
      else if first.isDigit then scanNumber false (first :: rest)
      else (.parseError, rest)

def scan (first : Char) (rest : List Char) : Option Token × List Char :=
  if blank first then (none, rest) else (scanToken first rest).map some id

/-! ### What is left of the text -/

private theorem length_getCodepoint {text rest : List Char} {codepoint : Nat}
    (read : getCodepoint text = some (codepoint, rest)) : rest.length ≤ text.length := by
  unfold getCodepoint at read
  split at read
  · simp only [Option.bind_eq_bind, Option.bind_eq_some_iff, Option.pure_def, Option.some.injEq,
      Prod.mk.injEq] at read
    obtain ⟨_, _, _, _, _, _, _, _, _, rfl⟩ := read
    simp only [List.length_cons]
    omega
  · cases read

private theorem length_scanUnicode {text rest : List Char} {c : Char}
    (read : scanUnicode text = some (c, rest)) : rest.length ≤ text.length := by
  obtain ⟨⟨high, behind⟩, first, read⟩ := Option.bind_eq_some_iff.mp read
  have shorter := length_getCodepoint first
  dsimp only at read
  split at read
  · split at read
    · next later =>
        obtain ⟨⟨low, last⟩, second, read⟩ := Option.bind_eq_some_iff.mp read
        have shorter' := length_getCodepoint second
        dsimp only at read
        split at read
        · simp only [Option.some.injEq, Prod.mk.injEq] at read
          rw [← read.2]
          simp only [List.length_cons] at shorter
          omega
        · cases read
    · cases read
  · split at read
    · cases read
    · cases read
      exact shorter

private theorem length_scanEscape {text rest : List Char} {c : Char}
    (read : scanEscape text = some (c, rest)) : rest.length ≤ text.length := by
  unfold scanEscape at read
  split at read
  case h_9 => exact (length_scanUnicode read).trans (Nat.le_succ _)
  case h_10 => cases read
  all_goals
    simp only [Option.some.injEq, Prod.mk.injEq] at read
    rw [← read.2]
    exact Nat.le_succ _

private theorem length_scanString {fuel : Nat} {text word rest : List Char}
    (read : scanString fuel text = some (word, rest)) : rest.length ≤ text.length := by
  induction fuel generalizing text word with
  | zero => cases text <;> cases read
  | succ fuel ih =>
      cases text with
      | nil => cases read
      | cons c text =>
          rw [scanString] at read
          split at read
          · cases read
            exact Nat.le_succ _
          · split at read
            · obtain ⟨⟨escaped, behind⟩, first, read⟩ := Option.bind_eq_some_iff.mp read
              obtain ⟨⟨later, last⟩, second, read⟩ := Option.bind_eq_some_iff.mp read
              cases read
              exact ((ih second).trans (length_scanEscape first)).trans (Nat.le_succ _)
            · split at read
              · cases read
              · obtain ⟨⟨later, last⟩, second, read⟩ := Option.bind_eq_some_iff.mp read
                cases read
                exact (ih second).trans (Nat.le_succ _)

private theorem length_scanDigits {text digits rest : List Char}
    (read : scanDigits text = some (digits, rest)) : rest.length ≤ text.length := by
  unfold scanDigits at read
  split at read
  · cases read
  · cases read
    exact (List.dropWhile_suffix _).length_le

private theorem length_scanExponent (text : List Char) : (scanExponent text).2.length ≤ text.length := by
  unfold scanExponent
  dsimp only
  split
  · exact le_rfl
  · next digits rest read =>
      have shorter := length_scanDigits read
      split at shorter
      · exact shorter.trans (Nat.le_succ _)
      · exact shorter.trans (Nat.le_succ _)
      · exact shorter

private theorem length_scanFraction (text : List Char) : (scanFraction text).2.length ≤ text.length := by
  unfold scanFraction
  split
  · exact le_rfl
  · next read => exact ((length_scanExponent _).trans (Nat.le_succ _)).trans (length_scanDigits read)
  · next read => exact ((length_scanExponent _).trans (Nat.le_succ _)).trans (length_scanDigits read)
  · next read => exact length_scanDigits read

private theorem length_scanTail (negative : Bool) (digits text : List Char) :
    (scanTail negative digits text).2.length ≤ text.length := by
  unfold scanTail
  split
  · exact (length_scanFraction _).trans (Nat.le_succ _)
  · exact (length_scanExponent _).trans (Nat.le_succ _)
  · exact (length_scanExponent _).trans (Nat.le_succ _)
  · exact le_rfl

private theorem length_scanNumber (negative : Bool) (text : List Char) :
    (scanNumber negative text).2.length ≤ text.length := by
  unfold scanNumber
  split
  · exact (length_scanTail _ _ _).trans (Nat.le_succ _)
  · split
    · exact le_rfl
    · next read => exact (length_scanTail _ _ _).trans (length_scanDigits read)

private theorem length_scanNumber_digit {first : Char} (digit : first.isDigit = true) (negative : Bool)
    (rest : List Char) : (scanNumber negative (first :: rest)).2.length ≤ rest.length := by
  unfold scanNumber
  split
  · next same =>
      cases same
      exact length_scanTail _ _ _
  · split
    · next nothing => simp [scanDigits, digit] at nothing
    · next digits behind read =>
        rw [scanDigits, List.takeWhile_cons_of_pos digit, List.dropWhile_cons_of_pos digit,
          if_neg (List.cons_ne_nil _ _)] at read
        cases read
        exact (length_scanTail _ _ _).trans (List.dropWhile_suffix _).length_le

private theorem length_scanLiteral (literal : List Char) (token : Token) (text : List Char) :
    (scanLiteral literal token text).2.length ≤ text.length := by
  unfold scanLiteral
  split
  · exact (List.length_drop ..).le.trans (Nat.sub_le _ _)
  · exact le_rfl

theorem length_scan (first : Char) (rest : List Char) : (scan first rest).2.length ≤ rest.length := by
  unfold scan
  split
  · exact le_rfl
  · change (scanToken first rest).2.length ≤ _
    unfold scanToken
    split
    · exact le_rfl
    · split
      · exact length_scanLiteral _ _ _
      · split
        · exact length_scanLiteral _ _ _
        · split
          · exact length_scanLiteral _ _ _
          · split
            · split
              · exact le_rfl
              · next read => exact length_scanString read
            · split
              · exact length_scanNumber _ _
              · split
                · next digit => exact length_scanNumber_digit digit _ _
                · exact le_rfl

def scanner : Scanner Char Token := ⟨scan, length_scan⟩

end Lexer

end Ipbm.Json
