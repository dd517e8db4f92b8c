import Ipbm.Compiler.Grammar
import Ipbm.Compiler.HeaderManager

/-! Parsers in the grammar (`yacc.y`, from `parser_def` to `key_def`). One token tells
the productions apart here too. -/

set_option autoImplicit false

namespace Ipbm.Compiler.Grammar
open Lexer

def expect (token : Token) : List Token → Option (List Token)
  | [] => none
  | first :: rest => if first = token then some rest else none

def parseName : List Token → Option (String × List Token)
  | .identifier name :: rest => some (name, rest)
  | _ => none

/-- The production `key_def`. -/
def parseKey : List Token → Option (Key × List Token)
  | .valueInt key :: .andAndAnd :: .valueInt mask :: rest => some (.ternary key mask, rest)
  | .valueInt _ :: .andAndAnd :: _ => none
  | .valueInt key :: .divDivDiv :: .valueInt prelen :: rest => some (.lpm key prelen, rest)
  | .valueInt _ :: .divDivDiv :: _ => none
  | .valueInt key :: rest => some (.exact key, rest)
  | .keyword .true :: rest => some (.exact 1, rest)
  | .keyword .false :: rest => some (.exact 0, rest)
  | .keyword .default :: rest => some (.default, rest)
  | .op .star :: rest => some (.default, rest)
  | _ => none

/-- A state or `accept`, behind a key. -/
def parseTarget (key : Key) : List Token → Option (TransitionEntry × List Token)
  | .identifier name :: rest => some ({ key, next := name }, rest)
  | .keyword .accept :: rest => some ({ key, next := "accept", acceptDrop := 0 }, rest)
  | _ => none

/-- The production `transition_entry`. -/
def parseEntry (tokens : List Token) : Option (TransitionEntry × List Token) := do
  let (key, tokens) ← parseKey tokens
  let (entry, tokens) ← parseTarget key (← expect (.op .colon) tokens)
  return (entry, ← expect (.op .semicolon) tokens)

/-- Entries up to the brace that closes them, with fuel for their number. -/
def parseEntries : Nat → List Token → Option (List TransitionEntry × List Token)
  | _, .op .rbrace :: rest => some ([], rest)
  | 0, _ => none
  | fuel + 1, tokens => do
      let (entry, tokens) ← parseEntry tokens
      let (entries, tokens) ← parseEntries fuel tokens
      return (entry :: entries, tokens)

/-- The production `field`. -/
def parseField : List Token → Option (LValue × List Token)
  | .identifier first :: .op .dot :: .identifier second :: .op .dot :: .identifier third :: rest =>
      some (.field first second third, rest)
  | .identifier first :: .op .dot :: .identifier second :: .op .dot ::
      .keyword .isValid :: .op .lparen :: .op .rparen :: rest => some (.field first second "isValid", rest)
  | _ => none

/-- What follows a field, up to the parenthesis. -/
def parseMoreFields : Nat → List Token → Option (List LValue × List Token)
  | _, .op .rparen :: rest => some ([], rest)
  | fuel + 1, .op .comma :: tokens => do
      let (field, tokens) ← parseField tokens
      let (fields, tokens) ← parseMoreFields fuel tokens
      return (field :: fields, tokens)
  | _, _ => none

/-- The production `fields` with the parenthesis behind it. The first field may be missing. -/
def parseFields (tokens : List Token) : Option (List LValue × List Token) :=
  match parseField tokens with
  | some (field, rest) => (parseMoreFields rest.length rest).map fun (fields, rest) => (field :: fields, rest)
  | none => parseMoreFields tokens.length tokens

/-- The production `transition_stmt`. -/
def parseTransition (tokens : List Token) : Option (Transition × List Token) := do
  match ← expect (.keyword .transition) tokens with
  | .keyword .select :: tokens =>
      let (targets, tokens) ← parseFields (← expect (.op .lparen) tokens)
      let tokens ← expect (.op .lbrace) tokens
      let (entries, tokens) ← parseEntries tokens.length tokens
      return (.select targets entries, tokens)
  | tokens =>
      let (entry, tokens) ← parseTarget .default tokens
      return (.direct entry, ← expect (.op .semicolon) tokens)

/-- The production `state_def`, behind `state`. -/
def parseState (tokens : List Token) : Option (StateDef × List Token) := do
  let (name, tokens) ← parseName tokens
  let tokens ← expect (.op .lbrace) tokens
  let tokens ← expect (.keyword .packet) tokens
  let tokens ← expect (.op .dot) tokens
  let tokens ← expect (.keyword .extract) tokens
  let (instanceName, tokens) ← parseName (← expect (.op .lparen) tokens)
  let (memberName, tokens) ← parseName (← expect (.op .dot) tokens)
  let tokens ← expect (.op .rparen) tokens
  let tokens ← expect (.op .semicolon) tokens
  let (transition, tokens) ← parseTransition tokens
  return (⟨name, instanceName, memberName, transition⟩, ← expect (.op .rbrace) tokens)

/-- States up to the brace that closes the parser. -/
def parseStates : Nat → List Token → Option (List StateDef × List Token)
  | _, .op .rbrace :: rest => some ([], rest)
  | fuel + 1, .keyword .state :: tokens => do
      let (state, tokens) ← parseState tokens
      let (states, tokens) ← parseStates fuel tokens
      return (state :: states, tokens)
  | _, _ => none

/-- The production `parser_def`. -/
def parseParser (tokens : List Token) : Option (List StateDef × List Token) := do
  let (_, tokens) ← parseName (← expect (.keyword .parser) tokens)
  let tokens ← expect (.op .lparen) tokens
  let tokens ← expect (.keyword .packetIn) tokens
  let tokens ← expect (.keyword .packet) tokens
  let tokens ← expect (.op .rparen) tokens
  let tokens ← expect (.op .lbrace) tokens
  parseStates tokens.length tokens

end Ipbm.Compiler.Grammar
