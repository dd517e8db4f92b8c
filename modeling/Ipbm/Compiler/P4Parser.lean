import Ipbm.Compiler.ExpressionText
import Ipbm.Compiler.HeaderManager
import Ipbm.Lib.Extraction

/-! Parsers of P4 (`p4r/p4_parser.h`): how they are printed, and the path they take
through a packet. -/

set_option autoImplicit false

namespace Ipbm.Compiler.P4r
open Lib

structure ParserOperation where
  parameterName : String
  deriving DecidableEq, Repr

/-- A missing mask or state is the empty text. -/
structure Transition where
  value : String
  mask : String
  nextState : String
  deriving DecidableEq, Repr

structure TransitionKey where
  value : List String
  deriving DecidableEq, Repr

structure P4ParseState where
  name : String
  parserOps : List ParserOperation
  transitions : List Transition
  transitionKey : List TransitionKey
  deriving DecidableEq, Repr

structure P4Parser where
  name : String
  initState : String
  parseStates : List P4ParseState
  deriving DecidableEq, Repr

/-! ### The text -/

def Transition.target (transition : Transition) : List Char :=
  if transition.nextState = "" then "accept".toList else transition.nextState.toList

def Transition.output (transition : Transition) : List Char :=
  "\t\t\t".toList ++ transition.value.toList ++
    (if transition.mask = "" then [] else " &&& ".toList ++ transition.mask.toList) ++
    ": ".toList ++ transition.target ++ ";\n".toList

def TransitionKey.output (key : TransitionKey) : List Char :=
  "hdr".toList ++ key.value.flatMap fun name => '.' :: name.toList

def ParserOperation.output (op : ParserOperation) : List Char :=
  "\t\tpacket.extract(hdr.".toList ++ op.parameterName.toList ++ ");\n".toList

def P4ParseState.transitionOutput (state : P4ParseState) : List Char :=
  if state.transitionKey = [] then
    "\t\ttransition ".toList ++ state.transitions.flatMap fun transition => transition.target ++ ";\n".toList
  else
    "\t\ttransition select(".toList ++ List.intercalate ", ".toList
      (state.transitionKey.map TransitionKey.output) ++
      ") \x7b\n".toList ++ state.transitions.flatMap Transition.output ++ "\t\t\x7d\n".toList

def P4ParseState.output (state : P4ParseState) : List Char :=
  "\tstate ".toList ++ state.name.toList ++ " \x7b\n".toList ++
    state.parserOps.flatMap ParserOperation.output ++
    state.transitionOutput ++ "\t\x7d\n".toList

/-- The initial state is not printed. -/
def P4Parser.output (parser : P4Parser) : List Char :=
  "parser ".toList ++ (if parser.name = "parser" then "MyParser".toList else parser.name.toList) ++
    "(packet_in packet) \x7b\n".toList ++ parser.parseStates.flatMap P4ParseState.output ++ "\x7d\n".toList

/-! ### The path -/

/-- The width of a field in a key: `unit` is 8 where fields are filled up to whole bytes, as in the
files of bmv2, and 1 where they are not. -/
def padded (unit width : Nat) : Nat := (width + unit - 1) / unit * unit

variable (manager : HeaderManager) (unit : Nat)

/-- The place of a field of the key. -/
def TransitionKey.field (key : TransitionKey) : Option (String × HeaderField) :=
  match key.value with
  | [headerName, fieldName] => (manager.lookupName headerName fieldName).map (headerName, ·)
  | _ => none

def P4ParseState.fields (state : P4ParseState) : Option (List (String × HeaderField)) :=
  state.transitionKey.mapM (TransitionKey.field manager)

def keyWidth (fields : List (String × HeaderField)) : Nat :=
  (fields.map fun field => padded unit field.2.fieldLength.toNat).sum

/-- The values of the fields, one behind the other. -/
def keyValue (view : View String) (fields : List (String × HeaderField)) : Nat :=
  fields.foldl (fun key (name, field) =>
    key * 2 ^ padded unit field.fieldLength.toNat +
      view.value name field.fieldInternalOffset.toNat field.fieldLength.toNat) 0

/-- A default transition matches every key. -/
def Transition.matches (transition : Transition) (key : Nat) : Bool :=
  if transition.value = "default" then
    true
  else
    match hexValue transition.value with
    | none => false
    | some value =>
        if transition.mask = "" then decide (key = value)
        else match hexValue transition.mask with
          | none => false
          | some mask => decide (key &&& mask = value &&& mask)

namespace P4Parser

variable (parser : P4Parser)

def state (name : String) : Option P4ParseState := parser.parseStates.find? fun state => state.name = name

/-- A state begins with the header it extracts. -/
def enter (name : String) : Option (Move String (Option P4ParseState)) := do
  let state ← parser.state name
  match state.parserOps with
  | [op] => some (.extract op.parameterName (some state))
  | _ => none

/-- Behind its header a state takes the first transition that matches. -/
def move : Option P4ParseState → View String → Option (Move String (Option P4ParseState))
  | none, _ => parser.enter parser.initState
  | some state, view => do
      let fields ← state.fields manager
      let transition ← state.transitions.find? fun transition =>
        transition.matches (keyValue unit view fields)
      if transition.nextState = "" then some .accept else parser.enter transition.nextState

/-- The parser from its initial state on. -/
def extractor : Extractor String (Option P4ParseState) (View String) where
  move := parser.move manager unit
  take header view := (manager.getHeader header).bind fun declared => view.take header declared.offset.toNat

end P4Parser

end Ipbm.Compiler.P4r
