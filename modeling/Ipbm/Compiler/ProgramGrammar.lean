import Ipbm.Compiler.ParserGrammar
import Ipbm.Lib.Productions

/-! The grammar of rP4 (`yacc.y`), production by production, and the tree that
`rp4_ast.h` keeps of a program. The name of a parser is not kept. -/

set_option autoImplicit false

namespace Ipbm.Compiler
open Lib Dataplane

/-! ### The tree -/

inductive Rp4Type where
  | bit (length : Int)
  | named (name : String)
  deriving DecidableEq, Repr

structure Rp4FieldDef where
  type : Rp4Type
  name : String
  deriving DecidableEq, Repr

structure Rp4HeaderDef where
  name : String
  fields : List Rp4FieldDef
  deriving DecidableEq, Repr

structure Rp4StructDef where
  structName : String
  fields : List Rp4FieldDef
  name : String
  isHeader : Bool := false
  deriving DecidableEq, Repr

structure Rp4Expression where
  lvalue : LValue
  rvalue : Rp4Operation
  deriving DecidableEq, Repr

structure Rp4ActionDef where
  name : String
  parameters : List Rp4FieldDef
  expressions : List Rp4Expression
  isNoaction : Bool := false
  deriving DecidableEq, Repr

structure Rp4KeyEntry where
  lvalue : LValue
  matchType : MatchType
  deriving DecidableEq, Repr

structure Rp4MatchEntry where
  keys : List Key
  actionName : String
  deriving DecidableEq, Repr

inductive Rp4TableOptionalStmt where
  | size (size : Int)
  | entries (entries : List Rp4MatchEntry)
  | defaultAction (actionName : String)
  | valueWidth (width : Int)
  deriving DecidableEq, Repr

structure Rp4TableDef where
  name : String
  keyDef : List Rp4KeyEntry
  optionalStmts : List Rp4TableOptionalStmt
  deriving DecidableEq, Repr

inductive Rp4SwitchValue where
  | table (name : String)
  | stage (name : String) (toNone : Bool := false)
  | action (name : String)
  deriving DecidableEq, Repr

structure Rp4SwitchEntry where
  key : Key
  value : Rp4SwitchValue
  deriving DecidableEq, Repr

structure Rp4StageMatcher where
  ops : List Rp4Operation
  switchEntries : List Rp4SwitchEntry
  deriving DecidableEq, Repr

structure Rp4StageDef where
  name : String
  parser : List String
  matcher : Rp4StageMatcher
  executor : List ExecutorEntry
  deriving DecidableEq, Repr

structure Rp4Pipeline where
  name : String
  stageDefs : List Rp4StageDef
  deriving DecidableEq, Repr

structure Rp4Ast where
  headerDefs : List Rp4HeaderDef
  structDefs : List Rp4StructDef
  parserDef : List StateDef
  actionsDef : List Rp4ActionDef
  tablesDef : List Rp4TableDef
  ingressDef : Rp4Pipeline
  egressDef : Rp4Pipeline

namespace Grammar
open Production

/-! ### Tokens -/

def keyword (keyword : Keyword) : Production Token Unit := token (.keyword keyword)

def symbol (symbol : SingleOp) : Production Token Unit := token (.op symbol)

def identifier : Production Token String :=
  terminal fun
    | .identifier name => some name
    | _ => none

def valueInt : Production Token Int :=
  terminal fun
    | .valueInt value => some value
    | _ => none

/-- An identifier or `NoAction`. -/
def actionName : Production Token String :=
  terminal fun
    | .identifier name => some name
    | .keyword .noAction => some "NoAction"
    | _ => none

def startsIdentifier : Token → Bool
  | .identifier _ => true
  | _ => false

/-! ### Headers and structs -/

def typeDef : Production Token Rp4Type :=
  choice (· = .keyword .bit)
    (do
      keyword .bit
      symbol .lt
      let length ← valueInt
      symbol .gt
      return .bit length)
    (do
      let name ← identifier
      return .named name)

def startsType (token : Token) : Bool := token = .keyword .bit || startsIdentifier token

def fieldDef : Production Token Rp4FieldDef := do
  let type ← typeDef
  let name ← identifier
  return { type, name }

def fieldDefs : Production Token (List Rp4FieldDef) :=
  many startsType do
    let fieldDef ← fieldDef
    symbol .semicolon
    return fieldDef

def headerDef : Production Token Rp4HeaderDef := do
  keyword .header
  let name ← identifier
  symbol .lbrace
  let fields ← fieldDefs
  symbol .rbrace
  return { name, fields }

def headerDefs : Production Token (List Rp4HeaderDef) := many (· = .keyword .header) headerDef

/-- What follows the name of a struct. -/
def structBody (structName : String) (isHeader : Bool) : Production Token Rp4StructDef := do
  symbol .lbrace
  let fields ← fieldDefs
  symbol .rbrace
  let name ← identifier
  symbol .semicolon
  return { structName, fields, name, isHeader }

def structDef : Production Token Rp4StructDef := do
  keyword .struct
  choice (· = .keyword .headers)
    (do
      keyword .headers
      structBody "headers" true)
    (do
      let structName ← identifier
      structBody structName false)

def structDefs : Production Token (List Rp4StructDef) := many (· = .keyword .struct) structDef

/-! ### The parser -/

inductive DerivesKey : Key → List Token → Prop where
  | exact (key : Int) : DerivesKey (.exact key) [.valueInt key]
  | true : DerivesKey (.exact 1) [.keyword .true]
  | false : DerivesKey (.exact 0) [.keyword .false]
  | ternary (key mask : Int) : DerivesKey (.ternary key mask) [.valueInt key, .andAndAnd, .valueInt mask]
  | lpm (key prelen : Int) : DerivesKey (.lpm key prelen) [.valueInt key, .divDivDiv, .valueInt prelen]
  | default : DerivesKey .default [.keyword .default]
  | star : DerivesKey .default [.op .star]

def keyDef : Production Token Key := ⟨parseKey, DerivesKey⟩

def startsKey : Token → Bool
  | .valueInt _ | .keyword .true | .keyword .false | .keyword .default | .op .star => true
  | _ => false

/-- The production `direct_entry`, behind a key. -/
def directEntry (key : Key) : Production Token TransitionEntry :=
  choice (· = .keyword .accept)
    (do
      keyword .accept
      return { key, next := "accept", acceptDrop := 0 })
    (do
      let next ← identifier
      return { key, next })

def transitionEntry : Production Token TransitionEntry := do
  let key ← keyDef
  symbol .colon
  let entry ← directEntry key
  symbol .semicolon
  return entry

def transitionEntries : Production Token (List TransitionEntry) := many startsKey transitionEntry

inductive DerivesField : LValue → List Token → Prop where
  | name (instanceName memberName fieldName : String) :
      DerivesField (.field instanceName memberName fieldName)
      [.identifier instanceName, .op .dot, .identifier memberName, .op .dot, .identifier fieldName]
  | isValid (instanceName memberName : String) : DerivesField (.field instanceName memberName "isValid")
      [.identifier instanceName, .op .dot, .identifier memberName, .op .dot, .keyword .isValid,
        .op .lparen, .op .rparen]

def field : Production Token LValue := ⟨parseField, DerivesField⟩

def fields : Production Token (List LValue) := separated (.op .comma) startsIdentifier field

def transitionStmt : Production Token Transition := do
  keyword .transition
  choice (· = .keyword .select)
    (do
      keyword .select
      symbol .lparen
      let targets ← fields
      symbol .rparen
      symbol .lbrace
      let entries ← transitionEntries
      symbol .rbrace
      return .select targets entries)
    (do
      let entry ← directEntry .default
      symbol .semicolon
      return .direct entry)

def extractStmt : Production Token (String × String) := do
  keyword .packet
  symbol .dot
  keyword .extract
  symbol .lparen
  let instanceName ← identifier
  symbol .dot
  let memberName ← identifier
  symbol .rparen
  symbol .semicolon
  return (instanceName, memberName)

def stateDef : Production Token StateDef := do
  keyword .state
  let name ← identifier
  symbol .lbrace
  let extract ← extractStmt
  let transition ← transitionStmt
  symbol .rbrace
  return ⟨name, extract.1, extract.2, transition⟩

def stateDefs : Production Token (List StateDef) := many (· = .keyword .state) stateDef

def parserDef : Production Token (List StateDef) := do
  keyword .parser
  let _ ← identifier
  symbol .lparen
  keyword .packetIn
  keyword .packet
  symbol .rparen
  symbol .lbrace
  let states ← stateDefs
  symbol .rbrace
  return states

/-! ### Actions -/

inductive DerivesLvalue : LValue → List Token → Prop where
  | member (instanceName memberName : String) : DerivesLvalue (.member instanceName memberName)
      [.identifier instanceName, .op .dot, .identifier memberName]
  | field (instanceName memberName fieldName : String) :
      DerivesLvalue (.field instanceName memberName fieldName)
      [.identifier instanceName, .op .dot, .identifier memberName, .op .dot, .identifier fieldName]
  | isValid (instanceName memberName : String) : DerivesLvalue (.field instanceName memberName "isValid")
      [.identifier instanceName, .op .dot, .identifier memberName, .op .dot, .keyword .isValid,
        .op .lparen, .op .rparen]

/-- An operand that may stand on the left of an assignment. -/
def parseLvalue (tokens : List Token) : Option (LValue × List Token) :=
  match parseOperand tokens with
  | some (.lvalue lvalue, rest) => some (lvalue, rest)
  | _ => none

def lvalue : Production Token LValue := ⟨parseLvalue, DerivesLvalue⟩

inductive DerivesOperand : Rp4Operation → List Token → Prop where
  | lvalue {lvalue : LValue} {sentence : List Token} (derives : DerivesLvalue lvalue sentence) :
      DerivesOperand (.lvalue lvalue) sentence
  | literal (value : Int) : DerivesOperand (.literal value) [.valueInt value]
  | parameter (name : String) : DerivesOperand (.parameter name) [.identifier name]
  | true : DerivesOperand (.literal 1) [.keyword .true]
  | false : DerivesOperand (.literal 0) [.keyword .false]

inductive DerivesOperation : Rp4Operation → List Token → Prop where
  | operand {operand : Rp4Operation} {sentence : List Token} (derives : DerivesOperand operand sentence) :
      DerivesOperation operand sentence
  | binary (op : Rp4Operator) {left right : Rp4Operation} {front back : List Token}
      (isLeft : DerivesOperation left front) (isRight : DerivesOperation right back) :
      DerivesOperation (.binary op left right) (.op .lparen :: front ++ op.token :: back ++ [.op .rparen])

def operation : Production Token Rp4Operation := ⟨parseOperation, DerivesOperation⟩

def startsOperation : Token → Bool
  | .op .lparen | .identifier _ | .valueInt _ | .keyword .true | .keyword .false => true
  | _ => false

def expression : Production Token Rp4Expression := do
  let lvalue ← lvalue
  symbol .assign
  let rvalue ← operation
  symbol .semicolon
  return { lvalue, rvalue }

def expressions : Production Token (List Rp4Expression) := many startsIdentifier expression

def parameters : Production Token (List Rp4FieldDef) := separated (.op .comma) startsType fieldDef

def actionDef : Production Token Rp4ActionDef := do
  keyword .action
  choice (· = .keyword .noAction)
    (do
      keyword .noAction
      symbol .lparen
      symbol .rparen
      symbol .lbrace
      symbol .rbrace
      return { name := "NoAction", parameters := [], expressions := [], isNoaction := true })
    (do
      let name ← identifier
      symbol .lparen
      let parameters ← parameters
      symbol .rparen
      symbol .lbrace
      let expressions ← expressions
      symbol .rbrace
      return { name, parameters, expressions })

def actionDefs : Production Token (List Rp4ActionDef) := many (· = .keyword .action) actionDef

def actionsDef : Production Token (List Rp4ActionDef) := do
  keyword .actions
  symbol .lbrace
  let actions ← actionDefs
  symbol .rbrace
  return actions

/-! ### Tables -/

def matchType : Production Token MatchType :=
  terminal fun
    | .keyword .exact => some .exact
    | .keyword .ternary => some .ternary
    | .keyword .lpm => some .lpm
    | _ => none

def keyEntry : Production Token Rp4KeyEntry := do
  let lvalue ← lvalue
  symbol .colon
  let matchType ← matchType
  symbol .semicolon
  return { lvalue, matchType }

def keyEntries : Production Token (List Rp4KeyEntry) := many startsIdentifier keyEntry

def tableKeyDef : Production Token (List Rp4KeyEntry) := do
  keyword .key
  symbol .assign
  symbol .lbrace
  let entries ← keyEntries
  symbol .rbrace
  return entries

def keyDefs : Production Token (List Key) := separated (.op .comma) startsKey keyDef

def matchKey : Production Token (List Key) := do
  symbol .lparen
  let keys ← keyDefs
  symbol .rparen
  return keys

def matchEntry : Production Token Rp4MatchEntry := do
  let keys ← matchKey
  symbol .colon
  let actionName ← actionName
  symbol .semicolon
  return { keys, actionName }

def matchEntries : Production Token (List Rp4MatchEntry) := many (· = .op .lparen) matchEntry

/-- A keyword, an equals sign and what is set. -/
def setting {α : Type} (name : Keyword) (value : Production Token α) : Production Token α := do
  keyword name
  symbol .assign
  let value ← value
  symbol .semicolon
  return value

def entriesStmt : Production Token Rp4TableOptionalStmt := do
  keyword .entries
  symbol .assign
  symbol .lbrace
  let entries ← matchEntries
  symbol .rbrace
  return .entries entries

def tableOptionalStmt : Production Token Rp4TableOptionalStmt :=
  choice (· = .keyword .size) (do return .size (← setting .size valueInt)) <|
    choice (· = .keyword .entries) entriesStmt <|
      choice (· = .keyword .defaultAction) (do return .defaultAction (← setting .defaultAction actionName))
        (do return .valueWidth (← setting .valueWidth valueInt))

def startsOptionalStmt : Token → Bool
  | .keyword .size | .keyword .entries | .keyword .defaultAction | .keyword .valueWidth => true
  | _ => false

def tableOptionalStmts : Production Token (List Rp4TableOptionalStmt) :=
  many startsOptionalStmt tableOptionalStmt

def tableDef : Production Token Rp4TableDef := do
  keyword .table
  let name ← identifier
  symbol .lbrace
  let keyDef ← tableKeyDef
  let optionalStmts ← tableOptionalStmts
  symbol .rbrace
  return { name, keyDef, optionalStmts }

def tableDefs : Production Token (List Rp4TableDef) := many (· = .keyword .table) tableDef

def tablesDef : Production Token (List Rp4TableDef) := do
  keyword .tables
  symbol .lbrace
  let tables ← tableDefs
  symbol .rbrace
  return tables

/-! ### Stages -/

def stageParserHeader : Production Token String := do
  let name ← identifier
  symbol .semicolon
  return name

def stageParser : Production Token (List String) := do
  keyword .parser
  symbol .lbrace
  let headers ← many startsIdentifier stageParserHeader
  symbol .rbrace
  symbol .semicolon
  return headers

def operations : Production Token (List Rp4Operation) := separated (.op .comma) startsOperation operation

/-- A keyword with a name in parentheses. -/
def called (target : Keyword) (name : Production Token String) : Production Token String := do
  keyword target
  symbol .lparen
  let name ← name
  symbol .rparen
  return name

def switchValue : Production Token Rp4SwitchValue :=
  choice (· = .keyword .table) (do return .table (← called .table identifier)) <|
    choice (· = .keyword .stage) (do return .stage (← called .stage identifier)) <|
      choice (· = .keyword .action) (do return .action (← called .action actionName))
        (do
          keyword .none
          return .stage "None" true)

def switchEntry : Production Token Rp4SwitchEntry := do
  let key ← keyDef
  symbol .colon
  let value ← switchValue
  symbol .semicolon
  return { key, value }

def switchEntries : Production Token (List Rp4SwitchEntry) := many startsKey switchEntry

def stageMatcher : Production Token Rp4StageMatcher := do
  keyword .matcher
  symbol .lbrace
  keyword .switch
  symbol .lparen
  let ops ← operations
  symbol .rparen
  symbol .lbrace
  let switchEntries ← switchEntries
  symbol .rbrace
  symbol .rbrace
  symbol .semicolon
  return { ops, switchEntries }

def stageExecutorEntryLeft : Production Token String :=
  terminal fun
    | .identifier name => some name
    | .keyword .hit => some "__HIT__"
    | .keyword .miss => some "__MISS__"
    | .keyword .noAction => some "NoAction"
    | _ => none

def startsExecutorEntry : Token → Bool
  | .identifier _ | .keyword .hit | .keyword .miss | .keyword .noAction => true
  | _ => false

def stageName : Production Token String :=
  terminal fun
    | .identifier name => some name
    | .keyword .none => some "None"
    | _ => none

def stageExecutorEntry : Production Token ExecutorEntry := do
  let actionName ← stageExecutorEntryLeft
  symbol .colon
  let stageName ← stageName
  symbol .semicolon
  return { actionName, stageName }

def stageExecutor : Production Token (List ExecutorEntry) := do
  keyword .executor
  symbol .lbrace
  let entries ← many startsExecutorEntry stageExecutorEntry
  symbol .rbrace
  symbol .semicolon
  return entries

def stageDef : Production Token Rp4StageDef := do
  keyword .stage
  let name ← identifier
  symbol .lbrace
  let parser ← stageParser
  let matcher ← stageMatcher
  let executor ← stageExecutor
  symbol .rbrace
  return { name, parser, matcher, executor }

def pipeline : Production Token Rp4Pipeline := do
  keyword .control
  let name ← identifier
  symbol .lbrace
  let stageDefs ← many (· = .keyword .stage) stageDef
  symbol .rbrace
  return { name, stageDefs }

/-! ### The program -/

def start : Production Token Rp4Ast := do
  let headerDefs ← headerDefs
  let structDefs ← structDefs
  let parserDef ← parserDef
  let actionsDef ← actionsDef
  let tablesDef ← tablesDef
  let ingressDef ← pipeline
  let egressDef ← pipeline
  return { headerDefs, structDefs, parserDef, actionsDef, tablesDef, ingressDef, egressDef }

/-- The tree of a text. What follows the second pipeline is not looked at. -/
def parseProgram (tokens : List Token) : Option Rp4Ast := (start.read tokens).map Prod.fst

end Grammar

end Ipbm.Compiler
