import Ipbm.Compiler.ProgramReading
import Ipbm.Compiler.RuntimeRuns

/-! What the passes of the compiler read of a syntax tree. A tree with the deprecated switch to an
action has no such reading. -/

set_option autoImplicit false

namespace Ipbm.Compiler

def Rp4Operation.operation : Rp4Operation → Operation
  | .lvalue target => .lvalue target
  | .literal value => .literal value
  | .parameter name => .parameter name
  | .binary op left right => .binary op left.operation right.operation

def Rp4FieldDef.fieldDef (field : Rp4FieldDef) : FieldDef :=
  match field.type with
  | .bit length => ⟨.bit length, field.name⟩
  | .named name => ⟨.named name, field.name⟩

def Rp4HeaderDef.headerDef (header : Rp4HeaderDef) : HeaderDef :=
  ⟨header.name, header.fields.map Rp4FieldDef.fieldDef⟩

/-- The name of the struct's type is not looked at. -/
def Rp4StructDef.structDef (struct : Rp4StructDef) : StructDef where
  fields := struct.fields.map Rp4FieldDef.fieldDef
  name := struct.name
  isHeader := struct.isHeader

def Rp4FieldDef.parameter (field : Rp4FieldDef) : String × Option Int :=
  match field.type with
  | .bit length => (field.name, some length)
  | .named _ => (field.name, none)

def Rp4ActionDef.actionDef (action : Rp4ActionDef) : ActionDef where
  name := action.name
  parameters := action.parameters.map Rp4FieldDef.parameter
  expressions := action.expressions.map fun expression => (expression.lvalue, expression.rvalue.operation)

def Rp4TableOptionalStmt.tableStmt : Rp4TableOptionalStmt → TableStmt
  | .size value => .size value
  | .entries _ => .entries
  | .defaultAction name => .defaultAction name
  | .valueWidth value => .valueWidth value

def Rp4TableDef.tableDef (table : Rp4TableDef) : TableDef where
  name := table.name
  keys := table.keyDef.map fun entry => (entry.lvalue, entry.matchType)
  optionalStmts := table.optionalStmts.map Rp4TableOptionalStmt.tableStmt

def Rp4SwitchEntry.switchEntry (entry : Rp4SwitchEntry) : Option SwitchEntry :=
  match entry.value with
  | .table name => some ⟨entry.key, .table name⟩
  | .stage name toNone => some ⟨entry.key, if toNone then .none else .stage name⟩
  | .action _ => none

def Rp4StageDef.stageDef (stage : Rp4StageDef) : Option StageDef := do
  return {
    name := stage.name
    parser := stage.parser
    matcher :=
      { ops := stage.matcher.ops.map Rp4Operation.operation
        switchEntries := ← stage.matcher.switchEntries.mapM Rp4SwitchEntry.switchEntry }
    executor := stage.executor }

def Rp4Ast.tree (ast : Rp4Ast) : Option Rp4Tree := do
  return {
    headerDefs := ast.headerDefs.map Rp4HeaderDef.headerDef
    structDefs := ast.structDefs.map Rp4StructDef.structDef
    states := ast.parserDef
    ast :=
      { actions := ast.actionsDef.map Rp4ActionDef.actionDef
        tables := ast.tablesDef.map Rp4TableDef.tableDef
        ingress := ← ast.ingressDef.stageDefs.mapM Rp4StageDef.stageDef
        egress := ← ast.egressDef.stageDefs.mapM Rp4StageDef.stageDef } }

/-- What the compiler makes of a text. -/
def parseText (text : List Char) : Option Rp4Tree := (Grammar.parseProgram (Lexer.lex text)).bind Rp4Ast.tree

/-- A text is accepted just when a program of the grammar stands at its front, and then with the
tree of that program. -/
theorem parseText_iff {text : List Char} {tree : Rp4Tree} : parseText text = some tree ↔
    ∃ ast program rest, Lexer.lex text = program ++ rest ∧ Grammar.start.Derives ast program ∧
      ast.tree = some tree := by
  rw [parseText, Option.bind_eq_some_iff]
  constructor
  · rintro ⟨ast, parsed, isTree⟩
    obtain ⟨program, rest, split, derives⟩ := Grammar.parseProgram_iff.mp parsed
    exact ⟨ast, program, rest, split, derives, isTree⟩
  · rintro ⟨ast, program, rest, split, derives, isTree⟩
    exact ⟨ast, Grammar.parseProgram_iff.mpr ⟨program, rest, split, derives⟩, isTree⟩

end Ipbm.Compiler
