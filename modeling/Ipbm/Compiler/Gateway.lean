import Ipbm.Compiler.Expression
import Ipbm.Dataplane.Gateway

/-! Gateways of the compiler (`ipsa_gateway.h`, `ipsa_gateway_manager.h`) and the document they are
written to. -/

set_option autoImplicit false

namespace Ipbm.Compiler
open Dataplane

/-- The relation a gateway evaluates: an operator and two operands. -/
structure Expression where
  op : Rp4Operator
  left : Option Operand
  right : Option Operand
  deriving Repr

/-- A bare operand is compared with one. -/
def exprToExpr (headers : HeaderLookup) (operation : Operation) : Option Expression := do
  match ← parseExpr headers none operation with
  | some (.constant value) => return ⟨.eq, some (.constant 1), some (.constant value)⟩
  | some (.field headerField) => return ⟨.eq, some (.constant 1), some (.field headerField)⟩
  | some (.expression op left right) => return ⟨op, left, right⟩
  | some (.parameter _) | none => none

inductive GatewayEntry where
  | table (tableId matcherId : Int)
  | stage (stageId : Int)
  deriving DecidableEq, Repr

def GatewayEntry.toGateEntry : GatewayEntry → GateEntry
  | .table _ matcherId => ⟨.table, matcherId⟩
  | .stage stageId => ⟨.stage, stageId⟩

/-- A missing `defaultEntry` stands for the pointer that `load` copies from the first entry. -/
structure NextTable where
  defaultEntry : Option GatewayEntry
  entries : List (Int × GatewayEntry)
  deriving DecidableEq, Repr

/-- What the default pointer points to. -/
def NextTable.default (table : NextTable) : Option GatewayEntry :=
  table.defaultEntry <|> (table.entries.head?).map Prod.snd

structure Gateway where
  expressions : List Expression
  nextTable : NextTable

/-- The gateway of one stage. A later default replaces an earlier one. -/
def loadGateway (headers : HeaderLookup) (makeGatewayEntry : SwitchValue → Option GatewayEntry)
    (matcher : StageMatcher) : Option Gateway := do
  let expressions ← matcher.ops.mapM (exprToExpr headers)
  let values ← matcher.switchEntries.mapM fun entry => do
    return (entry.key, ← makeGatewayEntry entry.value)
  let defaults := values.filter fun value => value.1.isDefault
  let entries := values.filter fun value => !value.1.isDefault
  let nextTable : NextTable :=
    ⟨(defaults.getLast?).map Prod.snd, entries.map fun value => (value.1.getKey, value.2)⟩
  if nextTable.default.isSome then return ⟨expressions, nextTable⟩ else none

/-- An operand of the document. Reading a null member of it is an error. -/
inductive OperandDoc where
  | const (value : Int)
  | field (field : Option HeaderField)
  | param
  | expr
  | null
  deriving DecidableEq, Repr

def operandDoc : Option Operand → OperandDoc
  | none => .null
  | some (.constant value) => .const value
  | some (.field headerField) => .field headerField
  | some (.parameter _) => .param
  | some (.expression ..) => .expr

structure GatewayDoc where
  expressions : List (Rp4Operator × OperandDoc × OperandDoc)
  default : GateEntry
  entries : List (Int × GateEntry)
  deriving DecidableEq, Repr

def Gateway.toIpsaValue (gateway : Gateway) : Option GatewayDoc := do
  let default ← gateway.nextTable.default
  return {
    expressions := gateway.expressions.map fun exp => (exp.op, operandDoc exp.left, operandDoc exp.right)
    default := default.toGateEntry
    entries := gateway.nextTable.entries.map fun entry => (entry.1, entry.2.toGateEntry) }

end Ipbm.Compiler
