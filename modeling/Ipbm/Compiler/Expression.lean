import Ipbm.Compiler.Ast

/-! Expressions of the compiler (`ipsa_expression.h`). -/

set_option autoImplicit false

namespace Ipbm.Compiler
open Dataplane

/-- Where a field lies in its header. -/
structure HeaderField where
  headerId : Nat := 0
  fieldInternalOffset : Int := 0
  fieldLength : Int := 0
  type : FieldType := .field
  deriving DecidableEq, Repr

end Ipbm.Compiler

/-- A field of the data plane as the compiler describes it. -/
def Ipbm.Dataplane.FieldInfo.headerField (info : Ipbm.Dataplane.FieldInfo) : Ipbm.Compiler.HeaderField :=
  ⟨info.hdrId, info.internalOffset, info.fdLen, info.fdType⟩

namespace Ipbm.Compiler
open Dataplane

/-- Resolution of a field name; `none` is a name the header manager reports as invalid. -/
abbrev HeaderLookup : Type := LValue → Option HeaderField

inductive Operand where
  | constant (value : Int)
  | parameter (parameterId : Nat)
  | field (headerField : Option HeaderField)
  | expression (op : Rp4Operator) (left right : Option Operand)
  deriving Repr

/-- The inner option is the pointer, null for a parameter the action does not declare. An operand
that is not there is asked for its kind, and outside an action a parameter has no definition to be
looked up in. -/
def parseExpr (headers : HeaderLookup) (actionDef : Option ActionDef) : Operation → Option (Option Operand)
  | .nil => none
  | .literal value => some (some (.constant value))
  | .lvalue source => some (some (.field (headers source)))
  | .parameter name => do
      let actionDef ← actionDef
      return (actionDef.parameters.findIdx? fun parameter => parameter.1 = name).map .parameter
  | .binary op left right => do
      let left ← parseExpr headers actionDef left
      let right ← parseExpr headers actionDef right
      return some (.expression op left right)

end Ipbm.Compiler
