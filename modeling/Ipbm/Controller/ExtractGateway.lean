import Ipbm.Compiler.Gateway
import Ipbm.Dataplane.Parser

/-! The gateway part of the controller (`extract_gateway` of
`controller/ctrl_init_dataplane.h`), with the conversions its requests pass
through on both ends of the connection. -/

set_option autoImplicit false

namespace Ipbm.Controller
open Dataplane Compiler

/-- An operator the table does not list reads as its zero value, `GT`. -/
def getRelationCode : Rp4Operator → RelationCode
  | .eq => .eq
  | .ne => .neq
  | .ge => .gte
  | .lt => .lt
  | .le => .lte
  | _ => .gt

/-- A field as a `FieldInfo` of the controller holds it, and every later hop. -/
def sentField (field : HeaderField) : FieldInfo :=
  ⟨wrap 8 field.headerId, wrap 16 field.fieldInternalOffset, wrap 16 field.fieldLength, field.type⟩

/-- A field of a gateway as it arrives in the data plane. -/
def gatewayField (field : FieldInfo) : FieldInfo :=
  match field.fdType with
  | .field => field
  | .valid => ⟨field.hdrId, 0, 1, .valid⟩
  | .hit => ⟨0, 0, 1, .hit⟩
  | .miss => ⟨0, 0, 1, .miss⟩

/-- Constants are sent as 32 bits; other operands leave the parameter as it was created. -/
def setGateParam : OperandDoc → Option GateParam
  | .const value => some (.constant ⟨32, getUints (value % 2 ^ 32).toNat 32⟩)
  | .field (some field) => some (.field (gatewayField (sentField field)))
  | .param | .expr => some .unset
  | .field none | .null => none

def relationExp (expression : Rp4Operator × OperandDoc × OperandDoc) : Option RelationExp := do
  let param1 ← setGateParam expression.2.1
  let param2 ← setGateParam expression.2.2
  return ⟨param1, param2, getRelationCode expression.1⟩

def extractGateway (doc : GatewayDoc) : Option (List GatewayRequest) := do
  let exps ← doc.expressions.mapM relationExp
  return .clearRelationExp :: exps.map .insertRelationExp ++
    .setDefaultGateEntry doc.default :: doc.entries.map fun entry => .modResMap entry.1 entry.2

end Ipbm.Controller
