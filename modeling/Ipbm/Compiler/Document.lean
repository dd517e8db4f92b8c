import Ipbm.Compiler.Builder
import Ipbm.Compiler.HeaderManager
import Ipbm.Compiler.IpsaOutput

/-! The configuration as it is written (the functions `toIpsaValue` of `ipsa_*.h`).
What follows a null pointer has no document. -/

set_option autoImplicit false

namespace Ipbm.Compiler
open Lib Dataplane

namespace IpsaValue

/-- A map built from its entries. -/
def makeDict (entries : List (String × IpsaValue)) : IpsaValue :=
  .dict (OrderedMap.ofEntries entries)

def makeInts (values : List Int) : IpsaValue := .list (values.map .integer)

end IpsaValue

open IpsaValue

def fieldTypeText : FieldType → String
  | .field => "FIELD"
  | .valid => "VALID"
  | .hit => "HIT"
  | .miss => "MISS"

def fieldDocument (field : HeaderField) : IpsaValue :=
  makeDict [("type", .string (fieldTypeText field.type)), ("header_id", .integer field.headerId),
    ("field_internal_offset", .integer field.fieldInternalOffset),
    ("field_length", .integer field.fieldLength)]

/-! ### Expressions and actions -/

def operatorText : Rp4Operator → String
  | .eq => "==" | .ne => "!=" | .lt => "<" | .gt => ">" | .le => "<=" | .ge => ">="
  | .plus => "+" | .minus => "-" | .and => "&" | .or => "|" | .xor => "^" | .not => "~"
  | .mul => "*" | .div => "/" | .notl => "!"

mutual

def Operand.document : Operand → IpsaValue
  | .constant value => makeDict [("type", .string "CONST"), ("value", .integer value)]
  | .parameter parameterId => makeDict [("type", .string "PARAM"), ("value", .integer parameterId)]
  | .field none => makeDict [("type", .string "FIELD"), ("value", .null)]
  | .field (some field) => makeDict [("type", .string "FIELD"), ("value", fieldDocument field)]
  | .expression op left right =>
      makeDict [("type", .string "EXPR"),
        ("value", makeDict [("op", .string (operatorText op)), ("left", operandDocument left),
          ("right", operandDocument right)])]

/-- A missing operand is a null pointer, which the document shows. -/
def operandDocument : Option Operand → IpsaValue
  | none => .null
  | some operand => operand.document

end

def Assign.document (assign : Assign) : Option IpsaValue := do
  let (_, lvalue) ← assign.lvalue
  let rvalue ← assign.rvalue
  return makeDict [("lvalue", fieldDocument lvalue), ("rvalue", rvalue.document)]

def Action.document (action : Action) : Option IpsaValue := do
  let primitives ← action.primitives.mapM Assign.document
  return makeDict [("id", .integer action.id), ("parameter_num", .integer action.parameterNum),
    ("action_parameters_lengths", makeInts action.actionParametersLengths),
    ("primitives", .list primitives)]

/-! ### Gateways -/

def GatewayEntry.document (entry : GatewayEntry) : IpsaValue :=
  match entry with
  | .table _ matcherId => makeDict [("type", .string "TABLE"), ("value", .integer matcherId)]
  | .stage stageId => makeDict [("type", .string "STAGE"), ("value", .integer stageId)]

def nextTableEntryDocument (entry : Int × GatewayEntry) : IpsaValue :=
  makeDict [("bitmap", .integer entry.1), ("value", entry.2.document)]

def NextTable.document (table : NextTable) : Option IpsaValue := do
  let default ← table.default
  return makeDict [("default", default.document),
    ("entries", .list (table.entries.map nextTableEntryDocument))]

def Expression.document (exp : Expression) : IpsaValue :=
  (Operand.expression exp.op exp.left exp.right).document

def Gateway.document (gateway : Gateway) : Option IpsaValue := do
  let nextTable ← gateway.nextTable.document
  return makeDict [("expressions", .list (gateway.expressions.map Expression.document)),
    ("next_table", nextTable)]

/-! ### Tables -/

def matchTypeText : MatchType → String
  | .exact => "EXACT"
  | .ternary => "TERNARY"
  | .lpm => "LPM"

def memoryTypeText : MemoryType → String
  | .tcam => "TCAM"
  | .sram => "SRAM"

/-- A size that was never set has no number. -/
def TableMemory.keyDocument (memory : TableMemory) : Option IpsaValue := do
  let width ← memory.width
  let depth ← memory.depth
  return makeDict [("type", .string (memoryTypeText memory.type)), ("config", makeInts memory.config),
    ("width", .integer width), ("depth", .integer depth)]

def TableMemory.valueDocument (memory : TableMemory) : Option IpsaValue := do
  let width ← memory.width
  return makeDict [("config", makeInts memory.config), ("width", .integer width)]

def actionProcDocument (pair : Int × Int) : IpsaValue :=
  makeDict [("action_id", .integer pair.1), ("proc_id", .integer pair.2)]

def Table.document (table : Table) : Option IpsaValue := do
  let keyMemory ← table.keyMemory.keyDocument
  let valueMemory ← table.valueMemory.valueDocument
  return makeDict [("id", .integer table.id), ("miss_action_id", .integer table.missActionId),
    ("no_table", .integer table.noTable.toNat),
    ("action_to_proc", .list (table.actionToProc.map actionProcDocument)),
    ("match_type", .string (matchTypeText table.matchType)), ("key_memory", keyMemory),
    ("value_memory", valueMemory),
    ("field_infos", .list (table.fieldInfos.map fieldDocument))]

/-! ### Parser -/

def ParserTcamEntry.document (entry : ParserTcamEntry) : IpsaValue :=
  makeDict [("current_state", .integer entry.currentState), ("entry", .integer entry.entry),
    ("mask", .integer entry.mask)]

def ParserSramEntry.document (entry : ParserSramEntry) : IpsaValue :=
  makeDict [("header_id", .integer entry.headerId), ("header_length", .integer entry.headerLength),
    ("next_state", .integer entry.nextState),
    ("transition_field_num", .integer entry.transitionFields.length),
    ("transition_fields", .list (entry.transitionFields.map fieldDocument)),
    ("accept_drop", .integer entry.acceptDrop)]

def LevelEntry.document (entry : LevelEntry) : IpsaValue :=
  makeDict [("parser_tcam_entry", entry.parserTcamEntry.document),
    ("parser_sram_entry", entry.parserSramEntry.document)]

def Level.document (level : Level) : IpsaValue := .list (level.map LevelEntry.document)

def parserDocument (levels : List Level) : IpsaValue :=
  makeDict [("parser_level", .integer levels.length),
    ("levels", .list (levels.map Level.document))]

/-! ### The whole configuration -/

def GatewayRef.document (gateways : List Gateway) : GatewayRef → Option IpsaValue
  | .stage gatewayId => do (← gateways[gatewayId]?).document
  | .own entry => Gateway.document ⟨[], ⟨some entry, []⟩⟩

def Ipsa.processorDocument (ipsa : Ipsa) (processor : Processor) : Option IpsaValue := do
  let gateway ← (← processor.gateway).document ipsa.gateways
  let matcher ← processor.matcher.mapM fun tableId => ipsa.tables.lookupId tableId >>= Table.document
  let executor ← processor.executor.mapM fun actionId => ipsa.actions.lookupId actionId >>= Action.document
  return makeDict [("id", .integer processor.id), ("parser", parserDocument processor.levels),
    ("gateway", gateway), ("matcher", .list matcher), ("executor", .list executor)]

def MetadataEntry.document (entry : MetadataEntry) : IpsaValue :=
  makeDict [("id", .integer entry.id), ("offset", .integer entry.offset), ("length", .integer entry.length)]

def metadataDocument (metadata : List MetadataEntry) : IpsaValue :=
  .list (metadata.map MetadataEntry.document)

/-- `"processor_" + std::to_string(index)`. -/
def processorKey (index : Nat) : String := "processor_" ++ String.ofList (P4r.intText index)

/-- A processor without a stage is a null pointer. -/
def Ipsa.entryDocument (ipsa : Ipsa) : Option Processor → Option IpsaValue
  | none => some .null
  | some processor => ipsa.processorDocument processor

def Ipsa.document (ipsa : Ipsa) (isIncremental : Nat) (metadata : List MetadataEntry) : Option IpsaValue := do
  let processors ← ipsa.processors.mapM ipsa.entryDocument
  return makeDict (("is_incremental", .integer isIncremental) :: ("metadata", metadataDocument metadata) ::
    processors.zipIdx.map fun (processor, index) => (processorKey index, processor))

end Ipbm.Compiler
