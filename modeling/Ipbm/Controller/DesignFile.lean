import Ipbm.Controller.ExtractConfig
import Ipbm.Compiler.Document

/-! The controller's reading of a configuration file (`controller/ctrl_init_dataplane.h`).
What throws is `none`, and so are a size below zero and a configuration list that does not fit
its array. -/

set_option autoImplicit false

namespace Ipbm.Controller
open Lib Dataplane Compiler

namespace DesignFile

/-- `j.at(key).get<int>()`. -/
def intAt (json : Json) (key : String) : Option Int := json.at? key >>= Json.getInt

def getSize (json : Json) : Option Nat := json.getInt >>= natural

def sizeAt (json : Json) (key : String) : Option Nat := json.at? key >>= getSize

/-- `j.at(key).get<std::string>()`. -/
def stringAt (json : Json) (key : String) : Option String := json.at? key >>= Json.getString

def elementsAt (json : Json) (key : String) : Option (List Json) := (json.at? key).map Json.elements

/-! ### The tables of names

A name that is not listed reads as the first value of its type. -/

def getFieldType (type : String) : FieldType :=
  if type = "VALID" then .valid
  else if type = "HIT" then .hit
  else if type = "MISS" then .miss
  else .field

def getRelationCode (op : String) : RelationCode :=
  if op = "==" then .eq
  else if op = "!=" then .neq
  else if op = ">=" then .gte
  else if op = "<" then .lt
  else if op = "<=" then .lte
  else .gt

/-- The kinds of operands a configuration can name. -/
inductive ParameterType where
  | constant | field | param | operator
  deriving DecidableEq, Repr

def getParameterType (type : String) : ParameterType :=
  if type = "FIELD" then .field
  else if type = "PARAM" then .param
  else if type = "EXPR" then .operator
  else .constant

def getGateEntryType (type : String) : GateEntryType :=
  if type = "STAGE" then .stage else .table

def getMatchType (type : String) : MatchType :=
  if type = "LPM" then .lpm
  else if type = "TERNARY" then .ternary
  else .exact

def getOpCode (op : String) : OpCode :=
  if op = "-" then .sub
  else if op = "&" then .bitAnd
  else if op = "|" then .bitOr
  else if op = "~" then .bitNeg
  else if op = "^" then .bitXor
  else if op = ">>" then .shiftRight
  else if op = "<<" then .shiftLeft
  else .add

/-! ### The parts of a processor -/

def fieldInfo (json : Json) : Option FieldInfo := do
  return ⟨wrap 8 (← intAt json "header_id"), wrap 16 (← intAt json "field_internal_offset"),
    wrap 16 (← intAt json "field_length"), getFieldType (← stringAt json "type")⟩

def parserEntry (json : Json) : Option ParserEntry := do
  let tcam ← json.at? "parser_tcam_entry"
  let sram ← json.at? "parser_sram_entry"
  let transFdNum ← intAt sram "transition_field_num"
  let transFds ← (← elementsAt sram "transition_fields").mapM fieldInfo
  return {
    state := wrap 8 (← intAt tcam "current_state")
    entry := wrap 32 (← intAt tcam "entry")
    mask := wrap 32 (← intAt tcam "mask")
    hdrId := wrap 8 (← intAt sram "header_id")
    hdrLen := wrap 16 (← intAt sram "header_length")
    nextState := wrap 8 (← intAt sram "next_state")
    transFdNum := wrap 8 transFdNum
    transFds := aliasedFields transFds
    missAct := wrap 8 (← intAt sram "accept_drop") }

/-- One round of the loop over the levels, which counts them. -/
def extractLevel (procId : Int) (level : Json × Nat) : Option (List Request) := do
  return (← level.1.elements.mapM parserEntry).map (.modParserEntry procId level.2)

def extractParser (json : Json) (procId : Int) : Option (List Request) := do
  let parserLevel ← sizeAt json "parser_level"
  let levels ← elementsAt json "levels"
  let entries ← levels.zipIdx.mapM (extractLevel procId)
  return .initParserLevel procId parserLevel :: entries.flatten

def setGateParam (json : Json) : Option GateParam := do
  match getParameterType (← stringAt json "type") with
  | .constant => return .constant ⟨32, getUints (wrap 32 (← intAt json "value")) 32⟩
  | .field => return .field (gatewayField (← json.at? "value" >>= fieldInfo))
  | .param | .operator => return .unset

def relationExp (json : Json) : Option RelationExp := do
  let value ← json.at? "value"
  let op ← stringAt value "op"
  return ⟨← value.at? "left" >>= setGateParam, ← value.at? "right" >>= setGateParam, getRelationCode op⟩

def gateEntry (json : Json) : Option GateEntry := do
  return ⟨getGateEntryType (← stringAt json "type"), ← intAt json "value"⟩

def resMapEntry (json : Json) : Option GatewayRequest := do
  return .modResMap (← intAt json "bitmap") (← json.at? "value" >>= gateEntry)

def extractGateway (json : Json) : Option (List GatewayRequest) := do
  let exps ← (← elementsAt json "expressions").mapM relationExp
  let nextTable ← json.at? "next_table"
  let default ← nextTable.at? "default" >>= gateEntry
  let entries ← (← elementsAt nextTable "entries").mapM resMapEntry
  return .clearRelationExp :: exps.map .insertRelationExp ++ .setDefaultGateEntry default :: entries

def configBytes (memory : Json) (size : Nat) : Option (List UInt8) := do
  let config ← (← elementsAt memory "config").mapM Json.getInt
  if config.length = size then some (config.map fun block => UInt8.ofNat (wrap 8 block)) else none

def actionProc (json : Json) : Option (Int × Int) := do
  return (← intAt json "action_id", ← intAt json "proc_id")

def extractThread (procId : Int) (json : Json) : Option (List Request) := do
  let matcherId ← intAt json "id"
  let missActId ← intAt json "miss_action_id"
  let _ ← intAt json "no_table"
  let matchType ← stringAt json "match_type"
  let keyMemory ← json.at? "key_memory"
  let depth ← sizeAt keyMemory "depth"
  let keyWidth ← sizeAt keyMemory "width"
  let keyConfig ← configBytes keyMemory (depth * keyWidth)
  let valueMemory ← json.at? "value_memory"
  let valueWidth ← sizeAt valueMemory "width"
  let valueConfig ← configBytes valueMemory (depth * valueWidth)
  let actionProcs ← (← elementsAt json "action_to_proc").mapM actionProc
  let fdInfos ← (← elementsAt json "field_infos").mapM fieldInfo
  return [
    .setMemConfig procId matcherId {
      keyWidth, valueWidth, depth, keyConfig, valueConfig, matchType := getMatchType matchType, missActId },
    .setActionProc procId matcherId actionProcs,
    .setFieldInfo procId matcherId fdInfos]

def extractMatcher (json : Json) (procId : Int) : Option (List Request) := do
  return (← json.elements.mapM (extractThread procId)).flatten

/-- What a node holds; an operator has its operands in `value` as well. -/
def expOperand (json value : Json) : Option Parameter := do
  match getParameterType (← stringAt json "type") with
  | .operator => return .operator (getOpCode (← stringAt value "op"))
  | .field => return .field (← fieldInfo value)
  | .param => return .param (← sizeAt json "value")
  | .constant => return .constant ⟨32, getUints (wrap 32 (← value.getInt)) 32⟩

theorem sizeOf_at? {json inside : Json} {key : String} (found : json.at? key = some inside) :
    sizeOf inside < sizeOf json := by
  cases json with
  | object members =>
      have member := OrderedMap.mem_of_find found
      have pair := List.sizeOf_lt_of_mem member
      simp only [Prod.mk.sizeOf_spec, Json.object.sizeOf_spec] at pair ⊢
      omega
  | _ => cases found

def buildExpTree (json : Json) : Option ExpTreeNode :=
  match _ : json.at? "value" with
  | none => none
  | some value => do
      let operand ← expOperand json value
      let left ← match _ : value.at? "left" with
        | none => some .nil
        | some left => buildExpTree left
      let right ← match _ : value.at? "right" with
        | none => some .nil
        | some right => buildExpTree right
      return .node operand left right
termination_by sizeOf json
decreasing_by
  all_goals
    exact (sizeOf_at? ‹json.at? "value" = some value›).trans' (sizeOf_at? (by assumption))

def primitive (json : Json) : Option Primitive := do
  return ⟨← json.at? "lvalue" >>= fieldInfo, ← json.at? "rvalue" >>= buildExpTree⟩

def extractAction (json : Json) : Option (Int × Dataplane.Action) := do
  let actionId ← intAt json "id"
  let paraNum ← sizeAt json "parameter_num"
  let actionParaLens ← (← elementsAt json "action_parameters_lengths").mapM getSize
  let prims ← (← elementsAt json "primitives").mapM primitive
  return (actionId, { prims, paraNum, actionParaLens })

def extractExecutor (json : Json) (procId : Int) : Option (List Request) := do
  return (← json.elements.mapM extractAction).map fun action => .insertAction procId action.1 action.2

def headerInfo (json : Json) : Option HeaderInfo := do
  return ⟨wrap 8 (← intAt json "id"), wrap 16 (← intAt json "offset"), wrap 16 (← intAt json "length")⟩

def extractMetadata (json : Json) : Option Request := do
  return .setMetadata (← json.elements.mapM headerInfo)

/-! ### The whole file -/

def extractProcessor (json processor : Json) (procId : Nat) : Option (List Request) := do
  let _ ← intAt processor "id"
  let parser ← processor.at? "parser"
  let gateway ← processor.at? "gateway"
  let matcher ← processor.at? "matcher"
  let executor ← processor.at? "executor"
  let metadata ← json.at? "metadata"
  return (← extractParser parser procId) ++ ((← extractGateway gateway).map (.gateway procId)) ++
    (← extractMatcher matcher procId) ++ (← extractExecutor executor procId) ++ [← extractMetadata metadata]

/-- A processor that is null is skipped. -/
def extractAt (json : Json) (procId : Nat) : Option (List Request) := do
  match ← json.at? (processorKey procId) with
  | .null => return []
  | processor => extractProcessor json processor procId

def extract (text : List Char) : Option (List Request) := do
  let json ← Json.parse text
  let requests ← (List.range 16).mapM (extractAt json)
  return requests.flatten

end DesignFile

end Ipbm.Controller
