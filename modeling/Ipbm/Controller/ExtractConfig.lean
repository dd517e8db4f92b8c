import Ipbm.Compiler.Builder
import Ipbm.Compiler.HeaderManager
import Ipbm.Controller.ExtractGateway
import Ipbm.Dataplane.Pipeline

/-! The push of a compiled configuration (`extract` of
`controller/ctrl_init_dataplane.h`), with the conversions of the client
(`api/controller_client.h`) and of the server (`api/dataplane_server.h`). -/

set_option autoImplicit false

namespace Ipbm.Controller
open Dataplane Compiler

/-! ### Parser -/

/-- All pointers of `fd_infos` are to the one variable of the loop, which keeps the last field. -/
def aliasedFields (fields : List FieldInfo) : List FieldInfo :=
  match fields.getLast? with
  | none => []
  | some last => List.replicate fields.length last

def modParserEntry (entry : LevelEntry) : ParserEntry where
  state := wrap 8 entry.parserTcamEntry.currentState
  entry := wrap 32 entry.parserTcamEntry.entry
  mask := wrap 32 entry.parserTcamEntry.mask
  hdrId := wrap 8 entry.parserSramEntry.headerId
  hdrLen := wrap 16 entry.parserSramEntry.headerLength
  nextState := wrap 8 entry.parserSramEntry.nextState
  transFdNum := entry.parserSramEntry.transitionFields.length % 2 ^ 8
  transFds := aliasedFields (entry.parserSramEntry.transitionFields.map sentField)
  missAct := wrap 8 entry.parserSramEntry.acceptDrop

def extractParser (levels : List Level) (procId : Int) : List Request :=
  .initParserLevel procId levels.length ::
    levels.zipIdx.flatMap fun (level, levelId) =>
      level.map fun entry => .modParserEntry procId levelId (modParserEntry entry)

/-! ### Matchers -/

/-- The block numbers of a table as bytes; a list of another length than the array either runs
past it or leaves bytes without a value. -/
def configBytes (memory : TableMemory) (depth : Nat) : Option (List UInt8) := do
  let width ← memory.width >>= natural
  if memory.config.length = depth * width then
    return memory.config.map fun block => UInt8.ofNat (wrap 8 block)
  else
    none

/-- The member `no_table` is read but never sent. An array has no size below zero. -/
def extractThread (procId : Int) (table : Table) : Option (List Request) := do
  let depth ← table.keyMemory.depth >>= natural
  let keyWidth ← table.keyMemory.width >>= natural
  let keyConfig ← configBytes table.keyMemory depth
  let valueWidth ← table.valueMemory.width >>= natural
  let valueConfig ← configBytes table.valueMemory depth
  return [
    .setMemConfig procId table.id {
      keyWidth, valueWidth, depth, keyConfig, valueConfig
      matchType := table.matchType
      missActId := table.missActionId },
    .setActionProc procId table.id table.actionToProc,
    .setFieldInfo procId table.id (table.fieldInfos.map sentField)]

def extractMatcher (tables : List Table) (procId : Int) : Option (List Request) := do
  return (← tables.mapM (extractThread procId)).flatten

/-! ### Actions -/

/-- An operator the table does not list reads as its zero value, `ADD`. -/
def getOpCode : Rp4Operator → OpCode
  | .minus => .sub
  | .and => .bitAnd
  | .or => .bitOr
  | .xor => .bitXor
  | .not => .bitNeg
  | _ => .add

/-- A child that is null in the document has no type to read. -/
def buildExpTree : Option Operand → Option ExpTreeNode
  | none => none
  | some (.constant value) => some (.node (.constant ⟨32, getUints (wrap 32 value) 32⟩) .nil .nil)
  | some (.parameter parameterId) => some (.node (.param parameterId) .nil .nil)
  | some (.field none) => none
  | some (.field (some field)) => some (.node (.field (sentField field)) .nil .nil)
  | some (.expression op left right) => do
      return .node (.operator (getOpCode op)) (← buildExpTree left) (← buildExpTree right)

def extractPrimitive (assign : Assign) : Option Primitive := do
  let (_, lvalue) ← assign.lvalue
  return ⟨sentField lvalue, ← buildExpTree assign.rvalue⟩

def extractAction (action : Compiler.Action) : Option Dataplane.Action := do
  let actionParaLens ← action.actionParametersLengths.mapM natural
  return { prims := ← action.primitives.mapM extractPrimitive, paraNum := action.parameterNum,
           actionParaLens }

def extractExecutor (actions : List Compiler.Action) (procId : Int) : Option (List Request) :=
  actions.mapM fun action => do
    return .insertAction procId action.id (← extractAction action)

/-! ### The whole document -/

def extractMetadata (metadata : List MetadataEntry) : Request :=
  .setMetadata (metadata.map fun entry =>
    { hdrId := wrap 8 entry.id, hdrOffset := wrap 16 entry.offset, hdrLen := wrap 16 entry.length })

def extractProcessor (metadata : List MetadataEntry) (procId : Int) (doc : ProcessorDoc) :
    Option (List Request) := do
  let gateway ← extractGateway doc.gateway
  let matcher ← extractMatcher doc.matcher procId
  let executor ← extractExecutor doc.executor procId
  return extractParser doc.levels procId ++ gateway.map (.gateway procId) ++ matcher ++ executor ++
    [extractMetadata metadata]

/-- A processor that is null in the document is skipped. -/
def InitDataplane.extract (docs : List (Option ProcessorDoc)) (metadata : List MetadataEntry) :
    Option (List Request) := do
  let requests ← docs.zipIdx.mapM fun (doc, procId) =>
    match doc with
    | none => some []
    | some doc => extractProcessor metadata procId doc
  return requests.flatten

end Ipbm.Controller
