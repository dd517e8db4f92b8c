import Ipbm.Compiler.ActionManager

/-! Tables of the compiler (`ipsa_table.h`, `ipsa_table_manager.h`), with the
sizes of `ipsa_configuration.h`. -/

set_option autoImplicit false

namespace Ipbm.Compiler
open Dataplane

namespace IpsaConfiguration

def sramWidth : Nat := 128
def tcamWidth : Nat := 64
def sramDepth : Nat := 1024
def tcamDepth : Nat := 1024
def maxLevel : Nat := 4
def clusterCount : Nat := 4
def clusterProcCount : Nat := 4
def clusterSramCount : Nat := 256
def clusterTcamCount : Nat := 128
def procCount : Nat := clusterProcCount * clusterCount

end IpsaConfiguration

inductive MemoryType where
  | tcam | sram
  deriving DecidableEq, Repr

/-- The members `width` and `depth` have no initialiser. -/
structure TableMemory where
  type : MemoryType := .sram
  config : List Int := []
  width : Option Int := none
  depth : Option Int := none
  deriving DecidableEq, Repr

structure Table where
  procId : Int := 0
  keyWidthVec : List Int := []
  id : Int := 0
  tableId : Int
  missActionId : Int
  noTable : Bool := false
  actionToProc : List (Int × Int) := []
  matchType : MatchType := .exact
  keyMemory : TableMemory := {}
  valueMemory : TableMemory := {}
  fieldInfos : List HeaderField := []
  deriving DecidableEq, Repr

/-- The tables by name, in the order they are added. -/
abbrev TableManager : Type := List (String × Table)

namespace TableManager

def lookupName (tables : TableManager) (name : String) : Option Table :=
  (tables.find? fun entry => entry.1 = name).map Prod.snd

def lookupId (tables : TableManager) (tableId : Int) : Option Table :=
  (tables.find? fun entry => entry.2.tableId = tableId).map Prod.snd

def defaultActionId (actions : ActionManager) (stmts : List TableStmt) : Int :=
  stmts.foldl (fun actionId stmt =>
    match stmt with
    | .defaultAction name => ((actions.lookupName name).map Action.id).getD actionId
    | _ => actionId) 0

/-- Blocks of `unit` that hold `amount`; the division truncates. -/
def blocks (amount : Int) (unit : Nat) : Int := (wrapInt (amount + (unit - 1))).tdiv unit

def tableMatchType (keys : List (LValue × MatchType)) : MatchType :=
  match keys with
  | [entry] => entry.2
  | _ => if keys.all fun entry => entry.2 = .exact then .exact else .ternary

def sizeOf (stmts : List TableStmt) : Option Int :=
  stmts.findSome? fun stmt => match stmt with
    | .size size => some size
    | _ => none

def valueWidthOf (stmts : List TableStmt) : Option Int :=
  stmts.findSome? fun stmt => match stmt with
    | .valueWidth width => some width
    | _ => none

def makeTable (headers : HeaderLookup) (actions : ActionManager) (tableId : Int) (tableDef : TableDef) :
    Option Table := do
  let missActionId := defaultActionId actions tableDef.optionalStmts
  if tableDef.keys = [] then
    return { tableId, missActionId, noTable := true }
  else
    let matchType := tableMatchType tableDef.keys
    let type := if matchType = .exact then MemoryType.sram else .tcam
    let fields ← tableDef.keys.mapM fun entry => headers entry.1
    let memWidth := if type = .sram then IpsaConfiguration.sramWidth else IpsaConfiguration.tcamWidth
    let memDepth := if type = .sram then IpsaConfiguration.sramDepth else IpsaConfiguration.tcamDepth
    let depth := ((sizeOf tableDef.optionalStmts).map (blocks · memDepth)).getD 1
    let width := ((valueWidthOf tableDef.optionalStmts).map (blocks · IpsaConfiguration.sramWidth)).getD 1
    return {
      tableId, missActionId, matchType
      keyWidthVec := fields.map HeaderField.fieldLength
      keyMemory := { type, width := blocks (fields.map HeaderField.fieldLength).sum memWidth, depth }
      valueMemory := { type := .sram, width, depth }
      fieldInfos := fields }

/-- A second table of a name takes an id but is not inserted. -/
def load (headers : HeaderLookup) (actions : ActionManager) (ast : Ast) : Option TableManager :=
  ast.tables.zipIdx.foldlM (fun tables (tableDef, position) => do
    let table ← makeTable headers actions position tableDef
    return if (tables.lookupName tableDef.name).isSome then tables else tables ++ [(tableDef.name, table)]) []

/-- A change of the table with a given id. -/
def update (tables : TableManager) (tableId : Int) (change : Table → Table) : TableManager :=
  tables.map fun entry => if entry.2.tableId = tableId then (entry.1, change entry.2) else entry

def setMatcherId (tables : TableManager) (tableId procId matcherId : Int)
    (actionProc : List (Int × Int)) : TableManager :=
  tables.update tableId fun table =>
    { table with procId, id := matcherId, actionToProc := table.actionToProc ++ actionProc }

/-- `procProc` reads as zero where it has no entry. -/
def reorderStages (tables : TableManager) (procProc : Int → Option Int) : TableManager :=
  tables.map fun entry => (entry.1, { entry.2 with
    procId := (procProc entry.2.procId).getD 0
    actionToProc := entry.2.actionToProc.map fun pair => (pair.1, (procProc pair.2).getD 0) })

end TableManager

end Ipbm.Compiler
