import Ipbm.Compiler.Builder

/-! Table commands of the runtime (`emitUpdate` of `rp4_runtime.h`, with
`ipsa_tableupdate.h`). -/

set_option autoImplicit false

namespace Ipbm.Compiler
open Dataplane

inductive TableUpdateType where
  | add | mod | del
  deriving DecidableEq, Repr

/-- A key or a parameter is a text and the width it is read with. -/
structure TableUpdater where
  type : TableUpdateType
  procId : Int
  matcherId : Int
  matchType : MatchType
  keys : List (String × Int)
  actionId : Int
  actionPara : List (String × Int)
  deriving DecidableEq, Repr

namespace Rp4Runtime

/-- An unknown command adds. -/
def updateType (cmd : String) : TableUpdateType :=
  if cmd = "table_add" then .add
  else if cmd = "table_mod" then .mod
  else if cmd = "table_del" then .del
  else .add

/-- A text beyond the declared widths is read with 32 bits. -/
def withWidths (widths : List Int) (texts : List String) : List (String × Int) :=
  texts.zipIdx.map fun (text, index) => (text, widths.getD index 32)

/-- The table and the action are looked up by name, each on its own; a name that is not found is a
null pointer. -/
def emitUpdate (ipsa : Ipsa) : List String → Option TableUpdater
  | cmd :: tableName :: actionName :: texts => do
      let table ← ipsa.tables.lookupName tableName
      let action ← ipsa.actions.lookupName actionName
      return {
        type := updateType cmd
        procId := table.procId
        matcherId := table.id
        matchType := table.matchType
        keys := withWidths table.keyWidthVec (texts.takeWhile (· ≠ "=>"))
        actionId := action.id
        actionPara := withWidths action.actionParametersLengths ((texts.dropWhile (· ≠ "=>")).drop 1) }
  | _ => none

end Rp4Runtime

end Ipbm.Compiler
