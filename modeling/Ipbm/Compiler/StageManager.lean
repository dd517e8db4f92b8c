import Ipbm.Compiler.Ast

/-! Logical stages (`ipsa_stage_manager.h`). -/

set_option autoImplicit false

namespace Ipbm.Compiler

/-- The definition is a pointer into the syntax tree. The gateway id has its value from the
gateway manager on. -/
structure Stage where
  stageId : Int
  removed : Bool := false
  actionProc : List (Int × Int) := []
  gatewayId : Nat := 0
  tableId : List Int := []
  definition : StageDef
  deriving DecidableEq, Repr

/-- `names` is the map from names to positions: position `i` belongs to the name at `i`. The
stage that stands there may later be a copy of another one. -/
structure StageManager where
  logicalStages : List Stage
  names : List String
  deriving DecidableEq, Repr

namespace StageManager

/-- A second stage of a name is not added. -/
def addStage (stages : StageManager) (stageDef : StageDef) : StageManager :=
  if stageDef.name ∈ stages.names then
    stages
  else
    { logicalStages := stages.logicalStages ++
        [{ stageId := stages.logicalStages.length, definition := stageDef }]
      names := stages.names ++ [stageDef.name] }

def load (ast : Ast) : StageManager :=
  (ast.ingress ++ ast.egress).foldl addStage ⟨[], []⟩

def lookupName (stages : StageManager) (name : String) : Option Stage := do
  let position ← stages.names.idxOf? name
  stages.logicalStages[position]?

def lookupId (stages : StageManager) (stageId : Int) : Option Stage :=
  stages.logicalStages.find? fun stage => !stage.removed && stage.stageId == stageId

end StageManager

end Ipbm.Compiler
