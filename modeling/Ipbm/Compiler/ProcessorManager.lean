import Ipbm.Compiler.Gateway
import Ipbm.Compiler.StageManager
import Ipbm.Compiler.TableManager

/-! Stages become processors (`ipsa_processor_manager.h`, `ipsa_gateway_manager.h`).
A stage that only runs one action is removed: the action is appended to the
actions that lead to the stage, and these lead on to its successor. -/

set_option autoImplicit false

namespace Ipbm.Compiler
open Dataplane

/-- What `initializeStages` works on. -/
structure StageState where
  stages : StageManager
  actions : ActionManager

namespace ProcessorManager

/-! ### Action to processor table -/

def stageIdOf (stages : StageManager) (name : String) : Int :=
  ((stages.lookupName name).map Stage.stageId).getD (-1)

def actionProcEntry (state : StageState) (entry : ExecutorEntry) : Int × Int :=
  (((state.actions.lookupName entry.actionName).map Action.id).getD 0,
    stageIdOf state.stages entry.stageName)

def fillActionProc (state : StageState) : StageState :=
  { state with stages.logicalStages := state.stages.logicalStages.map fun stage =>
      { stage with actionProc := stage.definition.executor.map (actionProcEntry state) } }

/-! ### Removal of single-action stages -/

/-- One action of a stage before the removed one. The flag records a conflict. -/
def redirectEntry (stageId nextStageId : Int) (actionName : String) (actions : ActionManager)
    (conflict : Bool) (entry : Int × Int) : Option ((Int × Int) × ActionManager × Bool) :=
  if entry.2 = stageId then do
    let next ← actions.lookupName actionName
    match actions.concatAction entry.1 next.primitives with
    | some actions => return ((entry.1, nextStageId), actions, conflict)
    | none => return (entry, actions, true)
  else
    some (entry, actions, conflict)

/-- All actions of one stage. -/
def redirectEntries (stageId nextStageId : Int) (actionName : String) (actions : ActionManager)
    (conflict : Bool) : List (Int × Int) → Option (List (Int × Int) × ActionManager × Bool)
  | [] => some ([], actions, conflict)
  | entry :: rest => do
      let (entry, actions, conflict) ← redirectEntry stageId nextStageId actionName actions conflict entry
      let (rest, actions, conflict) ← redirectEntries stageId nextStageId actionName actions conflict rest
      return (entry :: rest, actions, conflict)

/-- A removed stage is passed over. -/
def redirectStage (stageId nextStageId : Int) (actionName : String) (actions : ActionManager)
    (conflict : Bool) (stage : Stage) : Option (Stage × ActionManager × Bool) :=
  if stage.removed then
    some (stage, actions, conflict)
  else do
    let (actionProc, actions, conflict) ←
      redirectEntries stageId nextStageId actionName actions conflict stage.actionProc
    return ({ stage with actionProc }, actions, conflict)

def redirectStages (stageId nextStageId : Int) (actionName : String) (actions : ActionManager)
    (conflict : Bool) : List Stage → Option (List Stage × ActionManager × Bool)
  | [] => some ([], actions, conflict)
  | stage :: rest => do
      let (stage, actions, conflict) ← redirectStage stageId nextStageId actionName actions conflict stage
      let (rest, actions, conflict) ← redirectStages stageId nextStageId actionName actions conflict rest
      return (stage :: rest, actions, conflict)

abbrev GotoMap : Type := Int → Option Int

/-- The stage at a position is removed unless an action before it conflicts; what was redirected
until then stays. -/
def removeStage (state : StageState × GotoMap) (position : Nat) : Option (StageState × GotoMap) := do
  let stage ← state.1.stages.logicalStages[position]?
  match stage.definition.getVirtualAction with
  | none => some state
  | some entry => do
      let action ← state.1.actions.lookupName entry.actionName
      if 0 < action.parameterNum then
        some state
      else
        let nextStageId := stageIdOf state.1.stages entry.stageName
        let (logicalStages, actions, conflict) ← redirectStages stage.stageId nextStageId entry.actionName
          state.1.actions false state.1.stages.logicalStages
        if conflict then
          return ({ stages := { state.1.stages with logicalStages }, actions }, state.2)
        else
          return ({ stages := { state.1.stages with
                      logicalStages :=
                        logicalStages.modify position fun stage => { stage with removed := true } }
                    actions },
            Function.update state.2 stage.stageId (some nextStageId))

def removeStages (state : StageState) : Option (StageState × GotoMap) :=
  (List.range state.stages.logicalStages.length).foldlM removeStage (state, fun _ => none)

/-! ### Renumbering -/

/-- `std::map::insert`: an entry that is there stays. -/
def insertNew (map : Int → Option Int) (key value : Int) : Int → Option Int :=
  if (map key).isSome then map else Function.update map key (some value)

/-- The stages that stay, numbered from zero. -/
def numberStages (stages : List Stage) : (Int → Option Int) × Int :=
  stages.foldl (fun numbering stage =>
    if stage.removed then numbering
    else (insertNew numbering.1 stage.stageId numbering.2, numbering.2 + 1))
    (insertNew (fun _ => none) (-1) (-1), 0)

/-- A position of a vector; a negative one is outside. -/
def stageAt (stages : List Stage) (position : Int) : Option Stage :=
  if 0 ≤ position then stages[position.toNat]? else none

/-- The loop behind a removed stage. It copies the removed successor over the stage itself, and
so the entry it ends with belongs to the last removed stage of the chain. -/
def followGoto (gotoMap : GotoMap) (position : Nat) :
    Nat → List Stage × (Int → Option Int) → Option (List Stage × (Int → Option Int))
  | 0, _ => none
  | fuel + 1, (stages, reorderMap) => do
      let x ← stages[position]?
      if x.removed then
        let y ← stageAt stages ((gotoMap x.stageId).getD 0)
        if y.removed then
          followGoto gotoMap position fuel (stages.set position y, reorderMap)
        else
          return (stages, insertNew reorderMap x.stageId ((reorderMap y.stageId).getD 0))
      else
        return (stages, reorderMap)

/-- A chain of removed stages that does not end keeps the loop running; any other ends within the
number of stages. -/
def reorderMap (gotoMap : GotoMap) (stages : List Stage) : Option (List Stage × (Int → Option Int)) :=
  (List.range stages.length).foldlM
    (fun state position => followGoto gotoMap position (stages.length + 1) state)
    (stages, (numberStages stages).1)

def reorderStages (stages : List Stage) (procProc : Int → Option Int) : List Stage :=
  stages.map fun stage => { stage with
    stageId := (procProc stage.stageId).getD 0
    actionProc := stage.actionProc.map fun pair => (pair.1, (procProc pair.2).getD 0) }

/-! ### Tables -/

def switchTables (tables : TableManager) (stage : Stage) : Option (List Int) :=
  (stage.definition.matcher.switchEntries.filterMap fun entry =>
    match entry.value with
    | .table name => some name
    | _ => none).mapM fun name => (tables.lookupName name).map Table.tableId

def generateTables (tables : TableManager) (stages : List Stage) : Option (List Stage) :=
  stages.mapM fun stage => do
    return { stage with tableId := stage.tableId ++ (← switchTables tables stage) }

def initializeStages (tables : TableManager) (state : StageState) : Option StageState := do
  let (state, gotoMap) ← removeStages (fillActionProc state)
  let (logicalStages, reorderMap) ← reorderMap gotoMap state.stages.logicalStages
  let logicalStages ← generateTables tables (reorderStages logicalStages reorderMap)
  return { state with stages := { state.stages with logicalStages } }

end ProcessorManager

/-! ### Gateways -/

namespace GatewayManager

/-- The matcher id of a table entry is written by `setupStages`. -/
def makeGatewayEntry (stages : StageManager) (tables : TableManager) : SwitchValue → Option GatewayEntry
  | .table name => do
      let table ← tables.lookupName name
      return .table table.tableId 0
  | .stage name => do
      let stage ← stages.lookupName name
      return .stage stage.stageId
  | .none => some (.stage (-1))

/-- The gateways of all stages, removed ones included; each stage is given the id of its own. -/
def load (headers : HeaderLookup) (stages : StageManager) (tables : TableManager) :
    Option (StageManager × List Gateway) := do
  let gateways ← stages.logicalStages.mapM fun stage =>
    loadGateway headers (makeGatewayEntry stages tables) stage.definition.matcher
  let logicalStages := stages.logicalStages.zipIdx.map fun (stage, gatewayId) => { stage with gatewayId }
  return ({ stages with logicalStages }, gateways)

end GatewayManager

def GatewayEntry.setMatcherId (entry : GatewayEntry) (tableId matcherId : Int) : GatewayEntry :=
  match entry with
  | .table ownId ownMatcher => if ownId = tableId then .table ownId matcherId else .table ownId ownMatcher
  | .stage stageId => .stage stageId

def NextTable.setMatcherId (table : NextTable) (tableId matcherId : Int) : NextTable :=
  { defaultEntry := table.defaultEntry.map fun entry => entry.setMatcherId tableId matcherId
    entries := table.entries.map fun entry => (entry.1, entry.2.setMatcherId tableId matcherId) }

/-- One table of a stage. -/
def setupTable (stage : Stage) (state : TableManager × List Gateway) (tableId : Int) (matcherId : Nat) :
    TableManager × List Gateway :=
  (state.1.setMatcherId tableId stage.stageId matcherId stage.actionProc,
    state.2.modify stage.gatewayId fun gateway =>
      { gateway with nextTable := gateway.nextTable.setMatcherId tableId matcherId })

def setupStages (stages : List Stage) (state : TableManager × List Gateway) : TableManager × List Gateway :=
  stages.foldl (fun state stage =>
    stage.tableId.zipIdx.foldl (fun state (tableId, matcherId) => setupTable stage state tableId matcherId)
      state) state

end Ipbm.Compiler
