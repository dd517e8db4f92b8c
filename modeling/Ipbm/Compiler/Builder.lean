import Ipbm.Compiler.Memory

/-! The builder (`ipsa_builder.h`): a program is loaded, and the placed stages
become the processors of the configuration. -/

set_option autoImplicit false

namespace Ipbm.Compiler
open Lib Dataplane IpsaConfiguration

/-- A program after `load`. The levels are those of the level manager. -/
structure Program where
  levels : List Level
  actions : ActionManager
  tables : TableManager
  stages : StageManager
  gateways : List Gateway

def load (headers : HeaderLookup) (levels : List Level) (ast : Ast) : Option Program := do
  let actions ← ActionManager.load headers ast
  let tables ← TableManager.load headers actions ast
  let state ← ProcessorManager.initializeStages tables ⟨StageManager.load ast, actions⟩
  let (stages, gateways) ← GatewayManager.load headers state.stages tables
  let (tables, gateways) := setupStages stages.logicalStages (tables, gateways)
  return { levels, actions := state.actions, tables, stages, gateways }

/-- A pointer to the gateway of a stage, or a gateway of a parser-only processor, which has only
a default entry. -/
inductive GatewayRef where
  | stage (gatewayId : Nat)
  | own (entry : GatewayEntry)
  deriving DecidableEq, Repr

/-- Tables and actions are pointers as well, and so ids here. -/
structure Processor where
  id : Int
  levels : List Level := []
  gateway : Option GatewayRef := none
  matcher : List Int := []
  executor : List Int := []
  deriving DecidableEq, Repr

abbrev Processors : Type := List (Option Processor)

namespace Builder

/-- The levels of a stage in runs of `maxLevel`. -/
def chunks (levels : List Level) : List (List Level) :=
  (List.range ((levels.length + (maxLevel - 1)) / maxLevel)).map fun index =>
    (levels.drop (index * maxLevel)).take maxLevel

/-- The first processor that neither holds nor will hold anything. -/
def freeProcessor (physicalProcId : List Int) (processors : Processors) : Option Nat :=
  (List.range procCount).find? fun index =>
    decide ((processors.getD index none).isNone ∧ physicalProcId.getD index 0 < 0)

def pushLevels (processors : Processors) (target : Nat) (levels : List Level) : Processors :=
  processors.modify target fun processor =>
    processor.map fun processor => { processor with levels := processor.levels ++ levels }

/-- All runs but the last get a parser-only processor; the last one stays with the stage, as do
the runs no processor is left for. -/
def placeChunks (physicalProcId : List Int) (own : Nat) (stageId : Int) :
    List (List Level) → Processors × Int → Processors × Int
  | [], state => state
  | [last], (processors, extraId) => (pushLevels processors own last, extraId)
  | chunk :: next :: rest, (processors, extraId) =>
      match freeProcessor physicalProcId processors with
      | none =>
          placeChunks physicalProcId own stageId (next :: rest) (pushLevels processors own chunk, extraId)
      | some target =>
          let nextId := if rest = [] then stageId else extraId + 1
          placeChunks physicalProcId own stageId (next :: rest)
            (processors.set target
              (some { id := extraId, levels := chunk, gateway := some (.own (.stage nextId)) }),
              extraId + 1)

/-- Processor `index`, when a stage is placed on it. -/
def buildProcessor (program : Program) (distributedLevels : IdTable) (physicalProcId : List Int)
    (state : Processors × Int) (index : Nat) : Option (Processors × Int) := do
  let stageId ← physicalProcId[index]?
  if stageId < 0 then
    return state
  else
    let stage ← program.stages.lookupId stageId
    let levels ← ((distributedLevels.find stageId).getD []).mapM fun levelId =>
      if 0 ≤ levelId then program.levels[levelId.toNat]? else none
    let (processors, extraId) := placeChunks physicalProcId index stageId (chunks levels)
      (state.1.set index (some { id := stageId }), state.2)
    return (processors.modify index fun processor => processor.map fun processor => { processor with
        gateway := some (.stage stage.gatewayId)
        matcher := stage.tableId
        executor := stage.actionProc.map Prod.fst },
      extraId)

/-- The first id no stage has. -/
def extraProcessorId (topoSequence : List Int) : Int := topoSequence.foldl max 0 + 1

def buildProcessors (program : Program) (distribution : DistributionResult) (physicalProcId : List Int) :
    Option Processors := do
  let (processors, _) ← (List.range procCount).foldlM
    (buildProcessor program distribution.distributedLevels physicalProcId)
    (List.replicate procCount none, extraProcessorId distribution.topoSequence)
  return processors

/-- The physical position of every id; the first of an id counts. -/
def procProc (processors : Processors) : Int → Option Int :=
  processors.zipIdx.foldl (fun map (processor, index) =>
    match processor with
    | some processor => ProcessorManager.insertNew map processor.id index
    | none => map) (ProcessorManager.insertNew (fun _ => none) (-1) (-1))

end Builder

def GatewayEntry.setNextId (procProc : Int → Option Int) : GatewayEntry → GatewayEntry
  | .stage stageId => .stage ((procProc stageId).getD stageId)
  | .table tableId matcherId => .table tableId matcherId

/-- The default pointer is followed: where it is a copy of the first entry's, that entry changes. -/
def NextTable.setDefaultNextId (procProc : Int → Option Int) (table : NextTable) : NextTable :=
  match table.defaultEntry, table.entries with
  | some entry, _ => { table with defaultEntry := some (entry.setNextId procProc) }
  | none, (key, entry) :: rest => { table with entries := (key, entry.setNextId procProc) :: rest }
  | none, [] => table

namespace Builder

/-- The default entry behind the gateway of one processor. -/
def renameDefault (procProc : Int → Option Int) (gateways : List Gateway) (processor : Processor) :
    Processor × List Gateway :=
  match processor.gateway with
  | some (.stage gatewayId) =>
      (processor, gateways.modify gatewayId fun gateway =>
        { gateway with nextTable := gateway.nextTable.setDefaultNextId procProc })
  | some (.own entry) => ({ processor with gateway := some (.own (entry.setNextId procProc)) }, gateways)
  | none => (processor, gateways)

def renameDefaults (procProc : Int → Option Int) :
    Processors → List Gateway → Processors × List Gateway
  | [], gateways => ([], gateways)
  | none :: rest, gateways =>
      let (rest, gateways) := renameDefaults procProc rest gateways
      (none :: rest, gateways)
  | some processor :: rest, gateways =>
      let (processor, gateways) := renameDefault procProc gateways processor
      let (rest, gateways) := renameDefaults procProc rest gateways
      (some processor :: rest, gateways)

end Builder

/-- The builder after `allocateProcessors`. -/
structure Ipsa where
  processors : Processors
  actions : ActionManager
  tables : TableManager
  stages : List Stage
  gateways : List Gateway

open Builder in
def allocateProcessors (program : Program) (distribution : DistributionResult) (memory : MemoryResult) :
    Option Ipsa := do
  let processors ← buildProcessors program distribution memory.physicalProcId
  let procProc := procProc processors
  let (processors, gateways) := renameDefaults procProc processors program.gateways
  return {
    processors, gateways
    actions := program.actions
    tables := memory.tables.reorderStages procProc
    stages := ProcessorManager.reorderStages program.stages.logicalStages procProc }

/-! ### The emitted configuration -/

structure ProcessorDoc where
  id : Int
  levels : List Level
  gateway : GatewayDoc
  matcher : List Table
  executor : List Action

def gatewayDoc (gateways : List Gateway) : GatewayRef → Option GatewayDoc
  | .stage gatewayId => do (← gateways[gatewayId]?).toIpsaValue
  | .own entry => some { expressions := [], default := entry.toGateEntry, entries := [] }

def Ipsa.processorDoc (ipsa : Ipsa) (processor : Processor) : Option ProcessorDoc := do
  let gateway ← gatewayDoc ipsa.gateways (← processor.gateway)
  let matcher ← processor.matcher.mapM ipsa.tables.lookupId
  let executor ← processor.executor.mapM ipsa.actions.lookupId
  return { id := processor.id, levels := processor.levels, gateway, matcher, executor }

/-- `processor_0` and so on; a processor without a stage is null. -/
def Ipsa.toIpsaValue (ipsa : Ipsa) : Option (List (Option ProcessorDoc)) :=
  ipsa.processors.mapM fun processor =>
    match processor with
    | none => some none
    | some processor => (ipsa.processorDoc processor).map some

/-- A full compile. -/
def compile (sort : (Int → Int → Bool) → List Int → List Int) (headers : HeaderLookup)
    (getHeader : String → Option Int) (levels : List Level) (ast : Ast) :
    Option (List (Option ProcessorDoc)) := do
  let program ← load headers levels ast
  let distribution ← distributeParsers sort getHeader levels program.stages.logicalStages
  let memory ← allocateMemory program.tables program.stages.logicalStages distribution.topoSequence
  (← allocateProcessors program distribution memory).toIpsaValue

end Ipbm.Compiler
