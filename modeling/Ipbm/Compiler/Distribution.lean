import Ipbm.Compiler.ProcessorManager
import Ipbm.Lib.OrderedMap

/-! Distribution of the parser levels over the stages (`ipsa_distribution.h`). -/

set_option autoImplicit false

namespace Ipbm.Compiler
open Lib Dataplane

structure ParserTcamEntry where
  currentState : Int
  entry : Int
  mask : Int
  deriving DecidableEq, Repr

structure ParserSramEntry where
  headerId : Int
  headerLength : Int
  nextState : Int
  transitionFields : List HeaderField
  acceptDrop : Int
  deriving DecidableEq, Repr

structure LevelEntry where
  parserTcamEntry : ParserTcamEntry
  parserSramEntry : ParserSramEntry
  deriving DecidableEq, Repr

abbrev Level : Type := List LevelEntry

/-- Lists of ids by id, in the order of the keys. -/
abbrev IdTable : Type := OrderedMap Int (List Int)

namespace Distribution

/-- `push_back` of what is not in the list yet. -/
def pushNew (items : List Int) (item : Int) : List Int :=
  if item ∈ items then items else items ++ [item]

/-- A missing key is created with no items. -/
def IdTable.push (table : IdTable) (key item : Int) : IdTable :=
  table.alter key fun items => items.getD [] ++ [item]

/-- The converse of a table, over the keys that are listed already. -/
def converse (last : IdTable) (next : IdTable) : IdTable :=
  next.foldl (fun last entry => entry.2.foldl (fun last target => IdTable.push last target entry.1) last) last

/-- `in_degree[key]--`. -/
def decrement (inDegree : OrderedMap Int Int) (key : Int) : OrderedMap Int Int :=
  inDegree.alter key fun degree => degree.getD 0 - 1

/-- One round: the first key without predecessors is taken. Without one, `at(-1)` throws. -/
def sortStep (next : IdTable) (state : OrderedMap Int Int × List Int) :
    Option (OrderedMap Int Int × List Int) := do
  let (inDegree, sequence) := state
  let taken := ((inDegree.find? fun entry => entry.2 = 0).map Prod.fst).getD (-1)
  let inDegree := inDegree.alter taken fun _ => -1
  let targets ← next.find taken
  return (targets.foldl decrement inDegree, sequence ++ [taken])

def topologicalSort (last next : IdTable) : Option (List Int) := do
  let inDegree := last.map fun entry => (entry.1, (entry.2.length : Int))
  let (_, sequence) ← (List.range last.length).foldlM (fun state _ => sortStep next state) (inDegree, [])
  return sequence

/-! ### Levels -/

def transitions (level : Level) : List ParserSramEntry :=
  (level.map LevelEntry.parserSramEntry).filter fun entry => 2 ≤ entry.acceptDrop

/-- The levels that extract each header, by header id. -/
def headerLevel (levels : List Level) (headerId : Int) : List Int :=
  levels.zipIdx.foldl (fun found (level, levelId) =>
    (transitions level).foldl (fun found entry =>
      if entry.headerId = headerId then pushNew found levelId else found) found) []

def levelNextTable (levels : List Level) : IdTable :=
  levels.zipIdx.map fun (level, levelId) =>
    ((levelId : Int), (transitions level).foldl (fun targets entry => pushNew targets entry.nextState) [])

def emptyTable (table : IdTable) : IdTable := table.map fun entry => (entry.1, [])

def levelLastTable (levels : List Level) : IdTable :=
  converse (emptyTable (levelNextTable levels)) (levelNextTable levels)

/-- Every level with the levels before it. `level_level[level_id]` of a level that does not exist
is created empty; the lists it is read from must exist. -/
def levelLevel (levels : List Level) (sequence : List Int) : Option IdTable :=
  sequence.foldlM (fun table levelId => do
    let table := table.alter levelId fun items => items.getD []
    let preds ← (levelLastTable levels).find levelId
    preds.foldlM (fun table pred => do
      let items ← table.find pred
      return items.foldl (fun table level => table.alter levelId fun own =>
        pushNew (own.getD []) level) table)
      table)
    (levels.zipIdx.map fun (_, levelId) => ((levelId : Int), [(levelId : Int)]))

/-! ### Stages -/

/-- The levels a stage needs. A header that is not declared is a null pointer. -/
def stageLevels (getHeader : String → Option Int) (levels : List Level) (levelLevel : IdTable)
    (stage : Stage) : Option (List Int) :=
  stage.definition.parser.foldlM (fun needed name => do
    let headerId ← getHeader name
    return (headerLevel levels headerId).foldl (fun needed levelId =>
      ((levelLevel.find levelId).getD []).foldl pushNew needed) needed) []

def liveStages (stages : List Stage) : List Stage := stages.filter fun stage => !stage.removed

def procLevel (getHeader : String → Option Int) (levels : List Level) (levelLevel : IdTable)
    (stages : List Stage) : Option IdTable :=
  (liveStages stages).foldlM (fun table stage => do
    return table.insert stage.stageId (← stageLevels getHeader levels levelLevel stage)) []

def nextTable (stages : List Stage) : IdTable :=
  (liveStages stages).foldl (fun table stage =>
    table.insert stage.stageId
      ((stage.actionProc.filter fun pair => 0 ≤ pair.2).foldl
        (fun targets pair => pushNew targets pair.2) []))
    []

def lastTable (stages : List Stage) : IdTable :=
  converse (emptyTable (nextTable stages)) (nextTable stages)

/-- The levels a stage adds, and all levels parsed at its end. -/
def distributeStage (last needed : IdTable) (total : Int → List Int) (procId : Int) : List Int × List Int :=
  match (last.find procId).getD [] with
  | [] => ((needed.find procId).getD [], (needed.find procId).getD [])
  | pred :: others =>
      let inherited := (total pred).filter fun level => others.all fun other => level ∈ total other
      ((needed.find procId).getD []).foldl (fun (added, total) level =>
        if level ∈ total then (added, total) else (added ++ [level], total ++ [level])) ([], inherited)

/-- `insert` leaves an entry that is there. -/
def distributeLevels (last needed : IdTable) (sequence : List Int) : IdTable :=
  (sequence.foldl (fun (distributed, (total : IdTable)) procId =>
    let result := distributeStage last needed (fun id => (total.find id).getD []) procId
    (distributed.insert procId result.1, total.insert procId result.2)) (([], []) : IdTable × IdTable)).1

/-- The order `std::sort` is called with. -/
def before (sequence : List Int) (x y : Int) : Bool :=
  match sequence.find? fun z => z = x || z = y with
  | some z => z = x
  | none => true

end Distribution

/-- The result of the pass: the levels of each stage and the order of the stages. -/
structure DistributionResult where
  distributedLevels : IdTable
  topoSequence : List Int
  deriving DecidableEq, Repr

open Distribution in
/-- `sort` is `std::sort` with a comparison. -/
def distributeParsers (sort : (Int → Int → Bool) → List Int → List Int) (getHeader : String → Option Int)
    (levels : List Level) (stages : List Stage) : Option DistributionResult := do
  let levelTopological ← topologicalSort (levelLastTable levels) (levelNextTable levels)
  let levelLevel ← levelLevel levels levelTopological
  let needed ← procLevel getHeader levels levelLevel stages
  let topoSequence ← topologicalSort (lastTable stages) (nextTable stages)
  return {
    distributedLevels := (distributeLevels (lastTable stages) needed topoSequence).map fun entry =>
      (entry.1, sort (before levelTopological) entry.2)
    topoSequence }

end Ipbm.Compiler
