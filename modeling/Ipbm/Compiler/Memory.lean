import Ipbm.Compiler.Distribution

/-! Memory of a full compile (`ipsa_memory.h`): stages are placed on processors in
topological order, cluster by cluster, and the tables of the placed stages are
then given their blocks in the order of declaration. -/

set_option autoImplicit false

namespace Ipbm.Compiler
open Lib IpsaConfiguration

/-- Numbers of SRAM and TCAM blocks. -/
structure Space where
  sram : Int
  tcam : Int
  deriving DecidableEq, Repr

namespace Space

def zero : Space := ⟨0, 0⟩

def add (first second : Space) : Space :=
  ⟨wrapInt (first.sram + second.sram), wrapInt (first.tcam + second.tcam)⟩

def sub (first second : Space) : Space :=
  ⟨wrapInt (first.sram - second.sram), wrapInt (first.tcam - second.tcam)⟩

end Space

/-- Numbers of blocks that are given out; they only grow. -/
structure Counters where
  sram : Nat
  tcam : Nat
  deriving DecidableEq, Repr

namespace Counters

def zero : Counters := ⟨0, 0⟩

def add (first second : Counters) : Counters := ⟨first.sram + second.sram, first.tcam + second.tcam⟩

end Counters

/-- Width times depth; without keys neither has a value. -/
def TableMemory.size (memory : TableMemory) : Option Int := do
  let width ← memory.width
  let depth ← memory.depth
  return width * depth

/-- The product as it is computed. -/
def TableMemory.blockCount (memory : TableMemory) : Option Int := memory.size.map wrapInt

def Table.space (table : Table) : Option Space := do
  let key ← table.keyMemory.blockCount
  let value ← table.valueMemory.blockCount
  return if table.keyMemory.type = .sram then ⟨wrapInt (key + value), 0⟩ else ⟨value, key⟩

namespace Memory

/-- The space of every table, by table id. -/
def tableSpace (tables : TableManager) : Option (Int → Space) := do
  let spaces ← tables.mapM fun entry => do return (entry.2.tableId, ← entry.2.space)
  return fun tableId => ((spaces.find? fun entry => entry.1 = tableId).map Prod.snd).getD .zero

def stageSpace (tableSpace : Int → Space) (stage : Stage) : Space :=
  stage.tableId.foldl (fun space tableId => space.add (tableSpace tableId)) .zero

/-- The space of every stage that is not removed, by stage id; the first of an id counts. -/
def procSpace (tableSpace : Int → Space) (stages : List Stage) (stageId : Int) : Space :=
  (((Distribution.liveStages stages).find? fun stage => stage.stageId = stageId).map
    (stageSpace tableSpace)).getD .zero

/-! ### Placement -/

structure Placement where
  clusterSpace : List Space
  clusterProc : List (List Int)
  physicalProcId : List Int
  deriving DecidableEq, Repr

def emptyPlacement : Placement where
  clusterSpace := List.replicate clusterCount ⟨clusterSramCount, clusterTcamCount⟩
  clusterProc := List.replicate clusterCount []
  physicalProcId := List.replicate procCount (-1)

def fits (placement : Placement) (need : Space) (cluster : Nat) : Bool :=
  (placement.clusterProc.getD cluster []).length < clusterProcCount &&
    need.sram ≤ (placement.clusterSpace.getD cluster .zero).sram &&
    need.tcam ≤ (placement.clusterSpace.getD cluster .zero).tcam

/-- The first cluster with room takes the stage; without one an error is printed and the stage
is left out. -/
def placeStage (need : Int → Space) (placement : Placement) (stageId : Int) : Placement :=
  match (List.range clusterCount).find? (fits placement (need stageId)) with
  | none => placement
  | some cluster =>
      let target := cluster * clusterProcCount + (placement.clusterProc.getD cluster []).length
      { clusterSpace := placement.clusterSpace.modify cluster fun space => space.sub (need stageId)
        clusterProc := placement.clusterProc.modify cluster fun procs => procs ++ [stageId]
        physicalProcId := placement.physicalProcId.set target stageId }

def placeStages (need : Int → Space) (sequence : List Int) : Placement :=
  sequence.foldl (placeStage need) emptyPlacement

/-! ### Configuration -/

/-- The cluster of a stage; a stage that is not placed reads as cluster zero. -/
def procCluster (physicalProcId : List Int) (stageId : Int) : Nat :=
  ((physicalProcId.findIdx? fun id => 0 ≤ id && id == stageId).map (· / clusterProcCount)).getD 0

/-- `count` block numbers from a counter on. -/
def nextBlocks (counter count : Nat) : List Int := (List.range' counter count).map Int.ofNat

/-- The blocks of one table, behind the counters of its cluster. A number below zero gives none. -/
def configureTable (used : Counters) (table : Table) : Option (Table × Counters) := do
  let key := (← table.keyMemory.blockCount).toNat
  let value := (← table.valueMemory.blockCount).toNat
  let (keyBlocks, used) :=
    if table.keyMemory.type = .tcam then
      (nextBlocks used.tcam key, { used with tcam := used.tcam + key })
    else
      (nextBlocks used.sram key, { used with sram := used.sram + key })
  return ({ table with
      keyMemory.config := table.keyMemory.config ++ keyBlocks
      valueMemory.config := table.valueMemory.config ++ nextBlocks used.sram value },
    { used with sram := used.sram + value })

def configureRef (state : TableManager × List Counters) (ref : Nat × Int) :
    Option (TableManager × List Counters) := do
  let table ← state.1.lookupId ref.2
  let (configured, used) ← configureTable (state.2.getD ref.1 .zero) table
  return (state.1.update ref.2 fun _ => configured, state.2.set ref.1 used)

/-- The tables of the stages that are not removed, each with its cluster, in the order of
declaration. -/
def tableRefs (stages : List Stage) (physicalProcId : List Int) : List (Nat × Int) :=
  (Distribution.liveStages stages).flatMap fun stage =>
    stage.tableId.map fun tableId => (procCluster physicalProcId stage.stageId, tableId)

end Memory

structure MemoryResult where
  tables : TableManager
  physicalProcId : List Int
  deriving DecidableEq, Repr

open Memory in
def allocateMemory (tables : TableManager) (stages : List Stage) (topoSequence : List Int) :
    Option MemoryResult := do
  let space ← tableSpace tables
  let placement := placeStages (procSpace space stages) topoSequence
  let (tables, _) ← (tableRefs stages placement.physicalProcId).foldlM configureRef
    (tables, List.replicate clusterCount Counters.zero)
  return ⟨tables, placement.physicalProcId⟩

end Ipbm.Compiler
