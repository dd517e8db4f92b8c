import Ipbm.Compiler.Builder
import Mathlib.Data.List.Sort

/-! Memory of an incremental compile (`IpsaBuilder::allocateMemory(prev)` of
`ipsa_builder.h`). A table that the previous program had keeps its blocks, and so
its stage has to stay in the cluster these are in. -/

set_option autoImplicit false

namespace Ipbm.Compiler
open Lib IpsaConfiguration

/-- Why there is no incremental update: the function returns false, or it reads outside of an array. -/
inductive Failure where
  | refused | undefined
  deriving DecidableEq, Repr

/-- The blocks of a cluster that are in use. -/
structure Bitmap where
  tcam : List Bool
  sram : List Bool
  deriving DecidableEq, Repr

/-- The map of the processors has an entry only where a stage was written. -/
structure IncrementalResult where
  tables : TableManager
  physicalProcId : List (Option Int)
  deriving DecidableEq, Repr

namespace Incremental

/-- The tables in the order a map with their names visits them. -/
def byName (tables : TableManager) : TableManager :=
  tables.insertionSort fun first second => first.1 ≤ second.1

/-! ### Clusters of the stages -/

/-- A stage has no cluster at first; what is not a stage reads as zero. -/
def initialCluster (topoSequence : List Int) (stageId : Int) : Int :=
  if stageId ∈ topoSequence then -1 else 0

def clusterOf (table : Table) : Int := table.procId.tdiv clusterProcCount

/-- A table of the previous program binds its stage. -/
def fixCluster (prev : TableManager) (procCluster : Int → Int) (entry : String × Table) :
    Except Failure (Int → Int) :=
  match prev.lookupName entry.1 with
  | none => .ok procCluster
  | some prevTable =>
      if 0 ≤ procCluster entry.2.procId then
        if procCluster entry.2.procId = clusterOf prevTable then .ok procCluster else .error .refused
      else
        .ok (Function.update procCluster entry.2.procId (clusterOf prevTable))

/-! ### Placement -/

structure Placement where
  clusterSpace : List Space
  clusterProc : List (List Int)
  physicalProcId : List (Option Int)
  deriving DecidableEq, Repr

def emptyPlacement : Placement where
  clusterSpace := List.replicate clusterCount ⟨clusterSramCount, clusterTcamCount⟩
  clusterProc := List.replicate clusterCount []
  physicalProcId := List.replicate procCount none

def fits (placement : Placement) (need : Space) (cluster : Nat) : Bool :=
  (placement.clusterProc.getD cluster []).length < clusterProcCount &&
    need.sram ≤ (placement.clusterSpace.getD cluster .zero).sram &&
    need.tcam ≤ (placement.clusterSpace.getD cluster .zero).tcam

/-- A stage with a cluster. -/
def placeFixed (need : Int → Space) (procCluster : Int → Int) (placement : Placement) (stageId : Int) :
    Except Failure Placement :=
  if procCluster stageId < 0 then
    .ok placement
  else
    let cluster := (procCluster stageId).toNat
    if clusterCount ≤ cluster then
      .error .undefined
    else if fits placement (need stageId) cluster then
      let target := cluster * clusterProcCount + (placement.clusterProc.getD cluster []).length
      .ok {
        clusterSpace := placement.clusterSpace.modify cluster fun space => space.sub (need stageId)
        clusterProc := placement.clusterProc.modify cluster fun procs => procs ++ [stageId]
        physicalProcId := placement.physicalProcId.set target (some stageId) }
    else
      .error .refused

/-- A stage without a cluster. The loop over the clusters declares a `target` of its own, and the one
that is tested after the loop is still -1. -/
def placeDynamic (procCluster : Int → Int) (stageId : Int) : Except Failure Unit :=
  if procCluster stageId < 0 then .error .refused else .ok ()

/-! ### Blocks -/

def emptyBitmap : Bitmap where
  tcam := List.replicate clusterTcamCount false
  sram := List.replicate clusterSramCount false

def mark (bits : List Bool) (block : Int) : Except Failure (List Bool) :=
  if 0 ≤ block ∧ block < bits.length then .ok (bits.set block.toNat true) else .error .undefined

def markTcam (bitmap : Bitmap) (block : Int) : Except Failure Bitmap := do
  return { bitmap with tcam := ← mark bitmap.tcam block }

def markSram (bitmap : Bitmap) (block : Int) : Except Failure Bitmap := do
  return { bitmap with sram := ← mark bitmap.sram block }

def addConfig (table : Table) (key value : List Int) : Table :=
  { table with
    keyMemory.config := table.keyMemory.config ++ key
    valueMemory.config := table.valueMemory.config ++ value }

/-- The blocks of the previous table, whatever the table is declared with now. -/
def copyTable (prevTable table : Table) (bitmap : Bitmap) : Except Failure (Table × Bitmap) := do
  let markKey := if prevTable.keyMemory.type = .tcam then markTcam else markSram
  let bitmap ← prevTable.keyMemory.config.foldlM markKey bitmap
  let bitmap ← prevTable.valueMemory.config.foldlM markSram bitmap
  return (addConfig table prevTable.keyMemory.config prevTable.valueMemory.config, bitmap)

def firstFree (bits : List Bool) : Option Nat := bits.findIdx? fun bit => !bit

def takeTcam (bitmap : Bitmap) : Except Failure (Option Int × Bitmap) :=
  match firstFree bitmap.tcam with
  | none => .ok (none, bitmap)
  | some block => do return (some block, ← markTcam bitmap block)

/-- The block is looked for in the SRAM bits and marked in the TCAM bits. -/
def takeSram (bitmap : Bitmap) : Except Failure (Option Int × Bitmap) :=
  match firstFree bitmap.sram with
  | none => .ok (none, bitmap)
  | some block => do return (some block, ← markTcam bitmap block)

/-- Without a free block none is added. -/
def takeBlocks (take : Bitmap → Except Failure (Option Int × Bitmap)) :
    Nat → Bitmap → Except Failure (List Int × Bitmap)
  | 0, bitmap => .ok ([], bitmap)
  | count + 1, bitmap => do
      let (block, bitmap) ← take bitmap
      let (blocks, bitmap) ← takeBlocks take count bitmap
      return (block.toList ++ blocks, bitmap)

def newTable (table : Table) (bitmap : Bitmap) : Except Failure (Table × Bitmap) :=
  match table.keyMemory.blockCount, table.valueMemory.blockCount with
  | some key, some value => do
      let takeKey := if table.keyMemory.type = .tcam then takeTcam else takeSram
      let (keyBlocks, bitmap) ← takeBlocks takeKey key.toNat bitmap
      let (valueBlocks, bitmap) ← takeBlocks takeSram value.toNat bitmap
      return (addConfig table keyBlocks valueBlocks, bitmap)
  | _, _ => .error .undefined

def existingTable (prev : TableManager) (entry : String × Table) (bitmap : Bitmap) :
    Except Failure (Table × Bitmap) :=
  match prev.lookupName entry.1 with
  | some prevTable => copyTable prevTable entry.2 bitmap
  | none => .ok (entry.2, bitmap)

def otherTable (prev : TableManager) (entry : String × Table) (bitmap : Bitmap) :
    Except Failure (Table × Bitmap) :=
  match prev.lookupName entry.1 with
  | some _ => .ok (entry.2, bitmap)
  | none => newTable entry.2 bitmap

/-- Both loops over the tables bind the bitmap of a table's cluster before they look at the table. -/
def visitTables (procCluster : Int → Int)
    (visit : String × Table → Bitmap → Except Failure (Table × Bitmap)) :
    TableManager → List Bitmap → Except Failure (TableManager × List Bitmap)
  | [], bitmaps => .ok ([], bitmaps)
  | entry :: rest, bitmaps =>
      let cluster := procCluster entry.2.procId
      match bitmaps[cluster.toNat]? with
      | none => .error .undefined
      | some bitmap =>
          if cluster < 0 then
            .error .undefined
          else do
            let (table, bitmap) ← visit entry bitmap
            let (rest, bitmaps) ← visitTables procCluster visit rest (bitmaps.set cluster.toNat bitmap)
            return ((entry.1, table) :: rest, bitmaps)

open Memory in
/-- The result of a call that returns true. -/
def allocateMemory (prev tables : TableManager) (stages : List Stage) (topoSequence : List Int) :
    Except Failure IncrementalResult :=
  match tableSpace tables with
  | none => .error .undefined
  | some space => do
      let procCluster ← (byName tables).foldlM (fixCluster prev) (initialCluster topoSequence)
      let placement ← topoSequence.foldlM (placeFixed (procSpace space stages) procCluster) emptyPlacement
      topoSequence.forM (placeDynamic procCluster)
      let (tables, bitmaps) ← visitTables procCluster (existingTable prev) (byName tables)
        (List.replicate clusterCount emptyBitmap)
      let (tables, _) ← visitTables procCluster (otherTable prev) tables bitmaps
      return ⟨tables, placement.physicalProcId⟩

end Incremental

end Ipbm.Compiler
