import Ipbm.Dataplane.Matcher
import Ipbm.Dataplane.Parser

/-! Processors and the pipeline (`dataplane/processor.h`, `dataplane/pipeline.h`),
with the configuration requests they serve (`api/dataplane_server.h`). -/

set_option autoImplicit false

namespace Ipbm.Dataplane
open Lib

structure Processor where
  parser : Parser := .fresh
  gateway : Gateway := .fresh
  matcher : Matcher
  exe : Executor := .fresh

def Processor.fresh (procId : Nat) : Processor := { matcher := .fresh procId }

/-- An action the map does not list reads as processor zero. -/
def MatcherThread.nextProc (thread : MatcherThread) (actionId : Int) : Int :=
  (thread.actionProcMap actionId).getD 0

def Processor.processPacket (memory : Memory) (scratch : Nat → UInt8) (processor : Processor)
    (phv : Phv) : Option Phv := do
  let phv ← processor.parser.parse phv
  if phv.nextProcId = -1 then
    return phv
  else
    let phv ← processor.gateway.execute phv
    match phv.nextOp.type with
    | .stage => return { phv with nextProcId := phv.nextOp.val }
    | .table => do
        let phv ← processor.matcher.execute memory scratch phv.nextOp.val phv
        let thread ← processor.matcher.thread phv.nextOp.val
        processor.exe.execute { phv with nextProcId := thread.nextProc phv.nextActionId }

structure Pipeline where
  procs : List Processor
  metaInfos : List HeaderInfo := []
  memory : Memory := .fresh

namespace Pipeline

def fresh : Pipeline := { procs := (List.range procNum).map Processor.fresh }

/-- What `execute` has come to after some turns of its loop. -/
inductive Progress where
  | done (phv : Phv)
  | running (phv : Phv)
  | undefined

/-- `procs[proc_id]`, for any integer. -/
def proc (pipeline : Pipeline) (procId : Int) : Option Processor :=
  if procId < 0 then none else pipeline.procs[procId.toNat]?

/-- One turn for a packet that has a next processor. -/
def step (pipeline : Pipeline) (scratch : Nat → UInt8) (phv : Phv) : Option Phv := do
  let processor ← pipeline.proc phv.nextProcId
  processor.processPacket pipeline.memory scratch phv

/-- The loop of `execute`, cut off after `fuel` turns. Every turn allocates its own `scratch`. -/
def execute (pipeline : Pipeline) (scratch : Nat → Nat → UInt8) : Nat → Phv → Progress
  | fuel, phv =>
      if phv.nextProcId = -1 then
        .done phv
      else
        match fuel with
        | 0 => .running phv
        | fuel + 1 =>
            match pipeline.step (scratch fuel) phv with
            | none => .undefined
            | some phv => execute pipeline scratch fuel phv

/-! ### Configuration -/

/-- A change of processor `procId`. -/
def atProc (pipeline : Pipeline) (procId : Int) (change : Processor → Option Processor) :
    Option Pipeline := do
  if procId < 0 then none else
    let processor ← pipeline.procs[procId.toNat]?
    return { pipeline with procs := pipeline.procs.set procId.toNat (← change processor) }

theorem atProc_eq {pipeline : Pipeline} {procId : Nat} {processor next : Processor}
    {change : Processor → Option Processor} (found : pipeline.procs[procId]? = some processor)
    (changed : change processor = some next) :
    pipeline.atProc procId change = some { pipeline with procs := pipeline.procs.set procId next } := by
  simp [atProc, found, changed]

/-- A change of the matcher thread `matcherId`, which may clear memory. -/
def atThread (pipeline : Pipeline) (procId matcherId : Int)
    (change : Memory → MatcherThread → Option (Memory × MatcherThread)) : Option Pipeline := do
  if procId < 0 ∨ matcherId < 0 then none else
    let processor ← pipeline.procs[procId.toNat]?
    let thread ← processor.matcher[matcherId.toNat]?
    let (memory, thread) ← change pipeline.memory thread
    return { pipeline with
      memory
      procs := pipeline.procs.set procId.toNat
        { processor with matcher := processor.matcher.set matcherId.toNat thread } }

/-- The arguments of `set_mem_config` and the requests it is sent with. -/
structure MemConfig where
  keyWidth : Nat
  valueWidth : Nat
  depth : Nat
  keyConfig : List UInt8
  valueConfig : List UInt8
  matchType : MatchType
  missActId : Int
  deriving DecidableEq, Repr

def setMemConfig (config : MemConfig) (memory : Memory) (thread : MatcherThread) :
    Option (Memory × MatcherThread) := do
  let (memory, thread) ← thread.clearOldConfig memory
  let thread ← (thread.initMatchType config.matchType).setMemConfig config.keyWidth config.valueWidth
    config.depth config.keyConfig config.valueConfig
  return (memory, thread.setMissActId config.missActId)

end Pipeline

inductive Request where
  | setMetadata (headerInfos : List HeaderInfo)
  | initParserLevel (procId : Int) (parserLevel : Nat)
  | modParserEntry (procId : Int) (parserLevel : Nat) (entry : ParserEntry)
  | clearParser (procId : Int)
  | gateway (procId : Int) (request : GatewayRequest)
  | setMemConfig (procId matcherId : Int) (config : Pipeline.MemConfig)
  | setActionProc (procId matcherId : Int) (actionProcs : List (Int × Int))
  | setFieldInfo (procId matcherId : Int) (fdInfos : List FieldInfo)
  | setNoTable (procId matcherId : Int) (noTable : Bool)
  | insertSramEntry (procId matcherId : Int) (key value : List UInt8)
  | insertTcamEntry (procId matcherId : Int) (key mask value : List UInt8)
  | insertAction (procId actionId : Int) (action : Action)

namespace Pipeline

/-- `HeaderInfo` is initialised by position, its offset from the length and its length from the
offset of the request. -/
def setMetadata (pipeline : Pipeline) (headerInfos : List HeaderInfo) : Pipeline :=
  { pipeline with metaInfos := headerInfos.map fun header =>
      { hdrId := header.hdrId, hdrOffset := header.hdrLen, hdrLen := header.hdrOffset } }

def apply (pipeline : Pipeline) : Request → Option Pipeline
  | .setMetadata headerInfos => some (pipeline.setMetadata headerInfos)
  | .initParserLevel procId parserLevel =>
      pipeline.atProc procId fun processor =>
        some { processor with parser := processor.parser.initParserLevel parserLevel }
  | .modParserEntry procId parserLevel entry =>
      pipeline.atProc procId fun processor => do
        return { processor with parser := ← processor.parser.modifyParserEntryDirect parserLevel entry }
  | .clearParser procId =>
      pipeline.atProc procId fun processor => do
        return { processor with parser := ← processor.parser.clear }
  | .gateway procId request =>
      pipeline.atProc procId fun processor =>
        some { processor with gateway := processor.gateway.apply request }
  | .setMemConfig procId matcherId config => pipeline.atThread procId matcherId (setMemConfig config)
  | .setActionProc procId matcherId actionProcs =>
      pipeline.atThread procId matcherId fun memory thread =>
        some (memory, thread.setActionProcMap actionProcs)
  | .setFieldInfo procId matcherId fdInfos =>
      pipeline.atThread procId matcherId fun memory thread => some (memory, thread.setFieldInfo fdInfos)
  | .setNoTable procId matcherId noTable =>
      pipeline.atThread procId matcherId fun memory thread => some (memory, thread.setNoTable noTable)
  | .insertSramEntry procId matcherId key value =>
      pipeline.atThread procId matcherId fun memory thread => do
        return (← thread.insertSramEntry memory key value, thread)
  | .insertTcamEntry procId matcherId key mask value =>
      pipeline.atThread procId matcherId fun memory thread => thread.insertTcamEntry memory key mask value
  | .insertAction procId actionId action =>
      pipeline.atProc procId fun processor => do
        return { processor with exe := ← processor.exe.insertAction action actionId }

/-- A sequence of requests. -/
def configure (pipeline : Pipeline) (requests : List Request) : Option Pipeline :=
  requests.foldlM apply pipeline

end Pipeline

end Ipbm.Dataplane
