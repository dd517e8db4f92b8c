import Ipbm.Controller.ProcessorPush
import Ipbm.Dataplane.Switch
import Ipbm.System.InServiceUpdate

/-! A configuration that is pushed behind another one, and behind the entries that its tables
were given. What they leave in the data plane no packet of the second one meets, if the second
overwrites or clears it. -/

set_option autoImplicit false

namespace Ipbm.System
open Lib Dataplane Compiler Controller

/-! ### Two pushes -/

/-- No turn of the frame's packet is undefined. -/
def Defined (pipeline : Pipeline) (scratch : Nat → Nat → UInt8) (fuel : Nat) (frame : List UInt8)
    (ifIndex : Nat) : Prop :=
  ∀ phv, initPhv pipeline frame ifIndex = some phv → pipeline.execute scratch fuel phv ≠ .undefined

/-- Wherever one pipeline is defined the other forwards every frame as it does. -/
def ForwardsAs (used alone : Pipeline) : Prop :=
  ∀ scratch ifMacs fuel frame ifIndex, Defined alone scratch fuel frame ifIndex →
    Defined used scratch fuel frame ifIndex ∧
    forward used scratch ifMacs fuel frame ifIndex = forward alone scratch ifMacs fuel frame ifIndex

/-- The second push leaves a data plane that forwards as if neither the first nor its entries had
been there. -/
def Converges (oldRequests entries newRequests : List Request) : Prop :=
  ∀ filled alone, Pipeline.fresh.configure (oldRequests ++ entries) = some filled →
    Pipeline.fresh.configure newRequests = some alone →
      ∃ used, filled.configure newRequests = some used ∧ ForwardsAs used alone

def SameProcessors (oldDocs newDocs : List (Option ProcessorDoc)) : Prop :=
  ∀ index : Nat, (oldDocs[index]?.join).isSome = (newDocs[index]?.join).isSome

/-! ### What the second push overwrites -/

/-- The processors a packet can get to. -/
inductive Visited (docs : List (Option ProcessorDoc)) : Int → Prop
  | start : Visited docs 0
  | target {procId target : Int} (before : Visited docs procId) (has : HasTarget docs procId target) :
      Visited docs target

/-- Every parser entry that is left in a level in use is overwritten, or no key takes it, and the vector of
gateway expressions did not grow beyond what it holds. -/
structure Overwrites (old new : ProcessorDoc) : Prop where
  entries : Parser.Overwritten new.levels.length (levelCalls old.levels) (levelCalls new.levels)
  expressions : new.gateway.expressions.length ∈ [0, 1, 2, 4, 8] →
    old.gateway.expressions.length ≤ new.gateway.expressions.length

/-- The blocks of the tables that are configured again exist. -/
def BlocksExist (old new : ProcessorDoc) : Prop :=
  ∀ table ∈ old.matcher, (∃ other ∈ new.matcher, other.id = table.id) →
    ∀ config, tableConfig table = some config → config.Exists

/-- A table that is configured again. -/
def ConfiguredAgain (docs : List (Option ProcessorDoc)) (procId matcherId : Int) : Prop :=
  ∃ (index : Nat) (doc : ProcessorDoc), procId = index ∧ docs[index]? = some (some doc) ∧
    ∃ table ∈ doc.matcher, table.id = matcherId

/-- A byte that a table of a visited processor reads and that holds something when the second push
begins, is cleared by it: it belongs to a table that is configured again. -/
def EntriesCleared (filled : Pipeline) (newDocs : List (Option ProcessorDoc)) : Prop :=
  ∀ (index : Nat) doc, newDocs[index]? = some (some doc) → Visited newDocs index →
    ∀ table ∈ doc.matcher, ∀ config,
    tableConfig table = some config → ∀ cell, (config.over { procId := index }).Reads cell →
      filled.memory.byte cell ≠ 0 →
      ∃ procId matcherId thread, filled.threadAt procId matcherId = some thread ∧ thread.Empties cell ∧
        ConfiguredAgain newDocs procId matcherId

structure OverwritesAll (oldDocs newDocs : List (Option ProcessorDoc)) : Prop where
  overwrites : ∀ (index : Nat) old new, oldDocs[index]? = some (some old) →
    newDocs[index]? = some (some new) → Visited newDocs index → Overwrites old new
  blocks : ∀ (index : Nat) old new, oldDocs[index]? = some (some old) → newDocs[index]? = some (some new) →
    BlocksExist old new

/-! ### One processor -/

private theorem processorCalls_parts {doc : ProcessorDoc} {calls : ProcessorCalls}
    (asked : processorCalls doc = some calls) :
    calls.parserLevel = doc.levels.length ∧ calls.entries = levelCalls doc.levels ∧
      (∃ exps : List RelationExp, exps.length = doc.gateway.expressions.length ∧
        calls.gateway = Gateway.push exps doc.gateway.default doc.gateway.entries) ∧
      ∀ pair ∈ calls.matcher, ∃ table ∈ doc.matcher, table.id = pair.1 ∧
        ∀ config, pair.2 = .setMemConfig config → tableConfig table = some config := by
  obtain ⟨gateway, gate, asked⟩ := Option.bind_eq_some_iff.mp asked
  obtain ⟨threads, tables, asked⟩ := Option.bind_eq_some_iff.mp asked
  obtain ⟨executor, actions, asked⟩ := Option.bind_eq_some_iff.mp asked
  cases asked
  obtain ⟨exps, run, gate⟩ := Option.bind_eq_some_iff.mp gate
  cases gate
  refine ⟨rfl, rfl, ⟨exps, length_of_mapM_some run, rfl⟩, fun pair member => ?_⟩
  obtain ⟨own, isOwn, inOwn⟩ := List.mem_flatten.mp member
  obtain ⟨table, isTable, here⟩ := mem_of_mapM_some tables isOwn
  obtain ⟨config, isConfig, here⟩ := Option.bind_eq_some_iff.mp here
  cases here
  simp only [List.mem_cons, List.not_mem_nil, or_false] at inOwn
  rcases inOwn with rfl | rfl | rfl
  · refine ⟨table, isTable, rfl, fun other same => ?_⟩
    cases same
    exact isConfig
  · exact ⟨table, isTable, rfl, fun _ same => by cases same⟩
  · exact ⟨table, isTable, rfl, fun _ same => by cases same⟩

private theorem push_behind {old new : ProcessorDoc} {oldCalls newCalls : ProcessorCalls} {procId : Nat}
    {middle alone : Dataplane.Processor} (oldAsked : processorCalls old = some oldCalls)
    (newAsked : processorCalls new = some newCalls)
    (before : oldCalls.push (.fresh procId) = some middle)
    (fresh : newCalls.push (.fresh procId) = some alone) (blocks : BlocksExist old new) :
    ∃ used, newCalls.push middle = some used ∧ (Overwrites old new → ∃ later, used.Follows later alone) := by
  obtain ⟨_, oldEntries, ⟨oldExps, oldLength, oldGateway⟩, oldTables⟩ := processorCalls_parts oldAsked
  obtain ⟨newLevel, newEntries, ⟨exps, length, gateway⟩, tables⟩ := processorCalls_parts newAsked
  obtain ⟨used, pushed, follows⟩ :=
    ProcessorCalls.push_behind oldGateway gateway before fresh fun pair member later config isConfig => by
    obtain ⟨table, isTable, same, isOwn⟩ := oldTables pair member
    obtain ⟨request, isNew⟩ := later
    obtain ⟨other, isOther, sameOther, _⟩ := tables _ isNew
    exact blocks table isTable ⟨other, isOther, sameOther.trans same.symm⟩ config (isOwn config isConfig)
  refine ⟨used, pushed, fun overwrites => ⟨_, follows ?_ ?_⟩⟩
  · rw [newLevel, oldEntries, newEntries]
    exact overwrites.entries
  · rw [length, oldLength]
    exact overwrites.expressions

/-! ### All processors -/

private theorem fresh_proc {index : Nat} {processor : Dataplane.Processor}
    (found : Pipeline.fresh.procs[index]? = some processor) :
    processor = .fresh index := by
  rw [Pipeline.fresh, List.getElem?_map] at found
  obtain ⟨place, isPlace, rfl⟩ := Option.map_eq_some_iff.mp found
  obtain ⟨_, same⟩ := List.getElem?_eq_some_iff.mp isPlace
  rw [← same, List.getElem_range]

private theorem any_isSome_iff {docs : List (Option ProcessorDoc)} :
    docs.any Option.isSome = true ↔ ∃ index : Nat, (docs[index]?.join).isSome = true := by
  rw [List.any_eq_true]
  constructor
  · rintro ⟨doc, member, isSome⟩
    obtain ⟨index, here⟩ := List.mem_iff_getElem?.mp member
    exact ⟨index, by rwa [here]⟩
  · rintro ⟨index, isSome⟩
    obtain ⟨doc, here⟩ := Option.isSome_iff_exists.mp isSome
    exact ⟨some doc, List.mem_of_getElem? (Option.join_eq_some_iff.mp here), rfl⟩

section

variable {oldDocs newDocs : List (Option ProcessorDoc)} {oldMetadata newMetadata : List MetadataEntry}
  {oldRequests newRequests : List Request} {old alone : Pipeline}

private theorem pushed_behind (oldSent : InitDataplane.extract oldDocs oldMetadata = some oldRequests)
    (newSent : InitDataplane.extract newDocs newMetadata = some newRequests)
    (same : SameProcessors oldDocs newDocs) (overwrites : OverwritesAll oldDocs newDocs)
    (before : Pipeline.fresh.configure oldRequests = some old)
    (fresh : Pipeline.fresh.configure newRequests = some alone) {index : Nat} {doc : ProcessorDoc}
    (here : newDocs[index]? = some (some doc)) :
    ∃ calls middle used processor, processorCalls doc = some calls ∧ old.procs[index]? = some middle ∧
      calls.push middle = some used ∧ alone.procs[index]? = some processor ∧
        (Visited newDocs index → ∃ later, used.Follows later processor) := by
  have oldPush := configure_pushes oldSent rfl before
  have newPush := configure_pushes newSent rfl fresh
  obtain ⟨other, isOther⟩ : ∃ other, oldDocs[index]? = some (some other) := by
    have isSome := same index
    rw [here] at isSome
    obtain ⟨other, isOther⟩ := Option.isSome_iff_exists.mp isSome
    exact ⟨other, Option.join_eq_some_iff.mp isOther⟩
  obtain ⟨calls, start, processor, asked, found, pushed, isProcessor⟩ := newPush.pushed index doc here
  obtain ⟨oldCalls, oldStart, middle, oldAsked, oldFound, oldPushed, isMiddle⟩ :=
    oldPush.pushed index other isOther
  rw [fresh_proc found] at pushed
  rw [fresh_proc oldFound] at oldPushed
  obtain ⟨used, behind, follows⟩ :=
    push_behind oldAsked asked oldPushed pushed (overwrites.blocks index _ _ isOther here)
  exact ⟨calls, middle, used, processor, asked, isMiddle, behind, isProcessor,
    fun visited => follows (overwrites.overwrites index _ _ isOther here visited)⟩

private theorem configure_behind (oldSent : InitDataplane.extract oldDocs oldMetadata = some oldRequests)
    (newSent : InitDataplane.extract newDocs newMetadata = some newRequests)
    (same : SameProcessors oldDocs newDocs) (overwrites : OverwritesAll oldDocs newDocs)
    (before : Pipeline.fresh.configure oldRequests = some old)
    (fresh : Pipeline.fresh.configure newRequests = some alone) :
    ∃ used, old.configure newRequests = some used ∧ used.metaInfos = alone.metaInfos ∧
      ∀ (index : Nat) processor, Visited newDocs index → alone.procs[index]? = some processor →
        ∃ usedProcessor later, used.procs[index]? = some usedProcessor ∧
          usedProcessor.Follows later processor := by
  have oldPush := configure_pushes oldSent rfl before
  have newPush := configure_pushes newSent rfl fresh
  have each (index : Nat) (doc : ProcessorDoc) (here : newDocs[index]? = some (some doc)) :=
    pushed_behind oldSent newSent same overwrites before fresh here
  obtain ⟨used, behind⟩ := configure_isSome newSent oldPush.memory fun index doc here => by
    obtain ⟨calls, middle, next, _, asked, found, pushed, _⟩ := each index doc here
    exact ⟨calls, middle, next, asked, found, pushed⟩
  have usedPush := configure_pushes newSent oldPush.memory behind
  refine ⟨used, behind, ?_, ?_⟩
  · rw [usedPush.metaInfos, newPush.metaInfos]
    by_cases some_ : newDocs.any Option.isSome
    · rw [if_pos some_, if_pos some_]
    · have none_ : ¬oldDocs.any Option.isSome := fun other =>
        some_ (any_isSome_iff.mpr ((any_isSome_iff.mp other).imp fun index here => same index ▸ here))
      rw [if_neg some_, if_neg some_, oldPush.metaInfos, if_neg none_]
  · intro index processor visited found
    cases here : newDocs[index]?.join with
    | none =>
        have skipped : oldDocs[index]?.join = none := by
          have isSome := same index
          rw [here] at isSome
          exact Option.not_isSome_iff_eq_none.mp (by rw [isSome]; decide)
        rw [newPush.skipped index here] at found
        rw [usedPush.skipped index here, oldPush.skipped index skipped, found]
        exact ⟨processor, fun _ => True, rfl, .refl _ processor⟩
    | some doc =>
        have listed := Option.join_eq_some_iff.mp here
        obtain ⟨calls, middle, next, other, asked, isMiddle, pushed, isOther, follows⟩ :=
          each index doc listed
        obtain ⟨usedCalls, usedMiddle, usedNext, usedAsked, usedFound, usedPushed, isUsed⟩ :=
          usedPush.pushed index doc listed
        cases asked.symm.trans usedAsked
        cases isMiddle.symm.trans usedFound
        cases pushed.symm.trans usedPushed
        cases isOther.symm.trans found
        obtain ⟨later, follows⟩ := follows visited
        exact ⟨next, later, isUsed, follows⟩

private theorem reads_nothing (newSent : InitDataplane.extract newDocs newMetadata = some newRequests)
    (fresh : Pipeline.fresh.configure newRequests = some alone) {filled used : Pipeline}
    (behind : filled.configure newRequests = some used) (cleared : EntriesCleared filled newDocs)
    {index : Nat} {processor : Dataplane.Processor} (visited : Visited newDocs index)
    (found : alone.procs[index]? = some processor) :
    processor.ReadsNothing used.memory := by
  have newPush := configure_pushes newSent rfl fresh
  intro thread member inUse cell reads
  cases skipped : newDocs[index]?.join with
  | none =>
      rw [newPush.skipped index skipped] at found
      rw [fresh_proc found] at member
      rw [List.eq_of_mem_replicate member] at inUse
      cases inUse
  | some doc =>
      have listed := Option.join_eq_some_iff.mp skipped
      obtain ⟨calls, start, next, asked, isStart, pushed, isNext⟩ := newPush.pushed index doc listed
      cases found.symm.trans isNext
      rw [fresh_proc isStart] at pushed
      obtain ⟨parser, _, pushed⟩ := Option.bind_eq_some_iff.mp pushed
      obtain ⟨matcher, threads, pushed⟩ := Option.bind_eq_some_iff.mp pushed
      obtain ⟨exe, _, pushed⟩ := Option.bind_eq_some_iff.mp pushed
      cases pushed
      obtain ⟨place, here⟩ := List.mem_iff_getElem?.mp member
      obtain ⟨config, request, within⟩ := Matcher.reads_configured threads here inUse
      obtain ⟨table, isTable, _, isConfig⟩ := (processorCalls_parts asked).2.2.2 _ request
      refine Pipeline.Clean.configure (or_iff_not_imp_left.mpr fun holds => ?_)
        (extract_silent newSent) behind
      obtain ⟨procId, matcherId, thread, isThread, clears, own, ownDoc, rfl, isDoc, ownTable, inDoc, rfl⟩ :=
        cleared index doc listed visited table isTable config (isConfig config rfl) cell
          (within cell reads) holds
      obtain ⟨again, asksAgain⟩ := extract_configures newSent isDoc inDoc
      exact ⟨own, ownTable.id, thread, again, isThread, clears, asksAgain⟩

private theorem step_visited (newSent : InitDataplane.extract newDocs newMetadata = some newRequests)
    (fresh : Pipeline.fresh.configure newRequests = some alone) {scratch : Nat → UInt8} {index : Nat}
    {processor : Dataplane.Processor} (found : alone.procs[index]? = some processor)
    (visited : Visited newDocs index) {phv next : Phv}
    (run : processor.processPacket alone.memory scratch phv = some next) :
    next.nextProcId = -1 ∨ Visited newDocs next.nextProcId := by
  have leads : ∀ target, processor.Leads target → Visited newDocs target := by
    intro target leads
    rcases Pipeline.configure_leads fresh found leads with ⟨old, isOld, before⟩ | ⟨request, member, stored⟩
    · exact absurd before (Pipeline.not_leads_fresh isOld target)
    · exact visited.target (targets_extract newSent member stored)
  rcases Dataplane.Processor.processPacket_target run with ended | stage | ⟨thread, actionId,
    _, member, target⟩
  · exact .inl ended
  · exact .inr (leads _ (.inl stage))
  · refine .inr ?_
    rw [target, MatcherThread.nextProc]
    cases isTarget : thread.actionProcMap actionId with
    | none => exact .start
    | some target => exact leads target (.inr ⟨thread, member, actionId, isTarget⟩)

private theorem execute_behind {used : Pipeline}
    (newSent : InitDataplane.extract newDocs newMetadata = some newRequests)
    (fresh : Pipeline.fresh.configure newRequests = some alone)
    (follows : ∀ (index : Nat) processor, Visited newDocs index → alone.procs[index]? = some processor →
      ∃ usedProcessor, used.procs[index]? = some usedProcessor ∧ ∀ scratch phv after,
        processor.processPacket Memory.fresh scratch phv = some after →
          usedProcessor.processPacket used.memory scratch phv = some after)
    (scratch : Nat → Nat → UInt8) {fuel : Nat} {phv : Phv}
    (visited : phv.nextProcId = -1 ∨ Visited newDocs phv.nextProcId)
    (defined : alone.execute scratch fuel phv ≠ .undefined) :
    used.execute scratch fuel phv = alone.execute scratch fuel phv := by
  induction fuel generalizing phv with
  | zero => rfl
  | succ fuel ih =>
      unfold Pipeline.execute at defined ⊢
      by_cases ended : phv.nextProcId = -1
      · rw [if_pos ended, if_pos ended]
      · rw [if_neg ended] at defined ⊢
        rw [if_neg ended]
        have visited := visited.resolve_left ended
        cases step : alone.step (scratch fuel) phv with
        | none => simp [step] at defined
        | some next =>
            simp only [step] at defined ⊢
            obtain ⟨processor, isProc, run⟩ := Option.bind_eq_some_iff.mp step
            obtain ⟨nonneg, found⟩ := Option.ite_none_left_eq_some.mp isProc
            have isIndex : (phv.nextProcId.toNat : Int) = phv.nextProcId :=
              Int.toNat_of_nonneg (Int.not_lt.mp nonneg)
            rw [← isIndex] at visited
            obtain ⟨usedProcessor, isUsed, follows⟩ := follows _ processor visited found
            have memory := (configure_pushes newSent rfl fresh).memory
            have usedStep : used.step (scratch fuel) phv = some next := by
              rw [Pipeline.step, Pipeline.proc, if_neg nonneg, isUsed]
              rw [memory] at run
              exact follows _ _ _ run
            simp only [usedStep]
            exact ih (step_visited newSent fresh found visited run) defined

private theorem modifyPhvWithData_nextProcId {field : FieldInfo} {data : Data} {phv after : Phv}
    (done : modifyPhvWithData field data phv = some after) : after.nextProcId = phv.nextProcId := by
  obtain ⟨header, _, done⟩ := Option.bind_eq_some_iff.mp done
  obtain ⟨spread, _, done⟩ := Option.bind_eq_some_iff.mp done
  obtain ⟨written, _, done⟩ := Option.bind_eq_some_iff.mp done
  cases done
  rfl

private theorem initPhv_nextProcId {pipeline : Pipeline} {frame : List UInt8} {ifIndex : Nat} {phv : Phv}
    (init : initPhv pipeline frame ifIndex = some phv) : phv.nextProcId = 0 := by
  obtain ⟨packet, _, init⟩ := Option.bind_eq_some_iff.mp init
  obtain ⟨parsedHeaders, _, init⟩ := Option.bind_eq_some_iff.mp init
  exact modifyPhvWithData_nextProcId init

/-- A push that overwrites and clears what was there before is the last word. -/
theorem converges_of_overwrites (oldSent : InitDataplane.extract oldDocs oldMetadata = some oldRequests)
    (newSent : InitDataplane.extract newDocs newMetadata = some newRequests)
    (same : SameProcessors oldDocs newDocs) {entries : List Request}
    (inserts : ∀ request ∈ entries, request.Inserts) (overwrites : OverwritesAll oldDocs newDocs)
    (cleared : ∀ filled, Pipeline.fresh.configure (oldRequests ++ entries) = some filled →
      EntriesCleared filled newDocs) :
    Converges oldRequests entries newRequests := by
  intro filled alone between fresh
  obtain ⟨old, before, filling⟩ := Pipeline.configure_append between
  obtain ⟨ideal, idealBehind, idealInfos, idealFollows⟩ :=
    configure_behind oldSent newSent same overwrites before fresh
  obtain ⟨used, behind, likeIdeal⟩ :=
    (Pipeline.SameButEntries.inserts inserts filling).configure (extract_silent newSent) idealBehind
  have metaInfos : used.metaInfos = alone.metaInfos := likeIdeal.metaInfos.trans idealInfos
  have follows : ∀ (index : Nat) processor, Visited newDocs index → alone.procs[index]? = some processor →
      ∃ usedProcessor, used.procs[index]? = some usedProcessor ∧ ∀ scratch phv after,
        processor.processPacket Memory.fresh scratch phv = some after →
          usedProcessor.processPacket used.memory scratch phv = some after := by
    intro index processor visited found
    obtain ⟨idealProcessor, later, isIdeal, follow⟩ := idealFollows index processor visited found
    obtain ⟨usedProcessor, isUsed, likely⟩ := forall₂_left likeIdeal.procs isIdeal
    refine ⟨usedProcessor, isUsed, fun scratch phv after run => ?_⟩
    rw [likely.processPacket]
    exact follow.processPacket (reads_nothing newSent fresh behind (cleared filled between) visited found) run
  refine ⟨used, behind, fun scratch ifMacs fuel frame ifIndex defined => ?_⟩
  have init : initPhv used frame ifIndex = initPhv alone frame ifIndex := by rw [initPhv, initPhv, metaInfos]
  have runs : ∀ phv, initPhv alone frame ifIndex = some phv →
      used.execute scratch fuel phv = alone.execute scratch fuel phv := by
    intro phv isPhv
    refine execute_behind newSent fresh follows scratch (.inr ?_) (defined phv isPhv)
    rw [initPhv_nextProcId isPhv]
    exact .start
  refine ⟨fun phv isPhv => ?_, ?_⟩
  · rw [init] at isPhv
    rw [runs phv isPhv]
    exact defined phv isPhv
  · rw [forward, forward, init]
    refine Option.bind_congr fun phv isPhv => ?_
    rw [runs phv isPhv]

end

def standardEntries : List MetadataEntry := [⟨31, 0, 20⟩]

def portTable : Table where
  id := 0
  tableId := 0
  missActionId := 0
  actionToProc := [(0, -1)]
  keyMemory := { config := [0], width := some 1, depth := some 1 }
  valueMemory := { config := [1], width := some 1, depth := some 1 }

/-- Interface 0 is the lowest bit of the port. -/
def portAssign : Assign :=
  ⟨some (("standard_metadata", "egress_spec"), egressPort.headerField), some (.constant 1)⟩

/-- Some levels, and a table that sends every packet it does not know to interface 0. -/
def portDoc (levels : List Level) : ProcessorDoc where
  id := 0
  levels := levels
  gateway := { expressions := [], default := ⟨.table, 0⟩, entries := [] }
  matcher := [portTable]
  executor := [⟨0, 0, [], [portAssign]⟩]

def portCalls (levels : List Level) : ProcessorCalls where
  parserLevel := levels.length
  entries := levelCalls levels
  gateway := Gateway.push [] ⟨.table, 0⟩ []
  matcher := (tableCalls portTable).get (by decide)
  executor := [(0, ⟨[⟨egressPort, .node (.constant ⟨32, getUints 1 32⟩) .nil .nil⟩], 0, []⟩)]

def portSent (levels : List Level) : List Request :=
  (portCalls levels).requests 0 ++ [extractMetadata standardEntries]

private theorem portCalls_asked (levels : List Level) :
    processorCalls (portDoc levels) = some (portCalls levels) := by
  have action : (portDoc levels).executor.mapM actionCall =
      some [(0, ⟨[⟨egressPort, .node (.constant ⟨32, getUints 1 32⟩) .nil .nil⟩], 0, []⟩)] := by
    simp [portDoc, actionCall, extractAction, extractPrimitive, portAssign, buildExpTree, sentField,
      FieldInfo.headerField, egressPort, wrap]
  rw [processorCalls, action]
  rfl

private theorem portSent_sent (levels : List Level) :
    InitDataplane.extract [some (portDoc levels)] standardEntries = some (portSent levels) := by
  have processor : extractProcessor standardEntries 0 (portDoc levels) = some (portSent levels) := by
    rw [extractProcessor_calls, portCalls_asked]
    rfl
  rw [InitDataplane.extract, List.zipIdx_singleton, List.mapM_cons]
  simp [processor]

private theorem portDoc_same (old new : List Level) :
    SameProcessors [some (portDoc old)] [some (portDoc new)] := by
  intro index
  match index with
  | 0 => rfl
  | _ + 1 => rfl

/-- A level whose entry drops every packet in state 0. -/
def dropLevels : List Level := [[⟨⟨0, 0, 0⟩, ⟨0, 0, 0, [], 1⟩⟩]]

/-- The same slot, with an entry that goes on. -/
def goOnLevels : List Level := [[⟨⟨0, 0, 0⟩, ⟨0, 112, 1, [], 2⟩⟩]]

/-- An entry of the table: the key 5 and the action 7. -/
def keyEntry : List Request := [.insertSramEntry 0 0 [5] [0, 7]]

theorem converges_goOn : Converges (portSent dropLevels) keyEntry (portSent goOnLevels) := by
  have threads : (Pipeline.fresh.configure (portSent dropLevels ++ keyEntry)).map (fun filled =>
      (filled.threadAt 0 0).map fun thread => (thread.srams, thread.tcams, thread.matchType)) =
        some (some ([0, 1], [], .exact)) := by rfl
  refine converges_of_overwrites (portSent_sent dropLevels) (portSent_sent goOnLevels) (portDoc_same _ _)
    (by simp [keyEntry, Request.Inserts]) ⟨?_, ?_⟩ ?_
  · intro index old new isOld isNew _
    match index with
    | 0 =>
        cases isOld
        cases isNew
        refine ⟨fun level inUse slot left found => ?_, fun _ => le_rfl⟩
        obtain rfl := Nat.lt_one_iff.mp inUse
        obtain ⟨listed, isSlot⟩ := lastWhere_some found
        rw [decide_eq_true_eq] at isSlot
        cases List.mem_singleton.mp listed
        exact .inr ⟨_, List.mem_singleton_self _, isSlot⟩
    | _ + 1 => cases isOld
  · intro index old new isOld isNew
    match index with
    | 0 =>
        cases isOld
        rintro table isTable _ config isConfig
        cases List.mem_singleton.mp isTable
        cases isConfig
        exact ⟨List.forall_mem_singleton.mpr (by decide), List.forall_mem_singleton.mpr (by decide)⟩
    | _ + 1 => cases isOld
  · intro filled isFilled index doc here _ table isTable config isConfig cell reads _
    match index with
    | 0 =>
        cases here
        cases List.mem_singleton.mp isTable
        cases isConfig
        rw [isFilled] at threads
        obtain ⟨thread, found, parts⟩ := Option.map_eq_some_iff.mp (Option.some.inj threads)
        simp only [Prod.mk.injEq] at parts
        refine ⟨0, 0, thread, found, ?_, 0, _, rfl, rfl, portTable, isTable, rfl⟩
        -- the table that is configured again has the blocks that the old one has
        cases cell with
        | sram block address =>
            rw [MatcherThread.Empties, parts.1, if_pos parts.2.2]
            exact reads
        | mask block address => exact absurd reads.1 List.not_mem_nil
    | _ + 1 => cases here

def portAlone : Pipeline := (Pipeline.fresh.configure (portSent [[]])).get (by decide)

def portBehind : Pipeline :=
  (Pipeline.fresh.configure (portSent dropLevels ++ [] ++ portSent [[]])).get (by decide)

private theorem defined_of_forward {pipeline : Pipeline} {scratch : Nat → Nat → UInt8}
    {ifMacs : List (List UInt8)} {fuel : Nat}
    {frame : List UInt8} {ifIndex : Nat} {copies : List (Nat × List UInt8)}
    (run : forward pipeline scratch ifMacs fuel frame ifIndex = some copies) :
    Defined pipeline scratch fuel frame ifIndex := by
  intro phv init undefined
  rw [forward, init, Option.bind_eq_bind, Option.bind_some, undefined] at run
  cases run

/-- The entry of the parser is still there behind the second push and drops the packet. -/
theorem not_converges_drop : InitDataplane.extract [some (portDoc dropLevels)] standardEntries =
      some (portSent dropLevels) ∧
    InitDataplane.extract [some (portDoc [[]])] standardEntries = some (portSent [[]]) ∧
      SameProcessors [some (portDoc dropLevels)] [some (portDoc [[]])] ∧
      ¬Converges (portSent dropLevels) [] (portSent [[]]) := by
  refine ⟨portSent_sent _, portSent_sent _, portDoc_same _ _, fun converges => ?_⟩
  have both : Pipeline.fresh.configure (portSent dropLevels ++ [] ++ portSent [[]]) = some portBehind :=
    (Option.some_get _).symm
  have isAlone : Pipeline.fresh.configure (portSent [[]]) = some portAlone := (Option.some_get _).symm
  obtain ⟨old, first, second⟩ := Pipeline.configure_append both
  obtain ⟨used, behind, forwards⟩ := converges old portAlone first isAlone
  cases second.symm.trans behind
  have sent : forward portAlone (fun _ _ => 0) [zeroMac] 1 (List.replicate 60 1) 0 =
      some [(0, List.replicate 60 1)] := by
    decide +kernel
  have dropped : forward portBehind (fun _ _ => 0) [zeroMac] 1 (List.replicate 60 1) 0 =
    some [] := by decide +kernel
  have same := (forwards (fun _ _ => 0) [zeroMac] 1 (List.replicate 60 1) 0 (defined_of_forward sent)).2
  rw [sent, dropped] at same
  cases same

end Ipbm.System
