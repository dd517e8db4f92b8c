import Ipbm.Dataplane.ProcessorCalls
import Ipbm.Dataplane.Switch
import Ipbm.Dataplane.Termination
import Ipbm.Lib.Lockstep
import Ipbm.Lib.Pointwise

/-! Pipelines that differ in the numbers of their processors. Only gateways and action maps name
processors; if these names correspond, both pipelines treat every packet alike. -/

set_option autoImplicit false

namespace Ipbm.Dataplane
open Lib

/-! ### Packets on their way to another processor -/

/-- A packet in front of another processor. -/
def Phv.redirected (nextProcId : Int) (nextOp : GateEntry) (phv : Phv) : Phv :=
  { phv with nextProcId, nextOp }

/-- The step neither reads nor writes the number of the next processor. -/
def Unaware (step : Phv → Option Phv) : Prop :=
  ∀ nextProcId nextOp, Commutes (Phv.redirected nextProcId nextOp) step

namespace Unaware

theorem dropPacket : Unaware dropPacket := by
  intro nextProcId nextOp phv
  unfold Dataplane.dropPacket modifyPhvWithData
  simp only [Phv.redirected, Option.bind_eq_bind, Option.map_bind, Function.comp_def,
    Option.pure_def, Option.map_some]

theorem extract (entry : ParserSramEntry) : Unaware entry.extract := by
  intro nextProcId nextOp phv
  unfold ParserSramEntry.extract
  simp only [Phv.redirected, Option.bind_eq_bind, Option.map_bind, Function.comp_def,
    Option.pure_def, Option.map_some]

theorem transKey (entry : ParserSramEntry) :
    Unaware fun phv => (entry.transKey phv).map fun curTransKey => { phv with curTransKey } := by
  intro nextProcId nextOp phv
  rw [Option.map_map]
  rfl

theorem generate (memory : Memory) (scratch : Nat → UInt8) (thread : MatcherThread) :
    Unaware (thread.generateMatchKeyAndMatch memory scratch) := by
  intro nextProcId nextOp phv
  have same : thread.matchKey (phv.redirected nextProcId nextOp) = thread.matchKey phv := rfl
  unfold MatcherThread.generateMatchKeyAndMatch
  rw [same]
  cases thread.matchKey phv with
  | none => rfl
  | some key =>
      simp only [Option.bind_eq_bind, Option.bind_some]
      cases thread.getMatchRes memory scratch key with
      | none => rfl
      | some found =>
          cases found with
          | none => rfl
          | some value =>
              simp only [Option.bind_some, Option.map_bind, Function.comp_def, Option.pure_def,
                Option.map_some]
              rfl

private theorem execute_redirected (phv : Phv) (nextProcId : Int) (nextOp : GateEntry)
    (actionParas : List Data) (tree : ExpTreeNode) :
    Primitive.execute (phv.redirected nextProcId nextOp) actionParas tree =
      Primitive.execute phv actionParas tree := by
  induction tree with
  | nil => rfl
  | node opt first second firstIH secondIH =>
      cases opt with
      | operator op => cases op <;> simp only [Primitive.execute, firstIH, secondIH]
      | _ => rfl

theorem run (actionParas : List Data) (primitive : Primitive) : Unaware (primitive.run · actionParas) := by
  intro nextProcId nextOp phv
  dsimp only [Primitive.run]
  rw [execute_redirected]
  cases Primitive.execute phv actionParas primitive.root with
  | none => rfl
  | some data =>
      simp only [Option.bind_eq_bind, Option.bind_some]
      unfold Primitive.modifyFieldWithData
      simp only [Phv.redirected, Option.bind_eq_bind, Option.map_bind, Function.comp_def]
      congr 1
      funext header
      split
      · rfl
      · simp only [Option.map_bind, Function.comp_def, Option.pure_def, Option.map_some]
        rfl

theorem execute (executor : Executor) : Unaware executor.execute := by
  intro nextProcId nextOp phv
  unfold Executor.execute
  change (if phv.nextActionId < 0 then none else _) = _
  by_cases negative : phv.nextActionId < 0
  · rw [if_pos negative, if_pos negative]
    rfl
  · rw [if_neg negative, if_neg negative]
    have same : (phv.redirected nextProcId nextOp).matchValue = phv.matchValue := rfl
    have slot : (phv.redirected nextProcId nextOp).nextActionId = phv.nextActionId := rfl
    rw [same, slot]
    cases (executor[phv.nextActionId.toNat]?).join with
    | none => rfl
    | some action =>
        simp only [Option.bind_eq_bind, Option.bind_some]
        cases action.setActionParas phv.matchValue with
        | none => rfl
        | some actionParas =>
            exact Commutes.foldlM (fun primitive =>
              run actionParas primitive nextProcId nextOp) action.prims phv

end Unaware

section

/-- A number of a processor of the second pipeline and the number it has in the first. -/
structure Numbering (located : Int → Int → Prop) : Prop where
  ending : located (-1) (-1)
  ends : ∀ {own other}, located own other → (other = -1 ↔ own = -1)
  start : located 0 0
  unique : ∀ {own other own' other'}, located own other → located own' other' → (own = own' ↔ other = other')

variable {located : Int → Int → Prop}

/-- The same packet, in front of processors that correspond. -/
inductive Phv.Alike (located : Int → Int → Prop) : Phv → Phv → Prop
  | redirected {nextProcId : Int} {nextOp : GateEntry} {phv : Phv}
      (next : located phv.nextProcId nextProcId) :
      Alike located (phv.redirected nextProcId nextOp) phv

theorem Phv.Alike.next {used ideal : Phv} (alike : Phv.Alike located used ideal) :
    located ideal.nextProcId used.nextProcId := by
  cases alike with
  | redirected next => exact next

theorem Phv.Alike.ends {used ideal : Phv} (alike : Phv.Alike located used ideal)
    (numbering : Numbering located) :
    used.nextProcId = -1 ↔ ideal.nextProcId = -1 :=
  numbering.ends alike.next

theorem Unaware.alike {step : Phv → Option Phv} (unaware : Unaware step)
    (keeps : ∀ phv after, step phv = some after → after.nextProcId = phv.nextProcId) {used ideal : Phv}
    (alike : Phv.Alike located used ideal) : Option.Rel (Phv.Alike located) (step used) (step ideal) := by
  cases alike with
  | @redirected nextProcId nextOp _ next =>
      rw [unaware]
      cases done : step ideal with
      | none => exact .none
      | some after => exact .some (.redirected (keeps ideal after done ▸ next))

/-! ### Parser -/

theorem drop_alike (numbering : Numbering located) {used ideal : Phv} (alike : Phv.Alike located used ideal) :
    Option.Rel (Phv.Alike located) (ParserStage.drop used) (ParserStage.drop ideal) := by
  cases alike with
  | @redirected nextProcId nextOp _ next =>
      have same : ParserStage.drop (ideal.redirected nextProcId nextOp) =
          (ParserStage.drop ideal).map (Phv.redirected (-1) nextOp) :=
        Unaware.dropPacket (-1) nextOp { ideal with nextProcId := -1 }
      rw [same]
      cases done : ParserStage.drop ideal with
      | none => exact .none
      | some after =>
          obtain ⟨packet, rfl⟩ := ParserStage.drop_eq done
          exact .some (.redirected numbering.ending)

theorem finish_alike (numbering : Numbering located) (entry : ParserSramEntry) {used ideal : Phv}
    (alike : Phv.Alike located used ideal) :
    Option.Rel (Phv.Alike located) (entry.finish used) (entry.finish ideal) := by
  have act : used.missAct = ideal.missAct := by cases alike; rfl
  by_cases accepts : ideal.missAct = 0
  · rw [ParserSramEntry.finish, ParserSramEntry.finish, act, if_pos accepts, if_pos accepts]
    exact .some alike
  by_cases drops : ideal.missAct = 1
  · rw [ParserSramEntry.finish, ParserSramEntry.finish, act, if_neg accepts, if_neg accepts,
      if_pos drops, if_pos drops]
    exact drop_alike numbering alike
  · rw [ParserSramEntry.finish_goesOn accepts drops,
      ParserSramEntry.finish_goesOn (act ▸ accepts) (act ▸ drops)]
    refine (Unaware.transKey entry).alike (fun phv after done => ?_) alike
    obtain ⟨curTransKey, _, rfl⟩ := Option.map_eq_some_iff.mp done
    rfl

theorem parseStage_alike (numbering : Numbering located) (stage : ParserStage) {used ideal : Phv}
    (alike : Phv.Alike located used ideal) :
    Option.Rel (Phv.Alike located) (stage.parse used) (stage.parse ideal) := by
  have slot : stage.matchIdx used = stage.matchIdx ideal := by cases alike; rfl
  have act : used.missAct = ideal.missAct := by cases alike; rfl
  cases found : stage.matchIdx ideal with
  | none =>
      rw [ParserStage.parse_miss found, ParserStage.parse_miss (slot.trans found), act]
      split
      · exact drop_alike numbering alike
      · exact .some alike
  | some index =>
      rw [ParserStage.parse_hit found, ParserStage.parse_hit (slot.trans found)]
      refine rel_bind ((Unaware.extract (stage.actTbl index)).alike (fun phv after done => ?_) alike)
        fun _ _ middle =>
        finish_alike numbering _ middle
      obtain ⟨_, _, _, _, _, _, _, _, _, _, rfl⟩ := ParserSramEntry.extract_iff.mp done
      rfl

theorem parseLevels_alike (numbering : Numbering located) (stages : List ParserStage) {used ideal : Phv}
    (alike : Phv.Alike located used ideal) :
    Option.Rel (Phv.Alike located) (Parser.parseLevels stages used) (Parser.parseLevels stages ideal) := by
  induction stages generalizing used ideal with
  | nil => exact .some alike
  | cons stage rest ih =>
      refine rel_bind (parseStage_alike numbering stage alike) fun used ideal alike => ?_
      by_cases ended : ideal.nextProcId = -1
      · rw [if_pos ended, if_pos ((alike.ends numbering).mpr ended)]
        exact .some alike
      · rw [if_neg ended, if_neg ((alike.ends numbering).not.mpr ended)]
        exact ih alike

theorem parse_alike (numbering : Numbering located) (parser : Parser) {used ideal : Phv}
    (alike : Phv.Alike located used ideal) :
    Option.Rel (Phv.Alike located) (parser.parse used) (parser.parse ideal) := by
  unfold Parser.parse
  split
  · split
    · exact parseLevels_alike numbering _ alike
    · refine rel_bind (parseLevels_alike numbering _ alike) fun used ideal alike => ?_
      by_cases ended : ideal.nextProcId = -1
      · rw [if_pos ended, if_pos ((alike.ends numbering).mpr ended)]
        exact .some alike
      · rw [if_neg ended, if_neg ((alike.ends numbering).not.mpr ended)]
        exact .none
  · cases alike with
    | @redirected nextProcId nextOp =>
        exact .some (@Phv.Alike.redirected located (-1) nextOp { ideal with nextProcId := -1 }
          numbering.ending)

/-! ### Gateways -/

/-- The same table, or the processors of one stage. -/
inductive GateEntry.Alike (located : Int → Int → Prop) : GateEntry → GateEntry → Prop
  | table (matcherId : Int) : Alike located ⟨.table, matcherId⟩ ⟨.table, matcherId⟩
  | stage {own other : Int} (here : located own other) : Alike located ⟨.stage, other⟩ ⟨.stage, own⟩

namespace GateEntry.Alike

variable {entry entry' : GateEntry}

theorem type (alike : entry.Alike located entry') : entry.type = entry'.type := by
  cases alike <;> rfl

theorem table_val (alike : entry.Alike located entry') (isTable : entry'.type = .table) :
    entry.val = entry'.val := by
  cases alike with
  | table => rfl
  | stage => cases isTable

theorem stage_val (alike : entry.Alike located entry') (isStage : entry'.type = .stage) :
    located entry'.val entry.val := by
  cases alike with
  | table => cases isStage
  | stage here => exact here

end GateEntry.Alike

structure Gateway.Alike (located : Int → Int → Prop) (used ideal : Gateway) : Prop where
  exps : used.exps = ideal.exps
  capacity : used.capacity = ideal.capacity
  resNext : ∀ key, Option.Rel (GateEntry.Alike located) (used.resNext key) (ideal.resNext key)
  defaultEntry : Option.Rel (GateEntry.Alike located) used.defaultEntry ideal.defaultEntry

inductive GatewayRequest.Alike (located : Int → Int → Prop) : GatewayRequest → GatewayRequest → Prop
  | clearRelationExp : Alike located .clearRelationExp .clearRelationExp
  | insertRelationExp (exp : RelationExp) : Alike located (.insertRelationExp exp) (.insertRelationExp exp)
  | clearResMap : Alike located .clearResMap .clearResMap
  | modResMap (key : Int) {entry entry' : GateEntry} (here : entry.Alike located entry') :
      Alike located (.modResMap key entry) (.modResMap key entry')
  | setDefaultGateEntry {entry entry' : GateEntry} (here : entry.Alike located entry') :
      Alike located (.setDefaultGateEntry entry) (.setDefaultGateEntry entry')

namespace Gateway.Alike

variable {used ideal : Gateway}

theorem fresh : Gateway.Alike located .fresh .fresh := ⟨rfl, rfl, fun _ => .none, .none⟩

theorem apply (alike : Gateway.Alike located used ideal) {request request' : GatewayRequest}
    (same : request.Alike located request') :
    Gateway.Alike located (used.apply request) (ideal.apply request') := by
  obtain ⟨exps, capacity, resNext, defaultEntry⟩ := alike
  cases same with
  | clearRelationExp => exact ⟨rfl, capacity, fun _ => .none, .some (.table 0)⟩
  | insertRelationExp exp =>
      refine ⟨congrArg (· ++ [exp]) exps, ?_, resNext, defaultEntry⟩
      rw [Gateway.apply, Gateway.apply, insertExp, insertExp, exps, capacity]
  | clearResMap => exact ⟨exps, capacity, fun _ => .none, defaultEntry⟩
  | modResMap key here =>
      exact ⟨exps, capacity, rel_update resNext here _, defaultEntry⟩
  | setDefaultGateEntry here => exact ⟨exps, capacity, resNext, .some here⟩

/-- The entry that is chosen, next to the one chosen in the other pipeline. -/
theorem execute (alike : Gateway.Alike located used ideal) {phv phv' : Phv}
    (packets : Phv.Alike located phv phv') :
    Option.Rel (fun next next' => Phv.Alike located next next' ∧ next.nextOp.Alike located next'.nextOp)
      (used.execute phv) (ideal.execute phv') := by
  have bits : used.bitmap phv = ideal.bitmap phv' := by
    cases packets
    unfold bitmap
    rw [alike.exps, alike.capacity]
    rfl
  have chosen {entry entry' : GateEntry} (here : entry.Alike located entry') :
      Option.Rel (fun next next' => Phv.Alike located next next' ∧ next.nextOp.Alike located next'.nextOp)
        (some { phv with nextOp := entry }) (some { phv' with nextOp := entry' }) := by
    cases packets with
    | @redirected nextProcId _ _ next =>
        exact .some ⟨@Phv.Alike.redirected located nextProcId entry { phv' with nextOp := entry' } next, here⟩
  unfold Gateway.execute
  rw [bits]
  cases ideal.bitmap phv' with
  | none => exact .none
  | some bits =>
      simp only [Option.bind_eq_bind, Option.bind_some]
      have row := alike.resNext bits
      cases found : used.resNext bits <;> cases found' : ideal.resNext bits <;> rw [found,
        found'] at row <;> cases row
      case none.none => exact rel_bind alike.defaultEntry fun _ _ here => chosen here
      case some.some here => exact chosen here

end Gateway.Alike

/-! ### Tables -/

/-- The same table, whose actions lead to processors that correspond. -/
structure MatcherThread.Alike (located : Int → Int → Prop) (used ideal : MatcherThread) : Prop where
  same : used = { ideal with actionProcMap := used.actionProcMap }
  leads : ∀ actionId, Option.Rel located (ideal.actionProcMap actionId) (used.actionProcMap actionId)

inductive ThreadRequest.Alike (located : Int → Int → Prop) : ThreadRequest → ThreadRequest → Prop
  | setMemConfig (config : Pipeline.MemConfig) : Alike located (.setMemConfig config) (.setMemConfig config)
  | setActionProc {actionProcs actionProcs' : List (Int × Int)}
      (pairs : List.Forall₂ (fun pair pair' => pair.1 = pair'.1 ∧ located pair'.2 pair.2)
        actionProcs actionProcs') :
      Alike located (.setActionProc actionProcs) (.setActionProc actionProcs')
  | setFieldInfo (fdInfos : List FieldInfo) : Alike located (.setFieldInfo fdInfos) (.setFieldInfo fdInfos)

namespace MatcherThread.Alike

variable {used ideal : MatcherThread}

theorem fresh (procId : Nat) : MatcherThread.Alike located { procId } { procId } := ⟨rfl, fun _ => .none⟩

theorem nextProc (numbering : Numbering located) (alike : MatcherThread.Alike located used ideal)
    (actionId : Int) :
    located (ideal.nextProc actionId) (used.nextProc actionId) := by
  have leads := alike.leads actionId
  unfold MatcherThread.nextProc
  cases found : used.actionProcMap actionId <;> cases found' : ideal.actionProcMap actionId <;>
    rw [found, found'] at leads <;>
    cases leads
  case none.none => exact numbering.start
  case some.some here => exact here

theorem setMemConfig (alike : MatcherThread.Alike located used ideal) (config : Pipeline.MemConfig)
    (memory : Memory) :
    Option.Rel (fun next next' => next.1 = next'.1 ∧ MatcherThread.Alike located next.2 next'.2)
      (Pipeline.setMemConfig config memory used) (Pipeline.setMemConfig config memory ideal) := by
  have cleared : used.clearOldConfig memory = ideal.clearOldConfig memory := by
    rw [alike.same]
    unfold MatcherThread.clearOldConfig
    cases ideal.matchType <;> rfl
  have same : Pipeline.setMemConfig config memory used = Pipeline.setMemConfig config memory ideal := by
    rw [Pipeline.setMemConfig, Pipeline.setMemConfig, cleared]
  rw [same]
  cases done : Pipeline.setMemConfig config memory ideal with
  | none => exact .none
  | some after =>
      obtain ⟨_, next, clear, isNext⟩ := MatcherThread.setMemConfig_iff.mp done
      have unmapped : next.actionProcMap = fun _ => none := by
        rcases MatcherThread.clearOldConfig_some clear with ⟨_, _, _, _, _, _, rfl⟩ | ⟨_, _, _, _,
          _, _, rfl⟩ <;> rfl
      refine .some ⟨rfl, rfl, fun actionId => ?_⟩
      rw [isNext]
      change Option.Rel located (next.actionProcMap actionId) (next.actionProcMap actionId)
      rw [unmapped]
      exact .none

theorem setActionProcMap (alike : MatcherThread.Alike located used ideal)
    {actionProcs actionProcs' : List (Int × Int)}
    (pairs : List.Forall₂ (fun pair pair' => pair.1 = pair'.1 ∧
      located pair'.2 pair.2) actionProcs actionProcs') :
    MatcherThread.Alike located (used.setActionProcMap actionProcs)
      (ideal.setActionProcMap actionProcs') := by
  refine ⟨?_, ?_⟩
  · unfold MatcherThread.setActionProcMap
    rw [alike.same]
  · exact @forall₂_foldl _ _ _ _ _
      (fun map map' : Int → Option Int => ∀ actionId, Option.Rel located (map' actionId)
        (map actionId)) _ _ _ _ pairs
      (fun pair pair' map map' same leads => same.1 ▸ rel_update leads same.2 pair.1) _ _ alike.leads

theorem setFieldInfo (alike : MatcherThread.Alike located used ideal) (fdInfos : List FieldInfo) :
    MatcherThread.Alike located (used.setFieldInfo fdInfos) (ideal.setFieldInfo fdInfos) := by
  refine ⟨?_, alike.leads⟩
  unfold MatcherThread.setFieldInfo
  rw [alike.same]

theorem setNoTable (alike : MatcherThread.Alike located used ideal) (noTable : Bool) :
    MatcherThread.Alike located (used.setNoTable noTable) (ideal.setNoTable noTable) := by
  refine ⟨?_, alike.leads⟩
  unfold MatcherThread.setNoTable
  rw [alike.same]

theorem insertSramEntry (alike : MatcherThread.Alike located used ideal) (memory : Memory)
    (key value : List UInt8) :
    used.insertSramEntry memory key value = ideal.insertSramEntry memory key value := by
  rw [alike.same]
  rfl

theorem insertTcamEntry (alike : MatcherThread.Alike located used ideal) (memory : Memory)
    (key mask value : List UInt8) :
    Option.Rel (fun next next' => next.1 = next'.1 ∧ MatcherThread.Alike located next.2 next'.2)
      (used.insertTcamEntry memory key mask value) (ideal.insertTcamEntry memory key mask value) := by
  have same : used.insertTcamEntry memory key mask value =
    (ideal.insertTcamEntry memory key mask value).map fun next =>
      (next.1, { next.2 with actionProcMap := used.actionProcMap }) := by
    rw [alike.same]
    unfold MatcherThread.insertTcamEntry
    simp only [Option.bind_eq_bind, Option.map_bind, Function.comp_def]
    refine Option.bind_congr fun slice _ => Option.bind_congr fun keySeq _ =>
      Option.bind_congr fun valueSeq _ => ?_
    split
    · simp only [Option.map_bind, Function.comp_def, Option.pure_def, Option.map_some]
    · rfl
  rw [same]
  cases done : ideal.insertTcamEntry memory key mask value with
  | none => exact .none
  | some next =>
      obtain ⟨_, _, _, _, _, _, _, _, _, _, _, isNext⟩ := MatcherThread.insertTcamEntry_some done
      refine .some ⟨rfl, rfl, ?_⟩
      rw [isNext]
      exact alike.leads

/-- Both threads look a packet up alike. -/
theorem generateMatchKeyAndMatch (alike : MatcherThread.Alike located used ideal) (memory : Memory)
    (scratch : Nat → UInt8) :
    used.generateMatchKeyAndMatch memory scratch = ideal.generateMatchKeyAndMatch memory scratch := by
  rw [alike.same]
  rfl

theorem apply (alike : MatcherThread.Alike located used ideal) {request request' : ThreadRequest}
    (same : request.Alike located request') :
    Option.Rel (MatcherThread.Alike located) (request.apply used) (request'.apply ideal) := by
  cases same with
  | setMemConfig config => exact rel_map (alike.setMemConfig config Memory.fresh) fun _ _ threads => threads.2
  | setActionProc pairs => exact .some (alike.setActionProcMap pairs)
  | setFieldInfo fdInfos => exact .some (alike.setFieldInfo fdInfos)

end MatcherThread.Alike

/-! ### Processors -/

structure Processor.Alike (located : Int → Int → Prop) (used ideal : Processor) : Prop where
  parser : used.parser = ideal.parser
  gateway : used.gateway.Alike located ideal.gateway
  matcher : List.Forall₂ (MatcherThread.Alike located) used.matcher ideal.matcher
  exe : used.exe = ideal.exe

/-- The same calls, under the numbers of the two pipelines. -/
structure ProcessorCalls.Alike (located : Int → Int → Prop) (used ideal : ProcessorCalls) : Prop where
  parserLevel : used.parserLevel = ideal.parserLevel
  entries : used.entries = ideal.entries
  gateway : List.Forall₂ (GatewayRequest.Alike located) used.gateway ideal.gateway
  matcher : List.Forall₂ (fun pair pair' =>
    pair.1 = pair'.1 ∧ ThreadRequest.Alike located pair.2 pair'.2) used.matcher ideal.matcher
  executor : used.executor = ideal.executor

theorem Matcher.thread_alike {used ideal : Matcher}
    (alike : List.Forall₂ (MatcherThread.Alike located) used ideal)
    (matcherId : Int) :
    Option.Rel (MatcherThread.Alike located) (used.thread matcherId) (ideal.thread matcherId) := by
  unfold Matcher.thread
  split
  · exact .none
  · exact rel_getElem? alike _

theorem Matcher.apply_alike {used ideal : Matcher}
    (alike : List.Forall₂ (MatcherThread.Alike located) used ideal)
    {pair pair' : Int × ThreadRequest} (same : pair.1 = pair'.1 ∧ pair.2.Alike located pair'.2) :
    Option.Rel (List.Forall₂ (MatcherThread.Alike located)) (used.apply pair) (ideal.apply pair') := by
  unfold Matcher.apply
  rw [same.1]
  split
  · exact .none
  · refine rel_bind (rel_getElem? alike _) fun _ _ threads =>
      rel_bind (threads.apply same.2) fun _ _ changed => ?_
    exact .some (forall₂_set alike _ changed)

theorem ProcessorCalls.Alike.push {calls calls' : ProcessorCalls} (same : calls.Alike located calls')
    {used ideal : Processor} (alike : used.Alike located ideal) :
    Option.Rel (Processor.Alike located) (calls.push used) (calls'.push ideal) := by
  obtain ⟨parser, gateway, matcher, exe⟩ := alike
  have sameCalls : calls.parser = calls'.parser := by
    rw [ProcessorCalls.parser, ProcessorCalls.parser, same.parserLevel, same.entries]
  unfold ProcessorCalls.push
  rw [sameCalls, parser, exe, same.executor]
  cases calls'.parser.foldlM ParserCall.apply ideal.parser with
  | none => exact .none
  | some parser =>
      simp only [Option.bind_eq_bind, Option.bind_some]
      refine rel_bind (rel_foldlM same.matcher
        (fun _ _ _ _ pairs matchers => Matcher.apply_alike matchers pairs) matcher)
        fun _ _ matchers => ?_
      cases calls'.executor.foldlM (fun exe pair => exe.insertAction pair.2 pair.1) ideal.exe with
      | none => exact .none
      | some exe =>
          exact .some ⟨rfl, forall₂_foldl same.gateway (fun _ _ _ _ requests gateways =>
            gateways.apply requests) gateway,
            matchers, rfl⟩

theorem MatcherThread.generate_keeps {memory : Memory} {scratch : Nat → UInt8}
    {thread : MatcherThread} {phv after : Phv}
    (done : thread.generateMatchKeyAndMatch memory scratch phv = some after) :
    after.nextProcId = phv.nextProcId ∧ after.nextOp = phv.nextOp := by
  obtain ⟨key, _, done⟩ := Option.bind_eq_some_iff.mp done
  obtain ⟨found, _, done⟩ := Option.bind_eq_some_iff.mp done
  cases found with
  | none =>
      cases done
      exact ⟨rfl, rfl⟩
  | some value =>
      obtain ⟨high, _, done⟩ := Option.bind_eq_some_iff.mp done
      obtain ⟨low, _, done⟩ := Option.bind_eq_some_iff.mp done
      cases done
      exact ⟨rfl, rfl⟩

theorem Matcher.execute_nextOp {memory : Memory} {scratch : Nat → UInt8} {matcher : Matcher}
    {matcherId : Int} {phv after : Phv}
    (done : matcher.execute memory scratch matcherId phv = some after) : after.nextOp = phv.nextOp := by
  obtain ⟨thread, _, done⟩ := Option.bind_eq_some_iff.mp done
  split at done
  · cases done
    rfl
  · exact (MatcherThread.generate_keeps done).2

/-- Fresh processors, whose tables may be in different clusters only if they are at the same place. -/
theorem Processor.Alike.fresh (procId : Nat) : Processor.Alike located (.fresh procId) (.fresh procId) :=
  ⟨rfl, .fresh, List.forall₂_same.mpr fun _ member =>
    List.eq_of_mem_replicate member ▸ MatcherThread.Alike.fresh procId, rfl⟩

theorem Phv.Alike.goesTo {used ideal : Phv} (alike : used.Alike located ideal) {own other : Int}
    (here : located own other) :
    Phv.Alike located { used with nextProcId := other } { ideal with nextProcId := own } := by
  cases alike with
  | @redirected _ nextOp _
    _ => exact @Phv.Alike.redirected located other nextOp { ideal with nextProcId := own } here

theorem Matcher.execute_alike {used ideal : Matcher}
    (alike : List.Forall₂ (MatcherThread.Alike located) used ideal)
    (memory : Memory) (scratch : Nat → UInt8) (matcherId : Int) {phv phv' : Phv}
    (packets : phv.Alike located phv') :
    Option.Rel (Phv.Alike located) (used.execute memory scratch matcherId phv)
      (ideal.execute memory scratch matcherId phv') := by
  refine rel_bind (Matcher.thread_alike alike matcherId) fun thread thread' threads => ?_
  have none' : thread.noTable = thread'.noTable := by
    rw [threads.same]
  have miss : thread.missActId = thread'.missActId := by
    rw [threads.same]
  rw [none', miss, threads.generateMatchKeyAndMatch]
  split
  · cases packets with
    | @redirected nextProcId nextOp _ next =>
        exact .some (@Phv.Alike.redirected located nextProcId nextOp
          { phv' with hit := false, nextActionId := thread'.missActId } next)
  · exact (Unaware.generate memory scratch thread').alike (fun _ _ done =>
      (MatcherThread.generate_keeps done).1) packets

theorem Processor.Alike.processPacket (numbering : Numbering located) {used ideal : Processor}
    (alike : used.Alike located ideal) (memory : Memory) (scratch : Nat → UInt8) {phv phv' : Phv}
    (packets : phv.Alike located phv') :
    Option.Rel (Phv.Alike located) (used.processPacket memory scratch phv)
      (ideal.processPacket memory scratch phv') := by
  unfold Processor.processPacket
  rw [alike.parser, alike.exe]
  refine rel_bind (parse_alike numbering ideal.parser packets) fun phv phv' packets => ?_
  by_cases ended : phv'.nextProcId = -1
  · rw [if_pos ended, if_pos ((packets.ends numbering).mpr ended)]
    exact .some packets
  rw [if_neg ended, if_neg ((packets.ends numbering).not.mpr ended)]
  refine rel_bind (alike.gateway.execute packets) fun phv phv' ⟨packets, chosen⟩ => ?_
  rw [chosen.type]
  cases isType : phv'.nextOp.type with
  | stage => exact .some (packets.goesTo (chosen.stage_val isType))
  | table =>
      have val := chosen.table_val isType
      simp only [val]
      refine rel_bind_of (Matcher.execute_alike alike.matcher memory scratch _ packets)
        fun looked looked' run run' packets => ?_
      have own : looked.nextOp.val = phv'.nextOp.val := by
        rw [Matcher.execute_nextOp run, val]
      have own' : looked'.nextOp.val = phv'.nextOp.val := by
        rw [Matcher.execute_nextOp run']
      rw [own, own']
      refine rel_bind (Matcher.thread_alike alike.matcher _) fun thread thread' threads => ?_
      have act : looked.nextActionId = looked'.nextActionId := by
        cases packets
        rfl
      have leads : located (thread'.nextProc looked'.nextActionId) (thread.nextProc looked.nextActionId) :=
        act ▸ threads.nextProc numbering _
      exact (Unaware.execute ideal.exe).alike (fun _ _ done => Executor.execute_nextProcId done)
        (packets.goesTo leads)

end

end Ipbm.Dataplane
