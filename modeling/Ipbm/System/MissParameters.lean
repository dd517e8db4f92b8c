import Ipbm.Dataplane.Lookup
import Ipbm.Dataplane.ParserSteps
import Ipbm.Dataplane.Termination
import Ipbm.System.KeylessTable

/-! What a packet that misses reads of an earlier hit. The action of a miss is executed like that
of a hit and decodes its parameters from the match value that is still in the packet's vector. -/

set_option autoImplicit false

namespace Ipbm.Dataplane
open Lib

/-- A packet with what a hit before it has left. -/
def Phv.left (phv : Phv) (matchValue : Option (List UInt8)) (matchValueLen : Nat) : Phv :=
  { phv with matchValue, matchValueLen }

/-- The step neither reads nor writes the match value. -/
def Blind (step : Phv → Option Phv) : Prop :=
  ∀ phv matchValue matchValueLen,
    step (phv.left matchValue matchValueLen) = (step phv).map (Phv.left · matchValue matchValueLen)

namespace Blind

theorem bind {first second : Phv → Option Phv} (one : Blind first) (two : Blind second) :
    Blind fun phv => (first phv).bind second := by
  intro phv matchValue matchValueLen
  dsimp only
  rw [one]
  cases first phv with
  | none => rfl
  | some middle => exact two middle matchValue matchValueLen

theorem foldlM {ι : Type} {step : Phv → ι → Option Phv} (each : ∀ item, Blind (step · item))
    (items : List ι) :
    Blind fun phv => items.foldlM step phv := by
  induction items with
  | nil =>
      intro phv matchValue matchValueLen
      rfl
  | cons item rest ih =>
      intro phv matchValue matchValueLen
      dsimp only
      rw [List.foldlM_cons, List.foldlM_cons]
      exact (each item).bind ih phv matchValue matchValueLen

theorem dropPacket : Blind dropPacket := by
  intro phv matchValue matchValueLen
  unfold Dataplane.dropPacket modifyPhvWithData
  simp only [Phv.left, Option.bind_eq_bind, Option.map_bind, Function.comp_def, Option.pure_def,
    Option.map_some]

theorem drop : Blind ParserStage.drop := fun phv matchValue matchValueLen =>
  dropPacket { phv with nextProcId := -1 } matchValue matchValueLen

theorem extract (entry : ParserSramEntry) : Blind entry.extract := by
  intro phv matchValue matchValueLen
  unfold ParserSramEntry.extract
  simp only [Phv.left, Option.bind_eq_bind, Option.map_bind, Function.comp_def, Option.pure_def,
    Option.map_some]

theorem finish (entry : ParserSramEntry) : Blind entry.finish := by
  intro phv matchValue matchValueLen
  by_cases accepts : phv.missAct = 0
  · rw [ParserSramEntry.finish, ParserSramEntry.finish, if_pos accepts]
    exact if_pos accepts
  by_cases drops : phv.missAct = 1
  · rw [ParserSramEntry.finish, ParserSramEntry.finish, if_neg accepts, if_pos drops]
    exact (if_neg accepts).trans ((if_pos drops).trans (drop _ _ _))
  · have left := @ParserSramEntry.finish_goesOn entry (phv.left matchValue matchValueLen) accepts drops
    rw [left, ParserSramEntry.finish_goesOn accepts drops, Option.map_map]
    rfl

theorem parseStage (stage : ParserStage) : Blind stage.parse := by
  intro phv matchValue matchValueLen
  cases found : stage.matchIdx phv with
  | none =>
      have left := @ParserStage.parse_miss stage (phv.left matchValue matchValueLen) found
      have same : (phv.left matchValue matchValueLen).missAct = phv.missAct := rfl
      rw [left, ParserStage.parse_miss found, same]
      split
      · exact drop _ _ _
      · rfl
  | some index =>
      have left := @ParserStage.parse_hit stage (phv.left matchValue matchValueLen) index found
      rw [left, ParserStage.parse_hit found]
      exact (extract _).bind (finish _) _ _ _

theorem parseLevels (stages : List ParserStage) : Blind (Parser.parseLevels stages) := by
  induction stages with
  | nil =>
      intro phv matchValue matchValueLen
      rfl
  | cons stage rest ih =>
      refine (parseStage stage).bind fun phv matchValue matchValueLen => ?_
      by_cases ended : phv.nextProcId = -1
      · rw [if_pos ended]
        exact if_pos ended
      · rw [if_neg ended]
        exact (if_neg ended).trans (ih phv matchValue matchValueLen)

theorem parse (parser : Parser) : Blind parser.parse := by
  intro phv matchValue matchValueLen
  unfold Parser.parse
  split
  · split
    · exact parseLevels _ _ _ _
    · refine (parseLevels _).bind (fun phv matchValue matchValueLen => ?_) phv matchValue matchValueLen
      by_cases ended : phv.nextProcId = -1
      · rw [if_pos ended]
        exact if_pos ended
      · rw [if_neg ended]
        exact if_neg ended
  · rfl

theorem gateway (gateway : Gateway) : Blind gateway.execute := by
  intro phv matchValue matchValueLen
  have same : gateway.bitmap (phv.left matchValue matchValueLen) = gateway.bitmap phv := rfl
  unfold Gateway.execute
  rw [same]
  cases gateway.bitmap phv with
  | none => rfl
  | some bits =>
      simp only [Option.bind_eq_bind, Option.bind_some]
      cases gateway.resNext bits with
      | none => cases gateway.defaultEntry <;> rfl
      | some entry => rfl

private theorem execute_left (phv : Phv) (matchValue : Option (List UInt8)) (matchValueLen : Nat)
    (actionParas : List Data) (tree : ExpTreeNode) :
    Primitive.execute (phv.left matchValue matchValueLen) actionParas tree =
      Primitive.execute phv actionParas tree := by
  induction tree with
  | nil => rfl
  | node opt first second firstIH secondIH =>
      cases opt with
      | operator op => cases op <;> simp only [Primitive.execute, firstIH, secondIH]
      | _ => rfl

theorem modifyFieldWithData (field : FieldInfo) (data : Data) :
    Blind (Primitive.modifyFieldWithData field data) := by
  intro phv matchValue matchValueLen
  have same : (phv.left matchValue matchValueLen).parsedHeaders = phv.parsedHeaders := rfl
  unfold Primitive.modifyFieldWithData
  rw [same]
  cases phv.parsedHeaders[field.hdrId]? with
  | none => rfl
  | some header =>
      simp only [Option.bind_eq_bind, Option.bind_some]
      split
      · rfl
      · simp only [Phv.left, Option.map_bind, Function.comp_def, Option.pure_def, Option.map_some]

theorem run (actionParas : List Data) (primitive : Primitive) : Blind (primitive.run · actionParas) := by
  intro phv matchValue matchValueLen
  dsimp only [Primitive.run]
  rw [execute_left]
  cases Primitive.execute phv actionParas primitive.root with
  | none => rfl
  | some data => exact modifyFieldWithData _ _ _ _ _

theorem action (action : Action) (actionParas : List Data) : Blind (action.execute actionParas) :=
  foldlM (fun primitive => run actionParas primitive) action.prims

end Blind

/-! ### One processor -/

section

variable {memory : Memory} {scratch : Nat → UInt8} {processor : Processor}

/-- The packet is looked up in a table and misses. -/
def Processor.Misses (memory : Memory) (scratch : Nat → UInt8) (processor : Processor) (phv : Phv) : Prop :=
  (processor.matched memory scratch phv).map Phv.hit = some false

instance (memory : Memory) (scratch : Nat → UInt8) (processor : Processor) (phv : Phv) :
    Decidable (processor.Misses memory scratch phv) :=
  inferInstanceAs (Decidable (_ = _))

/-- The action of a miss in the table that the packet comes to, and the packet it is executed on. -/
def Processor.missRun (processor : Processor) (phv : Phv) : Option (Action × Phv) := do
  let phv ← processor.parser.parse phv
  if phv.nextProcId = -1 then
    none
  else
    let phv ← processor.gateway.execute phv
    match phv.nextOp.type with
    | .stage => none
    | .table => do
        let thread ← processor.matcher.thread phv.nextOp.val
        if thread.missActId < 0 then
          none
        else
          let action ← (processor.exe[thread.missActId.toNat]?).join
          return (action, { phv with
            hit := false, nextActionId := thread.missActId, nextProcId := thread.nextProc thread.missActId })

/-- A packet that misses runs the action with parameters from the value that is still there. -/
theorem Processor.processPacket_miss {phv : Phv} (missed : processor.Misses memory scratch phv) :
    processor.processPacket memory scratch phv = (processor.missRun phv).bind fun run =>
      (run.1.setActionParas run.2.matchValue).bind fun actionParas => run.1.execute actionParas run.2 := by
  obtain ⟨matched, look, missed⟩ := Option.map_eq_some_iff.mp missed
  obtain ⟨parsed, parse, look⟩ := Option.bind_eq_some_iff.mp look
  obtain ⟨goes, look⟩ := Option.ite_none_left_eq_some.mp look
  obtain ⟨gated, gate, look⟩ := Option.bind_eq_some_iff.mp look
  unfold processPacket missRun
  rw [parse, Option.bind_eq_bind, Option.bind_some, if_neg goes, gate, Option.bind_eq_bind, Option.bind_some]
  simp only [Option.bind_eq_bind, Option.bind_some, if_neg goes, gate]
  cases type : gated.nextOp.type <;> rw [type] at look
  case stage => cases look
  case table =>
    obtain ⟨thread, found, rfl⟩ := Matcher.execute_miss look missed
    simp only [look, found, Option.bind_some, Executor.execute]
    split
    · rfl
    · cases (processor.exe[thread.missActId.toNat]?).join <;> rfl

/-! ### Two runs -/

variable (phv : Phv) (matchValue : Option (List UInt8)) (matchValueLen : Nat)

private theorem generate_left (thread : MatcherThread) :
    (thread.generateMatchKeyAndMatch memory scratch (phv.left matchValue matchValueLen)).map Phv.hit =
      (thread.generateMatchKeyAndMatch memory scratch phv).map Phv.hit := by
  have same : thread.matchKey (phv.left matchValue matchValueLen) = thread.matchKey phv := rfl
  unfold MatcherThread.generateMatchKeyAndMatch
  rw [same]
  cases thread.matchKey phv with
  | none => rfl
  | some key =>
      simp only [Option.bind_eq_bind, Option.bind_some]
      cases thread.getMatchRes memory scratch key with
      | none => rfl
      | some res =>
          cases res with
          | none => rfl
          | some outValue =>
              simp only [Option.bind_some, Option.map_bind]
              rfl

/-- Whether a packet misses does not depend on an earlier hit. -/
theorem Processor.misses_left : processor.Misses memory scratch (phv.left matchValue matchValueLen) ↔
    processor.Misses memory scratch phv := by
  unfold Misses matched
  rw [Blind.parse]
  cases processor.parser.parse phv with
  | none => rfl
  | some parsed =>
      have next : (parsed.left matchValue matchValueLen).nextProcId = parsed.nextProcId := rfl
      simp only [Option.map_some, Option.bind_eq_bind, Option.bind_some, next]
      by_cases ended : parsed.nextProcId = -1
      · simp only [if_pos ended]
      · simp only [if_neg ended, Blind.gateway processor.gateway parsed]
        cases processor.gateway.execute parsed with
        | none => rfl
        | some gated =>
            have op : (gated.left matchValue matchValueLen).nextOp = gated.nextOp := rfl
            simp only [Option.map_some, Option.bind_some, op]
            cases gated.nextOp.type with
            | stage => rfl
            | table =>
                simp only [Matcher.execute]
                cases processor.matcher.thread gated.nextOp.val with
                | none => rfl
                | some thread =>
                    simp only [Option.bind_eq_bind, Option.bind_some]
                    split
                    · rfl
                    · rw [generate_left]

theorem Processor.missRun_left : processor.missRun (phv.left matchValue matchValueLen) =
    (processor.missRun phv).map fun run => (run.1, run.2.left matchValue matchValueLen) := by
  unfold missRun
  rw [Blind.parse]
  cases processor.parser.parse phv with
  | none => rfl
  | some parsed =>
      have next : (parsed.left matchValue matchValueLen).nextProcId = parsed.nextProcId := rfl
      simp only [Option.map_some, Option.bind_eq_bind, Option.bind_some, next]
      by_cases ended : parsed.nextProcId = -1
      · simp only [if_pos ended]
        rfl
      · simp only [if_neg ended, Blind.gateway processor.gateway parsed]
        cases processor.gateway.execute parsed with
        | none => rfl
        | some gated =>
            have op : (gated.left matchValue matchValueLen).nextOp = gated.nextOp := rfl
            simp only [Option.map_some, Option.bind_some, op]
            cases gated.nextOp.type with
            | stage => rfl
            | table =>
                simp only
                cases processor.matcher.thread gated.nextOp.val with
                | none => rfl
                | some thread =>
                    simp only [Option.bind_some]
                    split
                    · rfl
                    · cases (processor.exe[thread.missActId.toNat]?).join <;> rfl

end

end Ipbm.Dataplane

namespace Ipbm.System
open Lib Dataplane Compiler Controller

/-- The action of a miss in the table that the packet comes to. -/
def missAction (processor : Dataplane.Processor) (phv : Phv) : Option Dataplane.Action :=
  (processor.missRun phv).map Prod.fst

/-- The bytes of a packet, which hold its metadata, and the processor it goes to. -/
def outcome (phv : Phv) : List UInt8 × Int := (phv.packet, phv.nextProcId)

/-- Two runs on packets that miss and differ in what an earlier hit has left give the same. The
buffers that a lookup allocates may hold different bytes. -/
def SameAfterMiss (memory : Memory) (processor : Dataplane.Processor) (phv : Phv) : Prop :=
  ∀ scratch other matchValue matchValueLen otherValue otherLen,
    processor.Misses memory scratch (phv.left matchValue matchValueLen) →
    processor.Misses memory other (phv.left otherValue otherLen) →
    (processor.processPacket memory scratch (phv.left matchValue matchValueLen)).map outcome =
      (processor.processPacket memory other (phv.left otherValue otherLen)).map outcome

section

variable {memory : Memory} {scratch : Nat → UInt8} {processor : Dataplane.Processor} {phv : Phv}

private theorem outcome_miss {action : Dataplane.Action} {middle : Phv}
    (runs : processor.missRun phv = some (action, middle))
    (matchValue : Option (List UInt8)) (matchValueLen : Nat)
    (missed : processor.Misses memory scratch (phv.left matchValue matchValueLen)) :
    (processor.processPacket memory scratch (phv.left matchValue matchValueLen)).map outcome =
      (action.setActionParas matchValue).bind fun actionParas =>
        (action.execute actionParas middle).map outcome := by
  rw [Processor.processPacket_miss missed, Processor.missRun_left, runs]
  have value : (middle.left matchValue matchValueLen).matchValue = matchValue := rfl
  simp only [Option.map_some, Option.bind_some, value, Option.map_bind]
  refine congrArg (Option.bind _) (funext fun actionParas => ?_)
  have same : outcome ∘ (Phv.left · matchValue matchValueLen) = outcome := rfl
  rw [Function.comp_apply, Blind.action, Option.map_map, same]

/-- What an earlier hit has left does not matter to a packet that misses exactly if the action of
the miss has no parameters. -/
theorem sameAfterMiss_iff {after : Phv} (missed : processor.Misses memory scratch phv)
    (returns : processor.processPacket memory scratch phv = some after) :
    SameAfterMiss memory processor phv ↔ ∀ action ∈ missAction processor phv, action.paraNum = 0 := by
  have run := returns
  rw [Processor.processPacket_miss missed] at run
  obtain ⟨⟨action, middle⟩, runs, run⟩ := Option.bind_eq_some_iff.mp run
  simp only [missAction, runs, Option.map_some, Option.mem_some, forall_eq']
  constructor
  · intro same
    by_contra some_
    -- a packet that has not hit before has no match value to read parameters from
    have fresh := same scratch scratch phv.matchValue phv.matchValueLen none 0 missed
      ((Processor.misses_left _ _ _).mpr missed)
    have undefined_ : action.setActionParas none = none := by
      unfold Action.setActionParas
      rw [if_neg some_]
      split <;> rfl
    rw [outcome_miss runs none 0 ((Processor.misses_left _ _ _).mpr missed), undefined_,
      Option.bind_none] at fresh
    exact absurd fresh (by simp [Phv.left, returns])
  · intro none_ scratch other matchValue matchValueLen otherValue otherLen missed otherMissed
    have decoded : ∀ value, action.setActionParas value = some [] := fun value => if_pos none_
    rw [outcome_miss runs _ _ missed, outcome_miss runs _ _ otherMissed, decoded, decoded]

end

theorem sameAfterMiss_listed :
    SameAfterMiss Pipeline.listedPipeline.memory Pipeline.listedProcessor Phv.fresh :=
  (@sameAfterMiss_iff _ (fun _ => 0) _ _ _ (by decide) (Option.some_get (by decide)).symm).mpr
    (by decide)

/-! A table on the byte that its default action writes its parameter to. -/

def setAst : Ast where
  actions :=
    [{ name := "set", parameters := [("p", some 8)],
       expressions := [(.field "hdr" "h" "f", .parameter "p")] }]
  tables :=
    [{ name := "t", keys := [(.field "hdr" "h" "f", .exact)], optionalStmts := [.defaultAction "set"] }]
  ingress := [
    { name := "a", parser := [], executor := [⟨"set", ""⟩, ⟨"set", ""⟩],
      matcher := ⟨[], [⟨.default, .table "t"⟩]⟩ }]
  egress := []

def setProgram : Program := (load (fun _ => some ⟨0, 0, 8, .field⟩) [] setAst).get (by decide)

def setDocs : List (Option ProcessorDoc) :=
  (emitProgram (fun _ items => items) (fun _ => none) setProgram).get (by decide)

def setDoc : ProcessorDoc := ((setDocs[0]?).join).get (by decide)

def setGateway : List GatewayRequest := (extractGateway setDoc.gateway).get (by decide)

def setMatcher : List Request := (extractMatcher setDoc.matcher 0).get (by decide)

def setAction : Dataplane.Action := ⟨[⟨⟨0, 0, 8, .field⟩, .node (.param 0) .nil .nil⟩], 1, [8]⟩

def setRequests : List Request :=
  extractParser setDoc.levels 0 ++ setGateway.map (.gateway 0) ++ setMatcher ++
    List.replicate 2 (.insertAction 0 0 setAction) ++ [extractMetadata [⟨31, 0, 20⟩]]

def setPipeline : Pipeline := (Pipeline.fresh.configure setRequests).get (by decide)

def setProcessor : Dataplane.Processor := (setPipeline.proc 0).get (by decide)

private theorem extract_set : InitDataplane.extract setDocs [⟨31, 0, 20⟩] = some setRequests := by
  have docs : setDocs = some setDoc :: List.replicate 15 none := rfl
  have executor : setDoc.executor = List.replicate 2
    ⟨0, 1, [8], [⟨some (("h", "f"), ⟨0, 0, 8, .field⟩), some (.parameter 0)⟩]⟩ := rfl
  have actions : extractExecutor setDoc.executor 0 =
      some (List.replicate 2 (.insertAction 0 0 setAction)) := by
    rw [executor]
    have bits : natural 8 = some 8 := rfl
    simp [extractExecutor, extractAction, extractPrimitive, buildExpTree, sentField, setAction, bits, wrap]
  have gateway : extractGateway setDoc.gateway = some setGateway := (Option.some_get _).symm
  have matcher : extractMatcher setDoc.matcher 0 = some setMatcher := (Option.some_get _).symm
  have processor : extractProcessor [⟨31, 0, 20⟩] 0 setDoc = some setRequests := by
    rw [extractProcessor, gateway, Option.bind_eq_bind, Option.bind_some]
    simp only [matcher, actions, Option.bind_eq_bind, Option.bind_some]
    rfl
  rw [docs]
  simp [InitDataplane.extract, List.zipIdx, processor]

/-- A packet whose first byte is in header 0 and in no entry of the table. -/
def bytePhv : Phv :=
  { Phv.fresh with packet := 7 :: List.replicate 175 0, parsedHeaders := List.replicate 32 ⟨0, 0, 8⟩ }

private theorem not_sameAfterMiss_setProcessor : ¬SameAfterMiss setPipeline.memory setProcessor bytePhv := by
  intro same
  have runs := same (fun _ => 0) (fun _ => 0) (some [0, 0, 5]) 3 (some [0, 0, 6]) 3
    (by decide +kernel) (by decide +kernel)
  revert runs
  decide +kernel

/-- A default action with a parameter is compiled and sent, and writes what is left of a hit. -/
theorem not_sameAfterMiss_set : ∃ program docs requests pipeline processor,
    load (fun _ => some ⟨0, 0, 8, .field⟩) [] setAst = some program ∧
    emitProgram (fun _ items => items) (fun _ => none) program = some docs ∧
    InitDataplane.extract docs [⟨31, 0, 20⟩] = some requests ∧
    Pipeline.fresh.configure requests = some pipeline ∧ pipeline.proc 0 = some processor ∧
    ¬SameAfterMiss pipeline.memory processor bytePhv :=
  ⟨setProgram, setDocs, setRequests, setPipeline, setProcessor, (Option.some_get _).symm,
    (Option.some_get _).symm, extract_set, (Option.some_get _).symm, (Option.some_get _).symm,
    not_sameAfterMiss_setProcessor⟩

end Ipbm.System
