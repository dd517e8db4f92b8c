import Ipbm.Compiler.AllocationProperties
import Ipbm.Compiler.Elimination
import Ipbm.Compiler.Renumbering
import Ipbm.Lib.Simulation

/-! What a packet meets before and after single-action stages are removed. The
gateways, the table lookups and the effect of a primitive are parameters, so the
packets and the primitives of every run are compared. -/

set_option autoImplicit false

namespace Ipbm.Compiler
open Lib ProcessorManager
open Distribution (liveStages)

/-! ### Runs of stages -/

/-- An operand without a parameter of the action. -/
inductive ParameterFree : Option Operand → Prop
  | null : ParameterFree none
  | constant (value : Int) : ParameterFree (some (.constant value))
  | field (headerField : Option HeaderField) : ParameterFree (some (.field headerField))
  | expression {op : Rp4Operator} {left right : Option Operand} (first : ParameterFree left)
      (second : ParameterFree right) : ParameterFree (some (.expression op left right))

/-- What happens to a packet. A gateway takes one of the switch entries, and one without entries
goes on to the actions; a lookup gives one of the actions of the stage, with data for its
parameters. -/
structure Outcomes (Packet Data : Type) where
  gate : StageDef → Packet → SwitchValue
  lookup : StageDef → Packet → Nat × Data
  execute : Data → Assign → Packet → Packet
  gate_listed : ∀ stage packet, (∃ entry ∈ stage.matcher.switchEntries, entry.value = gate stage packet) ∨
    stage.matcher.switchEntries = [] ∧ (gate stage packet).isTableStmt = true
  lookup_listed : ∀ stage packet, stage.executor ≠ [] → (lookup stage packet).1 < stage.executor.length
  execute_free : ∀ first second assign packet, ParameterFree assign.rvalue →
    execute first assign packet = execute second assign packet

/-- Stages by number, the stages that gateways go on to by name, and actions by id. -/
structure StageGraph where
  stage : Int → Option (StageDef × List (Int × Int))
  target : String → Int
  primitives : Int → List Assign

/-- A packet at a stage, with the primitives executed so far. -/
structure Passing (Packet : Type) where
  stageId : Int
  packet : Packet
  executed : List Assign

namespace StageGraph

variable {Packet Data : Type} (graph : StageGraph) (outcomes : Outcomes Packet Data)

def step (passing : Passing Packet) : Option (Passing Packet) :=
  (graph.stage passing.stageId).map fun (definition, actionProc) =>
    match outcomes.gate definition passing.packet with
    | .stage name => { passing with stageId := graph.target name }
    | .none => { passing with stageId := -1 }
    | .table _ =>
        let (choice, data) := outcomes.lookup definition passing.packet
        match actionProc[choice]? with
        | none => { passing with stageId := -1 }
        | some (actionId, next) =>
            { stageId := next
              packet :=
                (graph.primitives actionId).foldl (fun packet assign => outcomes.execute data assign packet)
                passing.packet
              executed := passing.executed ++ graph.primitives actionId }

section

variable {graph : StageGraph} {outcomes : Outcomes Packet Data} {passing : Passing Packet}
  {definition : StageDef} {actionProc : List (Int × Int)}

theorem step_stage (found : graph.stage passing.stageId = some (definition, actionProc)) {name : String}
    (gate : outcomes.gate definition passing.packet = .stage name) :
    graph.step outcomes passing = some { passing with stageId := graph.target name } := by
  rw [step, found, Option.map_some]
  simp only [gate]

theorem step_none (found : graph.stage passing.stageId = some (definition, actionProc))
    (gate : outcomes.gate definition passing.packet = .none) :
    graph.step outcomes passing = some { passing with stageId := -1 } := by
  rw [step, found, Option.map_some]
  simp only [gate]

theorem step_missing (found : graph.stage passing.stageId = some (definition, actionProc)) {name : String}
    (gate : outcomes.gate definition passing.packet = .table name)
    (missing : actionProc[(outcomes.lookup definition passing.packet).1]? = none) :
    graph.step outcomes passing = some { passing with stageId := -1 } := by
  rw [step, found, Option.map_some]
  simp only [gate, missing]

theorem step_table (found : graph.stage passing.stageId = some (definition, actionProc)) {name : String}
    (gate : outcomes.gate definition passing.packet = .table name) {actionId next : Int}
    (listed : actionProc[(outcomes.lookup definition passing.packet).1]? = some (actionId, next)) :
    graph.step outcomes passing = some {
      stageId := next
      packet := (graph.primitives actionId).foldl (fun packet assign =>
        outcomes.execute (outcomes.lookup definition passing.packet).2 assign packet) passing.packet
      executed := passing.executed ++ graph.primitives actionId } := by
  rw [step, found, Option.map_some]
  simp only [gate, listed]

end

/-- A packet enters at the stage with number 0 and leaves with the primitives that were executed. -/
def Yields (packet result : Packet) (executed : List Assign) : Prop :=
  ∃ count stageId, Ends (graph.step outcomes) count ⟨0, packet, []⟩ ⟨stageId, result, executed⟩

end StageGraph

/-- The stages as they are declared. -/
def StageState.graph (state : StageState) : StageGraph where
  stage stageId := (stageAt (fillActionProc state).stages.logicalStages stageId).map fun stage =>
    (stage.definition, stage.actionProc)
  target := stageIdOf state.stages
  primitives := state.actions.primitives

/-- The stages of a loaded program. -/
def Program.graph (program : Program) : StageGraph where
  stage stageId := (program.stages.lookupId stageId).map fun stage => (stage.definition, stage.actionProc)
  target := stageIdOf program.stages
  primitives := program.actions.primitives

/-! ### Actions without parameters -/

private theorem parseExpr_free {headers : HeaderLookup} {actionDef : ActionDef}
    (none : actionDef.parameters = []) {operation : Operation} {operand : Option Operand}
    (parsed : parseExpr headers (some actionDef) operation = some operand) : ParameterFree operand := by
  induction operation generalizing operand with
  | nil => cases parsed
  | literal value =>
      cases parsed
      exact .constant value
  | lvalue source =>
      cases parsed
      exact .field _
  | parameter name =>
      have isOperand : (actionDef.parameters.findIdx? fun parameter =>
          parameter.1 = name).map Operand.parameter = operand :=
        Option.some.inj parsed
      rw [none] at isOperand
      cases isOperand
      exact .null
  | binary op left right leftIH rightIH =>
      obtain ⟨first, isFirst, parsed⟩ := Option.bind_eq_some_iff.mp parsed
      obtain ⟨second, isSecond, parsed⟩ := Option.bind_eq_some_iff.mp parsed
      cases parsed
      exact .expression (leftIH isFirst) (rightIH isSecond)

/-- Ids are positions, and actions without parameters do not refer to any. -/
private structure ActionsLoaded (actions : ActionManager) : Prop where
  ids : (actions.map fun entry => entry.2.id) = (List.range actions.length).map
    fun (position : Nat) => (position : Int)
  free : ∀ entry ∈ actions, entry.2.parameterNum = 0 →
    ∀ assign ∈ entry.2.primitives, ParameterFree assign.rvalue

private theorem load_actions {headers : HeaderLookup} {ast : Ast} {actions : ActionManager}
    (done : ActionManager.load headers ast = some actions) : ActionsLoaded actions := by
  refine foldlM_preserves ActionsLoaded ?_ done ⟨rfl, by simp⟩
  intro before actionDef after _ loaded step
  unfold ActionManager.addAction at step
  split at step
  · cases step
    exact loaded
  · obtain ⟨primitives, made, step⟩ := Option.bind_eq_some_iff.mp step
    cases step
    refine ⟨by simp [List.range_succ, loaded.ids], ?_⟩
    intro entry member noParameters assign inside
    rcases List.mem_append.mp member with old | new
    · exact loaded.free entry old noParameters assign inside
    · obtain rfl := List.mem_singleton.mp new
      obtain ⟨expression, _, isAssign⟩ := mem_of_mapM_some made inside
      obtain ⟨rvalue, parsed, isAssign⟩ := Option.bind_eq_some_iff.mp isAssign
      cases isAssign
      exact parseExpr_free (List.length_eq_zero_iff.mp noParameters) parsed

private theorem load_unprocessed {headers : HeaderLookup} {ast : Ast} {actions : ActionManager}
    (done : ActionManager.load headers ast = some actions) :
    Unprocessed ⟨StageManager.load ast, actions⟩ := by
  have loaded := load_actions done
  refine ⟨load_positions ast, ?_, ?_, ?_⟩
  · unfold StageManager.load
    induction ast.ingress ++ ast.egress using List.reverseRecOn with
    | nil => simp
    | append_singleton stageDefs stageDef ih =>
        rw [List.foldl_append, List.foldl_cons, List.foldl_nil, StageManager.addStage]
        split
        · exact ih
        · intro stage member
          rcases List.mem_append.mp member with old | new
          · exact ih stage old
          · rw [List.mem_singleton.mp new]
  · rw [loaded.ids]
    exact List.nodup_range.map fun _ _ equal => Int.ofNat.inj equal
  · intro some
    have zero : (0 : Int) ∈ actions.map fun entry => entry.2.id := by
      rw [loaded.ids]
      exact List.mem_map.mpr ⟨0, List.mem_range.mpr (List.length_pos_iff.mpr some), rfl⟩
    obtain ⟨entry, member, isZero⟩ := List.mem_map.mp zero
    exact ⟨_, List.mem_map_of_mem member, isZero⟩

/-! ### The stages that stay -/

/-- A loaded program has the stages that were not removed where they were, with new numbers. An
entry is given the number of the stage that the chain of removed stages ends at, or 0 behind two of
them. -/
private structure Renumbered (removed : StageState × GotoMap) (program : Program) : Prop where
  names : program.stages.names = removed.1.stages.names
  actions : program.actions = removed.1.actions
  length : program.stages.logicalStages.length = removed.1.stages.logicalStages.length
  removal : Removal removed.2 removed.1.stages.logicalStages
  arrives : Arrives removed.2 removed.1.stages.logicalStages
  stages : ∃ map : Int → Option Int, (∀ target visited last,
    ValidRef removed.1.stages.logicalStages.length target →
      GotoChain removed.2 removed.1.stages.logicalStages target visited last →
        (map target).getD 0 = if 2 ≤ visited.length then 0
          else newNumber removed.1.stages.logicalStages last) ∧
    ∀ (position : Nat) stage, removed.1.stages.logicalStages[position]? = some stage → stage.removed = false →
      ∃ final, program.stages.logicalStages[position]? = some final ∧ final.removed = false ∧
        final.definition = stage.definition ∧ final.stageId = (map stage.stageId).getD 0 ∧
        final.actionProc = stage.actionProc.map fun pair => (pair.1, (map pair.2).getD 0)
  places : ∀ (position : Nat) stage, removed.1.stages.logicalStages[position]? = some stage →
    stage.removed = true →
    ∃ final visited last, program.stages.logicalStages[position]? = some final ∧
      GotoChain removed.2 removed.1.stages.logicalStages stage.stageId visited last ∧ 0 ≤ last ∧
        final.stageId = newNumber removed.1.stages.logicalStages last ∧ final.removed = true ∧
          ∃ copied ∈ removed.1.stages.logicalStages, copied.removed = true ∧
            final.definition = copied.definition

private theorem load_renumbered {headers : HeaderLookup} {levels : List Level} {ast : Ast} {program : Program}
    {actions : ActionManager} (declared : ActionManager.load headers ast = some actions)
    (done : load headers levels ast = some program) :
    ∃ removed, removeStages (fillActionProc ⟨StageManager.load ast, actions⟩) = some removed ∧
      Renumbered removed program := by
  obtain ⟨actions', isActions, done⟩ := Option.bind_eq_some_iff.mp done
  cases declared.symm.trans isActions
  obtain ⟨tables, _, done⟩ := Option.bind_eq_some_iff.mp done
  obtain ⟨state, initialized, done⟩ := Option.bind_eq_some_iff.mp done
  obtain ⟨⟨stages, gateways⟩, gatewaysLoaded, done⟩ := Option.bind_eq_some_iff.mp done
  cases done
  obtain ⟨⟨removed, gotoMap⟩, isRemoved, initialized⟩ := Option.bind_eq_some_iff.mp initialized
  obtain ⟨⟨followed, map⟩, reordered, initialized⟩ := Option.bind_eq_some_iff.mp initialized
  obtain ⟨final, generated, initialized⟩ := Option.bind_eq_some_iff.mp initialized
  cases initialized
  obtain ⟨made, _, gatewaysLoaded⟩ := Option.bind_eq_some_iff.mp gatewaysLoaded
  cases gatewaysLoaded
  have unprocessed := load_unprocessed declared
  have removal := removeStages_removal unprocessed.positions unprocessed.stays isRemoved
  have arrives := arrives_of_reorderMap removal reordered
  obtain ⟨result, reordered', mapped⟩ := reorderMap_of_arrives removal arrives
  cases reordered'.symm.trans reordered
  have follows := reorderMap_followed removal.nodup (fun _ member => removal.nonneg member) reordered
  have numbered : ∀ (position : Nat) same, followed[position]? = some same → ∃ last,
      (final.zipIdx.map fun item => { item.1 with gatewayId := item.2 })[position]? = some last ∧
        last.removed = same.removed ∧ last.definition = same.definition ∧
        last.stageId = (map same.stageId).getD 0 ∧
          last.actionProc = same.actionProc.map fun pair => (pair.1, (map pair.2).getD 0) := by
    intro position same there
    have renumbered : (reorderStages followed map)[position]? = some { same with
        stageId := (map same.stageId).getD 0
        actionProc := same.actionProc.map fun pair => (pair.1, (map pair.2).getD 0) } := by
      rw [reorderStages, List.getElem?_map, there]
      rfl
    obtain ⟨inside, value⟩ := List.getElem?_eq_some_iff.mp renumbered
    have step := getElem_of_mapM_some generated inside
    obtain ⟨last, isLast⟩ : ∃ last, final[position]? = some last :=
      ⟨_, List.getElem?_eq_getElem (length_of_mapM_some generated ▸ inside)⟩
    rw [value, isLast] at step
    obtain ⟨ids, _, step⟩ := Option.bind_eq_some_iff.mp step
    cases step
    refine ⟨{ same with
      stageId := (map same.stageId).getD 0
      actionProc := same.actionProc.map fun pair => (pair.1, (map pair.2).getD 0)
      gatewayId := position
      tableId := same.tableId ++ ids }, ?_, rfl, rfl, rfl, rfl⟩
    rw [List.getElem?_map, List.getElem?_zipIdx, isLast]
    simp
  refine ⟨(removed, gotoMap), isRemoved, rfl, rfl, ?_, removal, arrives, ⟨map,
    fun _ _ _ valid chain => mapped.target removal valid chain, ?_⟩, ?_⟩
  · have length := length_of_mapM_some generated
    rw [reorderStages, List.length_map] at length
    simp only [List.length_map, List.length_zipIdx]
    rw [length, ← follows.same.length_eq]
  · intro position stage here stays
    obtain ⟨same, there, isSame⟩ := forall₂_right follows.same here
    rw [stays, if_neg Bool.false_ne_true] at isSame
    subst isSame
    obtain ⟨last, isLast, gone, definition, number, entries⟩ := numbered position same there
    exact ⟨last, isLast, gone.trans stays, definition, number, entries⟩
  · intro position stage here isRemoved
    obtain ⟨copied, own⟩ := reorderMap_copies removal reordered
    have inside := (List.getElem?_eq_some_iff.mp here).1
    obtain ⟨current, there⟩ : ∃ current, followed[position]? = some current :=
      ⟨_, List.getElem?_eq_getElem (copied.length ▸ inside)⟩
    obtain ⟨inStages, source, isSource, same, path⟩ := copied.along position current there
    cases here.symm.trans isSource
    obtain ⟨last, chain⟩ := own position inside current there (same.trans isRemoved)
    obtain ⟨front, whole⟩ := chain.of_points path
    obtain ⟨visited, other, arriving, low⟩ := arrives stage (List.mem_of_getElem? here) isRemoved
    obtain ⟨_, rfl⟩ := arriving.unique whole
    obtain ⟨final, isFinal, gone, definition, number, _⟩ := numbered position current there
    have valid : ValidRef removed.stages.logicalStages.length current.stageId := by
      obtain ⟨index, found⟩ := List.mem_iff_getElem?.mp inStages
      rw [removal.stageId found]
      exact .inr ⟨Int.natCast_nonneg _, Int.ofNat_lt.mpr (List.getElem?_eq_some_iff.mp found).1⟩
    rw [mapped.target removal valid chain, if_neg (by simp)] at number
    exact ⟨final, _, other, isFinal, arriving, low, number, gone.trans (same.trans isRemoved),
      current, inStages, same.trans isRemoved, definition⟩

/-! ### One place in both graphs -/

/-- The end of the pipeline, or the position of a stage. -/
private def StageReference (state : StageState) (target : Int) : Prop :=
  target = -1 ∨ ∃ (position : Nat) (stage : Stage), target = position ∧
    state.stages.logicalStages[position]? = some stage

private theorem stageIdOf_reference {state : StageState} (unprocessed : Unprocessed state) (name : String) :
    StageReference state (stageIdOf state.stages name) := by
  unfold stageIdOf StageManager.lookupName
  cases state.stages.names.idxOf? name with
  | none => exact .inl rfl
  | some position =>
      cases here : state.stages.logicalStages[position]? with
      | none => simp [here, StageReference]
      | some stage =>
          refine .inr ⟨position, stage, ?_, here⟩
          simp [here, unprocessed.stageId here]

private theorem filled_reference {state : StageState} (unprocessed : Unprocessed state)
    {position : Nat} {stage : Stage}
    (here : (fillActionProc state).stages.logicalStages[position]? = some stage) {pair : Int × Int}
    (member : pair ∈ stage.actionProc) : StageReference state pair.2 := by
  obtain ⟨before, _, rfl⟩ := filled_stage here
  obtain ⟨entry, _, rfl⟩ := List.mem_map.mp member
  exact stageIdOf_reference unprocessed entry.stageName

private theorem through_reference {state : StageState} (unprocessed : Unprocessed state) {target last : Int}
    {extra : List Assign} (through : Through state target extra last)
    (reference : StageReference state target) :
    StageReference state last := by
  induction through with
  | stop => exact reference
  | pass here _ ih =>
      obtain ⟨stage, filled, only⟩ := single_entries here
      exact ih (filled_reference unprocessed filled (only ▸ List.mem_singleton_self _))

/-- What the pass has done with the declared stages. -/
private structure Eliminated (state : StageState) (removed : StageState × GotoMap)
    (program : Program) : Prop where
  unprocessed : Unprocessed state
  follow : EntriesFollow state
  removing : Removing state state.stages.logicalStages.length removed
  renumbered : Renumbered removed program
  loaded : Loaded program

/-- A stage that stays has a number in either graph; one without a stage ends the run. -/
private inductive Place (state : StageState) (removed : StageState × GotoMap) (program : Program) :
    Int → Int → Prop
  | outside {place : Int} (left : state.graph.stage place = none) (right : program.graph.stage place = none) :
      Place state removed program place place
  | stage {position : Nat} {kept final : Stage} (here : removed.1.stages.logicalStages[position]? = some kept)
      (stays : kept.removed = false) (there : program.stages.logicalStages[position]? = some final)
      (finalStays : final.removed = false) : Place state removed program position final.stageId

namespace Eliminated

variable {state : StageState} {removed : StageState × GotoMap} {program : Program}

private theorem ending (eliminated : Eliminated state removed program) :
    Place state removed program (-1) (-1) := by
  refine .outside rfl ?_
  cases found : program.stages.lookupId (-1) with
  | none => simp [Program.graph, found]
  | some stage =>
      obtain ⟨live, number⟩ := lookupId_live found
      have nonneg := eliminated.loaded.ordinary stage live
      omega

private theorem kept (eliminated : Eliminated state removed program) {position : Nat} {kept : Stage}
    (here : removed.1.stages.logicalStages[position]? = some kept) :
    kept.stageId = position ∧ (kept.removed = true ↔ position ∈ removedStages state) := by
  have inside := (List.getElem?_eq_some_iff.mp here).1
  rw [eliminated.removing.length, ← length_filled] at inside
  have stages := eliminated.removing.stages position _ kept (List.getElem?_eq_getElem inside) here
  exact ⟨stages.1, stages.2.2.1⟩

private theorem position (eliminated : Eliminated state removed program) {position : Nat} {stage : Stage}
    (here : state.stages.logicalStages[position]? = some stage) (stays : position ∉ removedStages state) :
    ∃ kept final, removed.1.stages.logicalStages[position]? = some kept ∧ kept.stageId = position ∧
      kept.removed = false ∧ program.stages.logicalStages[position]? = some final ∧
      Place state removed program position final.stageId := by
  have inside := (List.getElem?_eq_some_iff.mp here).1
  rw [← eliminated.removing.length] at inside
  have isKept := List.getElem?_eq_getElem inside
  obtain ⟨number, gone⟩ := eliminated.kept isKept
  have notRemoved := Bool.eq_false_iff.mpr fun isRemoved => stays (gone.mp isRemoved)
  obtain ⟨map, _, stages⟩ := eliminated.renumbered.stages
  obtain ⟨final, there, finalStays, _⟩ := stages position _ isKept notRemoved
  exact ⟨_, final, isKept, number, notRemoved, there, .stage isKept notRemoved there finalStays⟩

private theorem chain_settle (eliminated : Eliminated state removed program) {target last : Int}
    {visited : List Int} (chain : GotoChain removed.2 removed.1.stages.logicalStages target visited last) :
    settle state state.stages.logicalStages.length target = last := by
  have removal := eliminated.renumbered.removal
  induction chain with
  | stop ends =>
      refine settle_kept fun position isRemoved isPosition => ?_
      obtain ⟨own, isSingle⟩ := removedBefore_single isRemoved
      have inside := single_inside isSingle
      rw [← eliminated.removing.length] at inside
      have here := List.getElem?_eq_getElem inside
      obtain ⟨number, gone⟩ := eliminated.kept here
      have next := removal.gotoNext_removed (List.mem_of_getElem? here) (gone.mpr isRemoved)
      rw [number, eliminated.removing.goto position isRemoved, isSingle, ← isPosition, ends] at next
      cases next
  | step points _ ih =>
      obtain ⟨stage, member, rfl, isRemoved, leads, _⟩ := removal.gotoNext_some points
      obtain ⟨position, here⟩ := List.mem_iff_getElem?.mp member
      obtain ⟨number, gone⟩ := eliminated.kept here
      rw [number] at leads ⊢
      rw [eliminated.removing.goto position (gone.mp isRemoved)] at leads
      obtain ⟨own, isSingle, rfl⟩ := Option.map_eq_some_iff.mp leads
      exact (settle_removed isSingle (gone.mp isRemoved)).trans ih

private theorem last (eliminated : Eliminated state removed program) {target last : Int} {visited : List Int}
    (valid : ValidRef removed.1.stages.logicalStages.length target)
    (chain : GotoChain removed.2 removed.1.stages.logicalStages target visited last) :
    Place state removed program last (newNumber removed.1.stages.logicalStages last) := by
  have removal := eliminated.renumbered.removal
  rcases removal.ending valid chain with rfl | ⟨stage, inside, rfl, stays⟩
  · exact eliminated.ending
  · obtain ⟨position, here⟩ := List.mem_iff_getElem?.mp inside
    obtain ⟨number, gone⟩ := eliminated.kept here
    obtain ⟨map, numbers, stages⟩ := eliminated.renumbered.stages
    obtain ⟨final, there, finalStays, _, isNumber, _⟩ := stages position stage here stays
    have own := numbers stage.stageId [] stage.stageId (.inr ⟨removal.nonneg inside, ?_⟩)
      (.stop (removal.gotoNext_live inside stays))
    · rw [if_neg (by simp), ← isNumber] at own
      rw [← own, number]
      exact .stage here stays there finalStays
    · rw [number]
      exact_mod_cast (List.getElem?_eq_some_iff.mp here).1

private theorem number_first (eliminated : Eliminated state removed program) {last : Int} (low : 0 ≤ last)
    (first : FirstStaying state last) : newNumber removed.1.stages.logicalStages last = 0 := by
  rw [newNumber, if_neg (by omega), Nat.cast_eq_zero, List.length_eq_zero_iff, liveStages,
    List.filter_eq_nil_iff]
  intro kept member
  obtain ⟨index, here⟩ := List.mem_iff_getElem?.mp member
  have below := (List.getElem?_eq_some_iff.mp here).1
  rw [List.length_take] at below
  rw [List.getElem?_take_of_lt (by omega)] at here
  simp [(eliminated.kept here).2.mpr (first index (by omega))]

private theorem target (eliminated : Eliminated state removed program) {name : String}
    (idle : ∀ position ∈ removedStages state, stageIdOf state.stages name = position → Idle state position) :
    ∃ place, Through state (stageIdOf state.stages name) [] place ∧
      Place state removed program place (stageIdOf program.stages name) := by
  have names : program.stages.names = state.stages.names :=
    eliminated.renumbered.names.trans eliminated.removing.names
  have length := eliminated.renumbered.length.trans eliminated.removing.length
  unfold stageIdOf StageManager.lookupName at idle ⊢
  rw [names]
  cases index : state.stages.names.idxOf? name with
  | none => exact ⟨-1, .stop _, eliminated.ending⟩
  | some position =>
      rw [index] at idle
      cases here : state.stages.logicalStages[position]? with
      | none =>
          have missing := here
          rw [List.getElem?_eq_none_iff, ← length, ← List.getElem?_eq_none_iff] at missing
          exact ⟨-1, by simpa [here] using Through.stop (-1), by simpa [missing] using eliminated.ending⟩
      | some stage =>
          have number := eliminated.unprocessed.stageId here
          simp only [Option.bind_eq_bind, Option.bind_some, here, Option.map_some, Option.getD_some,
            number] at idle ⊢
          by_cases isRemoved : position ∈ removedStages state
          · have inside := (List.getElem?_eq_some_iff.mp here).1
            rw [← eliminated.removing.length] at inside
            have isKept := List.getElem?_eq_getElem inside
            obtain ⟨own, gone⟩ := eliminated.kept isKept
            obtain ⟨final, visited, last, there, chain, _, isNumber, _⟩ :=
              eliminated.renumbered.places position _ isKept (gone.mpr isRemoved)
            rw [own] at chain
            have way := idle position isRemoved rfl
            rw [Idle, eliminated.chain_settle chain] at way
            refine ⟨last, way, ?_⟩
            rw [there, Option.map_some, Option.getD_some, isNumber]
            exact eliminated.last (.inr ⟨Int.natCast_nonneg _, Int.ofNat_lt.mpr inside⟩) chain
          · obtain ⟨kept, final, _, _, _, there, place⟩ := eliminated.position here isRemoved
            exact ⟨position, .stop _, by simpa [there] using place⟩

private theorem start (eliminated : Eliminated state removed program) (untangled : Untangled state) :
    ∃ place, Through state 0 [] place ∧ Place state removed program place 0 := by
  have length := eliminated.renumbered.length.trans eliminated.removing.length
  cases here : state.stages.logicalStages[0]? with
  | none =>
      have empty : state.stages.logicalStages.length = 0 := by simpa using here
      refine ⟨0, .stop 0, .outside ?_ ?_⟩
      · simp [StageState.graph, stageAt, fillActionProc, List.length_eq_zero_iff.mp empty]
      · have none : program.stages.logicalStages = [] := List.length_eq_zero_iff.mp (length.trans empty)
        simp [Program.graph, StageManager.lookupId, none]
  | some stage =>
      have inside := (List.getElem?_eq_some_iff.mp here).1
      rw [← eliminated.removing.length] at inside
      have valid : ValidRef removed.1.stages.logicalStages.length 0 := .inr ⟨le_rfl, Int.ofNat_lt.mpr inside⟩
      by_cases isRemoved : 0 ∈ removedStages state
      · have isKept := List.getElem?_eq_getElem inside
        obtain ⟨own, gone⟩ := eliminated.kept isKept
        obtain ⟨final, visited, last, there, chain, low, _⟩ :=
          eliminated.renumbered.places 0 _ isKept (gone.mpr isRemoved)
        rw [own] at chain
        obtain ⟨way, before⟩ := untangled.first isRemoved
        have settled := eliminated.chain_settle chain
        rw [Nat.cast_zero] at settled
        rw [Idle, Nat.cast_zero, settled] at way
        rw [settled] at before
        have place := eliminated.last valid chain
        rw [eliminated.number_first low before] at place
        exact ⟨last, way, place⟩
      · obtain ⟨kept, final, isKept, _, stays, there, place⟩ := eliminated.position here isRemoved
        obtain ⟨_, _, stages⟩ := eliminated.renumbered.stages
        obtain ⟨same, sameAt, finalStays, _⟩ := stages 0 kept isKept stays
        cases there.symm.trans sameAt
        -- the first stage is the first of those that stay
        have number : final.stageId = 0 := by
          cases isStages : program.stages.logicalStages with
          | nil => simp [isStages] at there
          | cons first rest =>
              rw [isStages] at there
              obtain rfl : first = final := Option.some.inj there
              have ids := eliminated.loaded.numbered.live
              rw [isStages, Distribution.liveStages, List.filter_cons_of_pos (by simp [finalStays])] at ids
              rw [List.map_cons, List.length_cons, List.range_succ_eq_map, List.map_cons] at ids
              exact (List.cons.inj ids).1
        rw [number] at place
        exact ⟨0, .stop 0, place⟩

private theorem reference (eliminated : Eliminated state removed program) {map : Int → Option Int}
    (numbers : ∀ target visited last, ValidRef removed.1.stages.logicalStages.length target →
      GotoChain removed.2 removed.1.stages.logicalStages target visited last →
        (map target).getD 0 = if 2 ≤ visited.length then 0 else newNumber removed.1.stages.logicalStages last)
    {entry : Int × Int} (member : entry ∈ stayingEntries state state.stages.logicalStages.length)
    {target : Int} (isTarget : (course state state.stages.logicalStages.length entry).1 = target)
    (valid : ValidRef removed.1.stages.logicalStages.length target) :
    Place state removed program (settle state state.stages.logicalStages.length target)
      ((map target).getD 0) := by
  have removal := eliminated.renumbered.removal
  obtain ⟨visited, last, chain⟩ : ∃ visited last,
      GotoChain removed.2 removed.1.stages.logicalStages target visited last := by
    cases points : gotoNext removed.2 removed.1.stages.logicalStages target with
    | none => exact ⟨_, _, .stop points⟩
    | some next =>
        obtain ⟨source, inside, number, isRemoved, _⟩ := removal.gotoNext_some points
        obtain ⟨visited, last, chain, _⟩ := eliminated.renumbered.arrives source inside isRemoved
        exact ⟨visited, last, number ▸ chain⟩
  rw [eliminated.chain_settle chain, numbers target visited last valid chain]
  have place := eliminated.last valid chain
  split
  · next long =>
      -- behind two removed stages the number is 0
      cases chain with
      | stop => simp at long
      | step points rest =>
          cases rest with
          | stop => simp at long
          | step later behind =>
              obtain ⟨stage, inside, rfl, isRemoved, leads, _⟩ := removal.gotoNext_some points
              obtain ⟨_, end_, chain, low⟩ := eliminated.renumbered.arrives stage inside isRemoved
              obtain ⟨_, rfl⟩ := chain.unique (.step points (.step later behind))
              obtain ⟨position, here⟩ := List.mem_iff_getElem?.mp inside
              obtain ⟨number, gone⟩ := eliminated.kept here
              rw [number] at leads isTarget
              rw [eliminated.removing.goto position (gone.mp isRemoved)] at leads
              obtain ⟨own, isSingle, rfl⟩ := Option.map_eq_some_iff.mp leads
              obtain ⟨other, isOther, number, otherRemoved, _⟩ := removal.gotoNext_some later
              obtain ⟨next, there⟩ := List.mem_iff_getElem?.mp isOther
              obtain ⟨otherNumber, otherGone⟩ := eliminated.kept there
              have first :=
                eliminated.follow.chains entry member position (gone.mp isRemoved) isTarget own isSingle next
                (otherGone.mp otherRemoved) (number.symm.trans otherNumber)
              rw [eliminated.chain_settle (.step later behind)] at first
              rwa [eliminated.number_first low first] at place
  · exact place

end Eliminated

/-! ### Steps -/

section

variable {Packet Data : Type} {outcomes : Outcomes Packet Data} {state : StageState} {removed :
  StageState × GotoMap} {program : Program}

private theorem foldl_execute {primitives : List Assign}
    (free : ∀ assign ∈ primitives, ParameterFree assign.rvalue)
    (first second : Data) (packet : Packet) :
    primitives.foldl (fun packet assign => outcomes.execute first assign packet) packet =
      primitives.foldl (fun packet assign => outcomes.execute second assign packet) packet := by
  induction primitives generalizing packet with
  | nil => rfl
  | cons assign rest ih =>
      rw [List.foldl_cons, List.foldl_cons,
        outcomes.execute_free first second assign packet (free assign List.mem_cons_self)]
      exact ih (fun other member => free other (List.mem_cons_of_mem _ member)) _

variable (outcomes) in
private theorem pass_step {position : Nat} {own : Int × Int} (isSingle : single state position = some own)
    (packet : Packet) (executed : List Assign) :
    ∃ data, state.graph.step outcomes ⟨position, packet, executed⟩ = some ⟨own.2,
      (state.actions.primitives own.1).foldl
        (fun packet assign => outcomes.execute data assign packet) packet,
      executed ++ state.actions.primitives own.1⟩ := by
  obtain ⟨stage, here, only⟩ := single_entries isSingle
  obtain ⟨before, entry, _, first, virtual, _⟩ := single_iff.mp isSingle
  obtain ⟨source, there, rfl⟩ := filled_stage here
  cases first.symm.trans there
  obtain ⟨isEntry, tables⟩ := getVirtualAction_some virtual
  have isTable : (outcomes.gate before.definition packet).isTableStmt = true := by
    rcases outcomes.gate_listed before.definition packet with ⟨switch, member, same⟩ | ⟨_, isTable⟩
    · rw [← same]
      exact List.all_eq_true.mp tables switch member
    · exact isTable
  have choice : (outcomes.lookup before.definition packet).1 = 0 := by
    have listed := outcomes.lookup_listed before.definition packet (by simp [isEntry])
    rw [isEntry, List.length_singleton] at listed
    omega
  refine ⟨(outcomes.lookup before.definition packet).2, ?_⟩
  have stageAt : state.graph.stage position = some (before.definition, [own]) := by
    simp only [StageState.graph, ProcessorManager.stageAt, Int.natCast_nonneg, if_true,
      Int.toNat_natCast, here, Option.map_some]
    exact congrArg (fun entries => some (before.definition, entries)) only
  cases gate : outcomes.gate before.definition packet with
  | stage name => simp [gate, SwitchValue.isTableStmt] at isTable
  | none => simp [gate, SwitchValue.isTableStmt] at isTable
  | table name =>
      have listed : [own][(outcomes.lookup before.definition packet).1]? = some (own.1, own.2) := by
        rw [choice]
        rfl
      exact @StageGraph.step_table Packet Data _ _
        ⟨position, packet, executed⟩ _ _ stageAt name gate _ _ listed

private theorem single_free {headers : HeaderLookup} {ast : Ast} {actions : ActionManager}
    (declared : ActionManager.load headers ast = some actions) {names : StageManager}
    {position : Nat} {own : Int × Int} (isSingle : single ⟨names, actions⟩ position = some own) :
    ∀ assign ∈ ActionManager.primitives actions own.1, ParameterFree assign.rvalue := by
  have loaded := load_actions declared
  have unique : (actions.map fun entry => entry.2.id).Nodup := by
    rw [loaded.ids]
    exact List.nodup_range.map fun _ _ equal => Int.ofNat.inj equal
  obtain ⟨_, entry, action, _, _, found, noParameters, rfl⟩ := single_iff.mp isSingle
  rw [ActionManager.primitives, ActionManager.lookupId_of_lookupName unique found]
  obtain ⟨listed, first, rfl⟩ := Option.map_eq_some_iff.mp found
  exact loaded.free listed (List.mem_of_find?_eq_some first) noParameters

variable (outcomes) in
private theorem through_runs {headers : HeaderLookup} {ast : Ast} {actions : ActionManager}
    (declared : ActionManager.load headers ast = some actions) {names : StageManager} {target last : Int}
    {extra : List Assign} (through : Through ⟨names, actions⟩ target extra last) (data : Data)
    (packet : Packet) (executed : List Assign) :
    ∃ count, Runs (StageGraph.step (StageState.graph ⟨names, actions⟩) outcomes) count ⟨target,
      packet, executed⟩
      ⟨last, extra.foldl (fun packet assign => outcomes.execute data assign packet) packet,
        executed ++ extra⟩ := by
  induction through generalizing packet executed with
  | stop target => exact ⟨0, by simpa using Runs.done _⟩
  | pass here _ ih =>
      obtain ⟨own, step⟩ := pass_step outcomes here packet executed
      rw [foldl_execute (single_free declared here) own data] at step
      obtain ⟨count, runs⟩ := ih (List.foldl (fun packet assign => outcomes.execute data assign packet) packet
        (ActionManager.primitives actions _)) (executed ++ ActionManager.primitives actions _)
      rw [← List.foldl_append, List.append_assoc] at runs
      exact ⟨count + 1, .turn step runs⟩

variable (outcomes) in
private theorem idle_runs {headers : HeaderLookup} {ast : Ast} {actions : ActionManager}
    (declared : ActionManager.load headers ast = some actions) {names : StageManager} {target last : Int}
    (through : Through ⟨names, actions⟩ target [] last) (packet : Packet) (executed : List Assign) :
    ∃ count, Runs (StageGraph.step (StageState.graph ⟨names, actions⟩) outcomes) count ⟨target,
      packet, executed⟩ ⟨last, packet, executed⟩ := by
  -- nothing is executed, whatever the data
  have data := (outcomes.lookup ⟨"", [], ⟨[], []⟩, []⟩ packet).2
  simpa using through_runs outcomes declared through data packet executed

private theorem graph_stage (loaded : Loaded program) {stage : Stage}
    (member : stage ∈ program.stages.logicalStages)
    (stays : stage.removed = false) :
    program.graph.stage stage.stageId = some (stage.definition, stage.actionProc) := by
  have live : stage ∈ liveStages program.stages.logicalStages := List.mem_filter.mpr ⟨member, by simp [stays]⟩
  change (program.stages.lookupId stage.stageId).map _ = _
  rw [lookupId_of_live loaded live, Option.map_some]

/-- One packet with one trace, at one place. -/
private def Related (state : StageState) (removed : StageState × GotoMap) (program : Program)
    (first second : Passing Packet) : Prop :=
  Place state removed program first.stageId second.stageId ∧ first.packet = second.packet ∧
    first.executed = second.executed

variable (outcomes) in
private theorem eliminated_simulates {headers : HeaderLookup} {ast : Ast} {actions : ActionManager}
    (declared : ActionManager.load headers ast = some actions) {names : StageManager}
    (eliminated : Eliminated ⟨names, actions⟩ removed program) (untangled : Untangled ⟨names, actions⟩) :
    Simulates ((StageState.graph ⟨names, actions⟩).step outcomes) (program.graph.step outcomes)
      (Related ⟨names, actions⟩ removed program) := by
  constructor
  · rintro ⟨first, packet, executed⟩ ⟨second, _, _⟩ ⟨place, rfl, rfl⟩ ended
    cases place with
    | outside left _ => rw [StageGraph.step, left, Option.map_none]
    | stage _ _ there finalStays =>
        have found := graph_stage eliminated.loaded (List.mem_of_getElem? there) finalStays
        simp [StageGraph.step, found] at ended
  · rintro ⟨first, packet, executed⟩ ⟨second, _, _⟩ next ⟨place, rfl, rfl⟩ step
    cases place with
    | outside _ right => simp [StageGraph.step, right] at step
    | @stage position kept final here stays there finalStays =>
        have inside := (List.getElem?_eq_some_iff.mp here).1
        rw [eliminated.removing.length, ← length_filled] at inside
        obtain ⟨filled, isFilled⟩ : ∃ filled,
            (fillActionProc ⟨names, actions⟩).stages.logicalStages[position]? = some filled :=
          ⟨_, List.getElem?_eq_getElem inside⟩
        obtain ⟨_, definition, gone, entries⟩ := eliminated.removing.stages position filled kept isFilled here
        have isStaying : ∀ entry ∈ filled.actionProc, entry ∈ stayingEntries
            ⟨names, actions⟩ names.logicalStages.length := by
          intro entry member
          refine mem_stayingEntries.mpr ⟨position, filled, isFilled, fun isRemoved => ?_, member⟩
          rw [gone.mpr isRemoved] at stays
          cases stays
        obtain ⟨map, numbers, stages⟩ := eliminated.renumbered.stages
        obtain ⟨same, sameAt, _, isDefinition, _, isProc⟩ := stages position kept here stays
        cases there.symm.trans sameAt
        rw [entries stays, List.map_map] at isProc
        have left : (StageState.graph ⟨names, actions⟩).stage position =
            some (final.definition, filled.actionProc) := by
          simp [StageState.graph, stageAt, isFilled, isDefinition, definition]
        have right := graph_stage eliminated.loaded (List.mem_of_getElem? there) finalStays
        obtain ⟨before, isBefore, isSource⟩ := filled_stage isFilled
        have isDeclared : before.definition = final.definition := by
          rw [isDefinition, definition, isSource]
        cases gate : outcomes.gate final.definition packet with
        | none =>
            cases step.symm.trans (StageGraph.step_none right gate)
            exact ⟨0, _, .turn (StageGraph.step_none left gate) (.done _), eliminated.ending, rfl, rfl⟩
        | stage name =>
            cases step.symm.trans (StageGraph.step_stage right gate)
            rcases outcomes.gate_listed final.definition packet with ⟨entry, member, value⟩ | ⟨_, isTable⟩
            · rw [← isDeclared] at member
              obtain ⟨place, way, related⟩ := eliminated.target (untangled.gateways before
                (List.mem_of_getElem? isBefore) entry member name (value.trans gate))
              obtain ⟨count, runs⟩ := idle_runs outcomes declared way packet executed
              exact ⟨count, _, .turn (StageGraph.step_stage left gate) runs, related, rfl, rfl⟩
            · rw [gate] at isTable
              cases isTable
        | table name =>
            cases old : filled.actionProc[(outcomes.lookup final.definition packet).1]? with
            | none =>
                have missing : final.actionProc[(outcomes.lookup final.definition packet).1]? = none := by
                  rw [isProc, List.getElem?_map, old, Option.map_none]
                cases step.symm.trans (StageGraph.step_missing right gate missing)
                exact ⟨0, _, .turn (StageGraph.step_missing left gate old) (.done _),
                  eliminated.ending, rfl, rfl⟩
            | some entry =>
                have member := isStaying entry (List.mem_of_getElem? old)
                have listed : final.actionProc[(outcomes.lookup final.definition packet).1]? = some (entry.1,
                    (map (course ⟨names, actions⟩ names.logicalStages.length entry).1).getD 0) := by
                  rw [isProc, List.getElem?_map, old]
                  rfl
                cases step.symm.trans (StageGraph.step_table right gate listed)
                have through := through_course eliminated.follow member
                have primitives : program.graph.primitives entry.1 =
                  (StageState.graph ⟨names, actions⟩).primitives entry.1 ++
                    (course ⟨names, actions⟩ names.logicalStages.length entry).2 := by
                  rw [Program.graph, eliminated.renumbered.actions]
                  exact eliminated.removing.primitives entry member
                obtain ⟨data, isData⟩ : ∃ data, (outcomes.lookup final.definition packet).2 = data := ⟨_, rfl⟩
                obtain ⟨count, runs⟩ := through_runs outcomes declared through data
                  (((StageState.graph ⟨names, actions⟩).primitives entry.1).foldl (fun packet assign =>
                    outcomes.execute data assign packet) packet)
                  (executed ++ (StageState.graph ⟨names, actions⟩).primitives entry.1)
                rw [← List.foldl_append, List.append_assoc, ← primitives, ← isData] at runs
                refine ⟨count, _, .turn (StageGraph.step_table left gate old) runs, ?_, rfl, rfl⟩
                refine eliminated.reference numbers member rfl ?_
                refine eliminated.renumbered.removal.targets kept (List.mem_of_getElem? here)
                  (moved ⟨names, actions⟩ names.logicalStages.length entry) ?_
                rw [entries stays]
                exact List.mem_map_of_mem (List.mem_of_getElem? old)

private theorem eliminated_load {headers : HeaderLookup} {levels : List Level} {ast : Ast}
    {actions : ActionManager} (declared : ActionManager.load headers ast = some actions)
    (done : load headers levels ast = some program)
    (follow : EntriesFollow ⟨StageManager.load ast, actions⟩) :
    ∃ removed, Eliminated ⟨StageManager.load ast, actions⟩ removed program := by
  obtain ⟨removed, isRemoved, renumbered⟩ := load_renumbered declared done
  have unprocessed := load_unprocessed declared
  exact ⟨removed, unprocessed, follow, removeStages_removing unprocessed follow isRemoved,
    renumbered, load_loaded done⟩

/-- The number that a loaded program has for a place of the declared stages. -/
def Program.Numbers (program : Program) (place number : Int) : Prop :=
  place = -1 ∧ number = -1 ∨ ∃ (position : Nat) (stage : Stage), place = position ∧
    program.stages.logicalStages[position]? = some stage ∧ stage.removed = false ∧ number = stage.stageId

theorem Loaded.numbers_inj (loaded : Loaded program) {first second number : Int}
    (one : program.Numbers first number) (two : program.Numbers second number) : first = second := by
  have live {position : Nat} {stage : Stage} (here : program.stages.logicalStages[position]? = some stage)
      (stays : stage.removed = false) : stage ∈ liveStages program.stages.logicalStages :=
    List.mem_filter.mpr ⟨List.mem_of_getElem? here, by rw [stays]; rfl⟩
  have place {position : Nat} {stage : Stage} (here : program.stages.logicalStages[position]? = some stage) :
      stage.gatewayId = position := by
    have ids := congrArg (fun ids : List Nat => ids[position]?) loaded.gatewayIds
    simp only [List.getElem?_map, here, Option.map_some] at ids
    have inside := (List.getElem?_eq_some_iff.mp ids.symm).1
    rw [List.getElem?_eq_getElem inside, List.getElem_range] at ids
    exact Option.some.inj ids
  obtain ⟨rfl, rfl⟩ | ⟨position, stage, rfl, here, stays, rfl⟩ := one
  · obtain ⟨rfl, -⟩ | ⟨_, other, -, there, remains, same⟩ := two
    · rfl
    · have := loaded.ordinary other (live there remains)
      omega
  · obtain ⟨-, same⟩ | ⟨_, other, rfl, there, remains, same⟩ := two
    · have := loaded.ordinary stage (live here stays)
      omega
    · obtain rfl := List.inj_on_of_nodup_map loaded.unique (live here stays) (live there remains) same
      rw [← place here, ← place there]

/-- What a loaded program has of the declared stages. A stage that stays keeps its entries, whose
actions have taken up what is assigned on the way to the next stage that stays; in the place of a
removed one there is some removed stage. -/
structure StageState.Becomes (state : StageState) (program : Program) (next : Int × Int → Int) : Prop where
  length : program.stages.logicalStages.length = state.stages.logicalStages.length
  signature : program.actions.signature = state.actions.signature
  stays : ∀ (position : Nat) stage, (fillActionProc state).stages.logicalStages[position]? = some stage →
    position ∉ removedStages state → ∃ final, program.stages.logicalStages[position]? = some final ∧
      final.removed = false ∧ final.definition = stage.definition ∧
        final.actionProc = stage.actionProc.map fun entry => (entry.1, next entry)
  gone : ∀ position ∈ removedStages state, ∃ final, program.stages.logicalStages[position]? = some final ∧
    final.removed = true ∧
    ∃ source ∈ removedStages state, ∃ stage, state.stages.logicalStages[source]? = some stage ∧
      final.definition = stage.definition
  entries : ∀ entry ∈ stayingEntries state state.stages.logicalStages.length, ∃ extra arrival,
    program.actions.primitives entry.1 = state.actions.primitives entry.1 ++ extra ∧
      Through state entry.2 extra arrival ∧ program.Numbers arrival (next entry)

private theorem Place.numbers {place number : Int} (isPlace : Place state removed program place number)
    (reference : StageReference state place) : program.Numbers place number := by
  cases isPlace with
  | outside left _ =>
      rcases reference with rfl | ⟨position, stage, rfl, here⟩
      · exact .inl ⟨rfl, rfl⟩
      · simp [StageState.graph, stageAt, fillActionProc, here] at left
  | stage _ _ there finalStays => exact .inr ⟨_, _, rfl, there, finalStays, rfl⟩

private theorem Eliminated.removed_stage (eliminated : Eliminated state removed program) {position : Nat}
    (isRemoved : position ∈ removedStages state) :
    ∃ kept, removed.1.stages.logicalStages[position]? = some kept ∧ kept.removed = true := by
  obtain ⟨own, isSingle⟩ := removedBefore_single isRemoved
  have inside := single_inside isSingle
  rw [← eliminated.removing.length] at inside
  have here := List.getElem?_eq_getElem inside
  exact ⟨_, here, (eliminated.kept here).2.mpr isRemoved⟩

/-- A loaded program, if the entries are led on right. -/
theorem load_becomes {headers : HeaderLookup} {levels : List Level} {ast : Ast} {actions : ActionManager}
    (declared : ActionManager.load headers ast = some actions) (done : load headers levels ast = some program)
    (follow : EntriesFollow ⟨StageManager.load ast, actions⟩) :
    ∃ next, StageState.Becomes ⟨StageManager.load ast, actions⟩ program next := by
  obtain ⟨removed, eliminated⟩ := eliminated_load declared done follow
  have removing := eliminated.removing
  obtain ⟨map, numbers, stages⟩ := eliminated.renumbered.stages
  refine ⟨fun entry => (map (course ⟨StageManager.load ast, actions⟩
    (StageManager.load ast).logicalStages.length entry).1).getD 0,
      eliminated.renumbered.length.trans removing.length,
    (congrArg ActionManager.signature eliminated.renumbered.actions).trans removing.signature, ?_, ?_, ?_⟩
  · intro position stage here stays
    obtain ⟨before, first, rfl⟩ := filled_stage here
    obtain ⟨kept, _, isKept, _, notRemoved, _⟩ := eliminated.position first stays
    obtain ⟨_, definition, _, entries⟩ := removing.stages position _ kept here isKept
    obtain ⟨final, there, finalStays, isDefinition, _, isProc⟩ := stages position kept isKept notRemoved
    refine ⟨final, there, finalStays, isDefinition.trans definition, ?_⟩
    rw [isProc, entries notRemoved, List.map_map]
    rfl
  · intro position isRemoved
    obtain ⟨kept, isKept, gone⟩ := eliminated.removed_stage isRemoved
    obtain ⟨final, _, _, there, _, _, _, finalGone, copied, isCopied, copiedGone, definition⟩ :=
      eliminated.renumbered.places position kept isKept gone
    obtain ⟨source, isSource⟩ := List.mem_iff_getElem?.mp isCopied
    have inside := (List.getElem?_eq_some_iff.mp isSource).1
    rw [removing.length, ← length_filled] at inside
    have filled := List.getElem?_eq_getElem inside
    obtain ⟨_, sourceDefinition, sourceGone, _⟩ := removing.stages source _ copied filled isSource
    obtain ⟨before, first, same⟩ := filled_stage filled
    refine ⟨final, there, finalGone, source, sourceGone.mp copiedGone, before, first, ?_⟩
    rw [definition, sourceDefinition, same]
  · intro entry member
    have through := through_course follow member
    obtain ⟨position, stage, here, stays, listed⟩ := mem_stayingEntries.mp member
    obtain ⟨before, first, rfl⟩ := filled_stage here
    obtain ⟨kept, _, isKept, _, notRemoved, _⟩ := eliminated.position first stays
    have reference := through_reference eliminated.unprocessed through
      (filled_reference eliminated.unprocessed here listed)
    have place := eliminated.reference numbers member rfl ?_
    · refine ⟨_, _, ?_, through, place.numbers reference⟩
      rw [eliminated.renumbered.actions]
      exact removing.primitives entry member
    · refine eliminated.renumbered.removal.targets kept (List.mem_of_getElem? isKept)
        (moved ⟨StageManager.load ast, actions⟩ (StageManager.load ast).logicalStages.length entry) ?_
      rw [(removing.stages position _ kept here isKept).2.2.2 notRemoved]
      exact List.mem_map_of_mem listed

/-- As long as the single-action stages are untangled, removing them changes neither the packet nor
the primitives of any run that ends, and ends no other. -/
theorem elimination_preserves {headers : HeaderLookup} {levels : List Level} {ast : Ast}
    {actions : ActionManager} (declared : ActionManager.load headers ast = some actions)
    (done : load headers levels ast = some program)
    (untangled : Untangled ⟨StageManager.load ast, actions⟩) (outcomes : Outcomes Packet Data)
    (packet result : Packet) (executed : List Assign) :
    (StageState.graph ⟨StageManager.load ast, actions⟩).Yields outcomes packet result executed ↔
      program.graph.Yields outcomes packet result executed := by
  obtain ⟨removed, eliminated⟩ := eliminated_load declared done untangled.toEntriesFollow
  have simulates := eliminated_simulates outcomes declared eliminated untangled
  obtain ⟨place, way, related⟩ := eliminated.start untangled
  have start : Related ⟨StageManager.load ast, actions⟩ removed program ⟨place, packet, []⟩ ⟨0, packet, []⟩ :=
    ⟨related, rfl, rfl⟩
  constructor
  · rintro ⟨count, stageId, ends⟩
    obtain ⟨front, runs⟩ := idle_runs outcomes declared way packet []
    obtain ⟨rest, _, ends⟩ := ends.split runs
    obtain ⟨steps, ⟨final, _, _⟩, endsRight, _, rfl, rfl⟩ := simulates.ends_right start ends
    exact ⟨steps, final, endsRight⟩
  · rintro ⟨count, stageId, ends⟩
    obtain ⟨steps, ⟨final, _, _⟩, ⟨runs, ended⟩, _, rfl, rfl⟩ := simulates.ends_left start ends
    obtain ⟨front, before⟩ := idle_runs outcomes declared way packet []
    exact ⟨front + steps, final, before.trans runs, ended⟩

end

/-- A stage `b` with one action between two others; `entries` is the switch of the first one. -/
def betweenAst (entries : List SwitchEntry) : Ast where
  actions := ["permit", "count", "mark", "last", "drop"].map fun name =>
    { name, parameters := [],
      expressions := if name = "mark" then [(.field "hdr" "h" "f", .literal 1)] else [] }
  tables := [{ name := "t", keys := [], optionalStmts := [] }]
  ingress := [
    { name := "a", parser := [], matcher := ⟨[], entries⟩, executor := [⟨"permit", "b"⟩, ⟨"count", "c"⟩] },
    { name := "b", parser := [], matcher := ⟨[], [⟨.default, .table "t"⟩]⟩, executor := [⟨"mark", "c"⟩] },
    { name := "c", parser := [], matcher := ⟨[], [⟨.default, .table "t"⟩]⟩,
      executor := [⟨"last", ""⟩, ⟨"drop", ""⟩] }]
  egress := []

def betweenState (entries : List SwitchEntry) : StageState where
  stages := StageManager.load (betweenAst entries)
  actions := (ActionManager.load (fun _ => none) (betweenAst entries)).get (by rfl)

/-- What the stage `b` executes. -/
def marks : List Assign := ActionManager.primitives (betweenState []).actions 2

/-- The first entry of every switch is taken, and the first action of every stage. -/
def firstOutcomes : Outcomes Unit Unit where
  gate stage _ := (stage.matcher.switchEntries.head?.map SwitchEntry.value).getD (.table "")
  lookup _ _ := (0, ())
  execute _ _ packet := packet
  gate_listed stage _ := by
    cases entries : stage.matcher.switchEntries with
    | nil => exact .inr ⟨rfl, rfl⟩
    | cons entry rest => exact .inl ⟨entry, List.mem_cons_self, rfl⟩
  lookup_listed _ _ listed := List.length_pos_iff.mpr listed
  execute_free _ _ _ _ _ := rfl

def tableSwitch : List SwitchEntry := [⟨.default, .table "t"⟩]

def gatewaySwitch : List SwitchEntry := [⟨.exact 1, .stage "b"⟩, ⟨.default, .table "t"⟩]

def betweenProgram (entries : List SwitchEntry)
    (loads : (load (fun _ => none) [] (betweenAst entries)).isSome) : Program :=
  (load (fun _ => none) [] (betweenAst entries)).get loads

/-- No gateway goes on to the stage with one action, and one action leads there. -/
theorem elimination_preserves_table :
    (betweenState tableSwitch).graph.Yields firstOutcomes () () marks ↔
      (betweenProgram tableSwitch (by decide)).graph.Yields firstOutcomes () () marks := by
  have tables : ∀ stage ∈ (betweenState tableSwitch).stages.logicalStages,
      ∀ entry ∈ stage.definition.matcher.switchEntries, entry.value.isTableStmt = true := by decide
  have only : ∀ position own, single (betweenState tableSwitch) position = some own → position = 1 ∧
      own = (2, 2) := by
    intro position own isSingle
    have inside : position < 3 := single_inside isSingle
    match position with
    | 0 | 2 => cases isSingle
    | 1 => exact ⟨rfl, (Option.some.inj isSingle).symm⟩
  have untangled : Untangled (betweenState tableSwitch) := by
    refine ⟨⟨?_, ?_, by decide, ?_⟩, fun removed => absurd removed (by decide), ?_⟩
    · intro position own isSingle _
      obtain ⟨rfl, rfl⟩ := only position own isSingle
      decide
    · intro position own isSingle
      obtain ⟨rfl, rfl⟩ := only position own isSingle
      decide
    · intro entry member position removed leads own isSingle next gone
      obtain ⟨rfl, rfl⟩ := only position own isSingle
      have away : ∀ next ∈ removedStages (betweenState tableSwitch), (2 : Int) ≠ next := by decide
      exact fun same => absurd same (away next gone)
    · intro stage member entry inside name value
      have isTable := tables stage member entry inside
      rw [value] at isTable
      cases isTable
  exact @elimination_preserves Unit Unit _ (fun _ => none) [] _ _ rfl rfl untangled firstOutcomes () () marks

/-- The gateway of the first stage goes on to the stage with one action. That stage is removed and
the gateway goes on to its successor, so its action is not executed any more. -/
theorem not_elimination_preserves_gateway :
    (betweenState gatewaySwitch).graph.Yields firstOutcomes () () (marks ++
        ActionManager.primitives (betweenState []).actions 3) ∧
      ¬ (betweenProgram gatewaySwitch (by decide)).graph.Yields firstOutcomes () () (marks ++
        ActionManager.primitives (betweenState []).actions 3) := by
  have skips : (betweenProgram gatewaySwitch (by decide)).graph.Yields firstOutcomes () () [] :=
    ⟨2, -1, .turn rfl (.turn rfl (.done _)), rfl⟩
  refine ⟨⟨3, -1, .turn rfl (.turn rfl (.turn rfl (.done _))), rfl⟩, ?_⟩
  rintro ⟨count, stageId, ends⟩
  obtain ⟨steps, other, ended⟩ := skips
  have same := congrArg Passing.executed (ended.unique ends)
  cases same

end Ipbm.Compiler
