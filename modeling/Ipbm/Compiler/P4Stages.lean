import Ipbm.Compiler.Declarations
import Ipbm.Compiler.P4Pipeline
import Mathlib.Data.List.Perm.Basic

/-! The stages, tables and actions of a P4 program as the translator prints them
(`p4r/p4_pipeline.h`, `p4r/p4_action.h`), in the syntax tree of rP4. -/

set_option autoImplicit false

namespace Ipbm.Compiler.P4r
open Dataplane

/-- What is printed for the expression of a conditional, and for the keys and the sizes of a table. -/
structure P4Surroundings where
  operands : P4Conditional → List Operation
  values : P4Conditional → List Int
  headers : String → List String
  keys : P4Table → List (LValue × MatchType)
  maxSize : P4Table → Nat
  valueWidth : P4Table → Nat

/-- A stage before its names are translated: its switch, and the tables whose successors it lists. -/
structure P4Stage where
  name : String
  operands : List Operation
  switch : List SwitchEntry
  listed : List P4Table
  deriving DecidableEq, Repr

namespace P4Program

variable (emitted : P4Program)

def actionText (name : String) (index : Int) : String :=
  String.ofList (emitted.translateActionName name index)

def tableText (name : String) : String := String.ofList (emitted.translateTableName name)

def stageText (name : String) : String := String.ofList (emitted.translateStageName name)

/-! ### Executors -/

/-- The id of the action with the name, from the vectors `actions` and `action_ids` of one length. -/
def keyActionId (table : P4Table) (key : String) : Int :=
  (table.actions.zip table.actionIds).foldl (fun id action => if action.1 = key then action.2 else id) 0

def entryAction (table : P4Table) (key : String) : String :=
  if isHitMiss key then emitted.actionText (table.name ++ key) 0
    else emitted.actionText key (keyActionId table key)

/-- No successor is printed as the keyword `None`. -/
def entryStage (name : String) : String := if name = "" then "None" else emitted.stageText name

def executorEntry (table : P4Table) (next : String × String) : ExecutorEntry where
  actionName := emitted.entryAction table next.1
  stageName := emitted.entryStage next.2

/-! ### Stages -/

def outNext (text : String) : SwitchValue :=
  if text = "" then .none else if emitted.isStage text then .stage text else .table text

def translateValue : SwitchValue → SwitchValue
  | .table name => .table (emitted.tableText name)
  | .stage name => .stage (emitted.stageText name)
  | .none => .none

variable (surroundings : P4Surroundings)

/-- A conditional lists the successors of the tables it leads to that are no stages of their own. -/
def conditionalStage (pipeline : P4Pipeline) (conditional : P4Conditional) : P4Stage where
  name := conditional.name
  operands := surroundings.operands conditional
  switch :=
    (surroundings.values conditional).map (fun value =>
      ⟨.exact value, emitted.outNext conditional.trueNext⟩) ++
      [⟨.default, emitted.outNext conditional.falseNext⟩]
  listed := pipeline.tables.filter fun table =>
    (table.name = conditional.trueNext || table.name = conditional.falseNext) && !emitted.isStage table.name

def tableStage (table : P4Table) : P4Stage where
  name := table.name
  operands := [.literal 1]
  switch := [⟨.exact 1, .table table.name⟩]
  listed := [table]

/-- The element with the name is swapped with the first one. -/
def swapFirst {α : Type} (name : α → String) (first : String) (items : List α) : List α :=
  match items.findIdx? fun item => name item = first with
  | none => items
  | some index => items.swap 0 index

/-- The stages of a pipeline, the initial node first if it is among them. -/
def pipelineStages (pipeline : P4Pipeline) : List P4Stage :=
  let conditionals := pipeline.conditionals.map (emitted.conditionalStage surroundings pipeline)
  let tables := fun (tables : List P4Table) =>
    (tables.filter fun table => emitted.isStage table.name).map tableStage
  if pipeline.initTable ∈ pipeline.conditionals.map P4Conditional.name then
    swapFirst P4Stage.name pipeline.initTable conditionals ++ tables pipeline.tables
  else
    tables (swapFirst P4Table.name pipeline.initTable pipeline.tables) ++ conditionals

def printStage (stage : P4Stage) : StageDef where
  name := emitted.stageText stage.name
  parser := surroundings.headers stage.name
  matcher :=
    { ops := stage.operands
      switchEntries :=
        stage.switch.map fun entry => { entry with value := emitted.translateValue entry.value } }
  executor := stage.listed.flatMap fun table => table.nextTables.map (emitted.executorEntry table)

/-! ### The program -/

def printAction (action : P4Action) : ActionDef where
  name := emitted.actionText action.name action.id
  parameters := action.parameters.map fun parameter => (parameter.1, parameter.2.map Int.ofNat)
  expressions := action.expressions

/-- The first action with the id; without one the text is not a default action. -/
def printDefault (table : P4Table) : List TableStmt :=
  ((emitted.actions.find? fun action => action.id = table.defaultActionId).map fun action =>
    TableStmt.defaultAction (emitted.actionText action.name action.id)).toList

def parameterWidths (action : P4Action) : List Nat :=
  action.parameters.map fun parameter => parameter.2.getD 0

/-- Sixteen bits for the action id, and the parameters of the widest action. -/
def valueWidth (table : P4Table) : Nat :=
  16 + table.actionIds.foldl (fun widest actionId =>
    match emitted.actions.find? fun action => action.id = actionId with
    | some action => max widest (parameterWidths action).sum
    | none => widest) 0

def printTable (table : P4Table) : TableDef where
  name := emitted.tableText table.name
  keys := surroundings.keys table
  optionalStmts :=
    .size (surroundings.maxSize table) :: .valueWidth (surroundings.valueWidth table) ::
      emitted.printDefault table

def printStages (pipeline : P4Pipeline) : List StageDef :=
  (emitted.pipelineStages surroundings pipeline).map (emitted.printStage surroundings)

/-- A program has two pipelines. -/
def printAst : Option Ast :=
  match emitted.pipelines with
  | [ingress, egress] => some {
      actions := emitted.actions.map emitted.printAction
      tables := emitted.tables.map (emitted.printTable surroundings)
      ingress := emitted.printStages surroundings ingress
      egress := emitted.printStages surroundings egress }
  | _ => none

end P4Program

/-! ### Names of the program -/

theorem swapFirst_perm {α : Type} (name : α → String) (first : String) (items : List α) :
    (P4Program.swapFirst name first items).Perm items := by
  unfold P4Program.swapFirst
  split
  · exact List.Perm.refl items
  · exact List.swap_perm ..

/-- A pipeline prints a stage for each of its nodes that is one. -/
theorem pipelineStages_names (emitted : P4Program) (surroundings : P4Surroundings) (pipeline : P4Pipeline) :
    ((emitted.pipelineStages surroundings pipeline).map P4Stage.name).Perm
      (pipeline.conditionals.map P4Conditional.name ++
        (pipeline.tables.map P4Table.name).filter emitted.isStage) := by
  have conditionals : (pipeline.conditionals.map
    (emitted.conditionalStage surroundings pipeline)).map P4Stage.name =
      pipeline.conditionals.map P4Conditional.name := by
    rw [List.map_map]
    rfl
  have tables (tables : List P4Table) : ((tables.filter fun table => emitted.isStage table.name).map
      P4Program.tableStage).map P4Stage.name = (tables.map P4Table.name).filter emitted.isStage := by
    rw [List.map_map, List.filter_map]
    rfl
  unfold P4Program.pipelineStages
  dsimp only
  split
  · rw [List.map_append, tables]
    refine List.Perm.append_right _ ?_
    rw [← conditionals]
    exact (swapFirst_perm ..).map _
  · rw [List.map_append, tables, conditionals]
    refine List.perm_append_comm.trans (List.Perm.append_left _ ?_)
    exact ((swapFirst_perm ..).map _).filter _

theorem printAst_some {emitted : P4Program} {surroundings : P4Surroundings} {ast : Ast}
    (printed : emitted.printAst surroundings = some ast) :
    ast.actions = emitted.actions.map emitted.printAction ∧
      ast.tables = emitted.tables.map (emitted.printTable surroundings) ∧
      ast.ingress ++ ast.egress =
        (emitted.pipelines.flatMap (emitted.pipelineStages surroundings)).map
          (emitted.printStage surroundings) := by
  unfold P4Program.printAst at printed
  split at printed
  · next ingress egress pipelines =>
      cases printed
      refine ⟨rfl, rfl, ?_⟩
      simp [pipelines, P4Program.printStages]
  · cases printed

theorem printAst_stages {emitted : P4Program} {surroundings : P4Surroundings} {ast : Ast}
    (printed : emitted.printAst surroundings = some ast) :
    ((ast.ingress ++ ast.egress).map StageDef.name).Perm (emitted.stageNodes.map emitted.stageText) := by
  rw [(printAst_some printed).2.2, List.map_map, P4Program.stageNodes, List.map_flatMap, List.map_flatMap]
  induction emitted.pipelines with
  | nil => exact .nil
  | cons pipeline rest ih =>
      rw [List.flatMap_cons, List.flatMap_cons]
      refine List.Perm.append ?_ ih
      have names := (pipelineStages_names emitted surroundings pipeline).map emitted.stageText
      rwa [List.map_map] at names

/-- The names of the printed program are distinct if the emitted identifiers denote. -/
theorem NamesDenote.namesDistinct {emitted : P4Program} {hitMiss : List P4Action}
    {surroundings : P4Surroundings} {ast : Ast} (denote : NamesDenote emitted hitMiss)
    (printed : emitted.printAst surroundings = some ast) :
    NamesDistinct ast := by
  have texts {names : List (List Char)} (distinct : names.Nodup) : (names.map String.ofList).Nodup :=
    distinct.map fun _ _ same => String.ofList_injective same
  obtain ⟨actions, tables, _⟩ := printAst_some printed
  refine ⟨?_, ?_, ?_⟩
  · have names := texts denote.actions
    rw [List.map_map] at names
    rw [actions, List.map_map]
    exact names
  · have names := texts denote.tables
    rw [List.map_map] at names
    rw [tables, List.map_map]
    exact names
  · refine (printAst_stages printed).nodup_iff.mpr ?_
    have names := texts denote.stages
    rwa [List.map_map] at names

/-! ### Tables with their synthetic actions -/

/-- Only the default action of a table changes, and every successor of a hit or a miss has its action. -/
theorem tableHitMiss_spec (table : P4Table) (actionId : Int) :
    (∃ defaultActionId, (tableHitMiss table actionId).1 = { table with defaultActionId }) ∧
      ∀ next ∈ table.nextTables, isHitMiss next.1 = true →
        ∃ action ∈ (tableHitMiss table actionId).2.1, action.name = table.name ++ next.1 := by
  have run : (∃ defaultActionId, (tableHitMiss table actionId).1 = { table with defaultActionId }) ∧
      ∀ next ∈ table.nextTables.filter fun next => isHitMiss next.1,
        ∃ action ∈ (tableHitMiss table actionId).2.1, action.name = table.name ++ next.1 := by
    unfold tableHitMiss
    refine Lib.foldl_along (fun (front : List (String × String)) (state : P4Table × List P4Action × Int) =>
      (∃ defaultActionId, state.1 = { table with defaultActionId }) ∧
        ∀ next ∈ front, ∃ action ∈ state.2.1, action.name = table.name ++ next.1) ?_ ?_
    case refine_2 => exact ⟨⟨table.defaultActionId, rfl⟩, by simp⟩
    rintro front next ⟨_, created, actionId⟩ _ ⟨⟨defaultActionId, rfl⟩, named⟩
    refine ⟨⟨actionId, rfl⟩, ?_⟩
    intro other member
    rcases List.mem_append.mp member with earlier | here
    · obtain ⟨action, inside, isName⟩ := named other earlier
      exact ⟨action, List.mem_append_left _ inside, isName⟩
    · rw [List.mem_singleton.mp here]
      exact ⟨_, List.mem_append_right _ (List.mem_singleton_self _), rfl⟩
  exact ⟨run.1, fun next member keyed => run.2 next (List.mem_filter.mpr ⟨member, keyed⟩)⟩

/-- A table and what it is printed as. -/
def EmittedTable (hitMiss : List P4Action) (table printed : P4Table) : Prop :=
  ∃ actionId, printed = (tableHitMiss table actionId).1 ∧ (tableHitMiss table actionId).2.1 ⊆ hitMiss

theorem tablesHitMiss_emitted (tables : List P4Table) (actionId : Int) :
    List.Forall₂ (EmittedTable (tablesHitMiss tables actionId).2.1) tables
      (tablesHitMiss tables actionId).1 := by
  induction tables generalizing actionId with
  | nil => exact .nil
  | cons table rest ih =>
      refine .cons ⟨actionId, rfl, List.subset_append_left ..⟩ ((ih _).imp ?_)
      rintro other printed ⟨start, same, created⟩
      exact ⟨start, same, List.Subset.trans created (List.subset_append_right ..)⟩

/-- A pipeline and what it is printed as. -/
def EmittedPipeline (hitMiss : List P4Action) (pipeline printed : P4Pipeline) : Prop :=
  printed.initTable = pipeline.initTable ∧ printed.conditionals = pipeline.conditionals ∧
    List.Forall₂ (EmittedTable hitMiss) pipeline.tables printed.tables

theorem pipelinesHitMiss_emitted (pipelines : List P4Pipeline) (actionId : Int) :
    List.Forall₂ (EmittedPipeline (pipelinesHitMiss pipelines actionId).2.1) pipelines
      (pipelinesHitMiss pipelines actionId).1 := by
  induction pipelines generalizing actionId with
  | nil => exact .nil
  | cons pipeline rest ih =>
      refine .cons ⟨rfl, rfl, (tablesHitMiss_emitted pipeline.tables actionId).imp ?_⟩ ((ih _).imp ?_)
      · rintro table printed ⟨start, same, created⟩
        exact ⟨start, same, List.Subset.trans created (List.subset_append_left ..)⟩
      · rintro other printed ⟨first, conditionals, tables⟩
        refine ⟨first, conditionals, tables.imp ?_⟩
        rintro table printed ⟨start, same, created⟩
        exact ⟨start, same, List.Subset.trans created (List.subset_append_right ..)⟩

theorem createHitMissActions_emitted (program : P4Program) :
    List.Forall₂ (EmittedPipeline program.hitMissActions) program.pipelines
      program.createHitMissActions.pipelines :=
  pipelinesHitMiss_emitted program.pipelines 0xffffff

end Ipbm.Compiler.P4r
