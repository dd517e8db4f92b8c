import Ipbm.Compiler.Ast
import Ipbm.Compiler.P4Rename
import Ipbm.Lib.Traversal
import Mathlib.Data.List.Nodup

/-! Actions and pipelines of a P4 program, and the names they are given
(`p4r/p4_action.h`, `p4r/p4_pipeline.h`). -/

set_option autoImplicit false

namespace Ipbm.Compiler.P4r

/-- The parameters and the body are those that are printed. -/
structure P4Action where
  name : String
  id : Int
  parameters : List (String × Option Nat) := []
  expressions : List (LValue × Operation) := []
  deriving DecidableEq, Repr

/-- `next_tables` in the order of its keys; a missing successor is an empty text. -/
structure P4Table where
  name : String
  actionIds : List Int := []
  actions : List String := []
  nextTables : List (String × String) := []
  defaultActionId : Int
  deriving DecidableEq, Repr

structure P4Conditional where
  name : String
  trueNext : String
  falseNext : String
  deriving DecidableEq, Repr

structure P4Pipeline where
  initTable : String
  tables : List P4Table
  conditionals : List P4Conditional
  deriving DecidableEq, Repr

structure P4Program where
  actions : List P4Action
  pipelines : List P4Pipeline
  deriving DecidableEq, Repr

/-! ### Actions for hits and misses -/

def isHitMiss (key : String) : Bool := key = "__HIT__" || key = "__MISS__"

/-- The synthetic actions of one table. Each one becomes the table's default action. -/
def tableHitMiss (table : P4Table) (actionId : Int) : P4Table × List P4Action × Int :=
  (table.nextTables.filter fun next => isHitMiss next.1).foldl
    (fun (table, created, actionId) next =>
      ({ table with defaultActionId := actionId },
        created ++ [{ name := table.name ++ next.1, id := actionId }], actionId + 1))
    (table, [], actionId)

def tablesHitMiss : List P4Table → Int → List P4Table × List P4Action × Int
  | [], actionId => ([], [], actionId)
  | table :: rest, actionId =>
      let (table, created, actionId) := tableHitMiss table actionId
      let (rest, others, actionId) := tablesHitMiss rest actionId
      (table :: rest, created ++ others, actionId)

def pipelinesHitMiss : List P4Pipeline → Int → List P4Pipeline × List P4Action × Int
  | [], actionId => ([], [], actionId)
  | pipeline :: rest, actionId =>
      let (tables, created, actionId) := tablesHitMiss pipeline.tables actionId
      let (rest, others, actionId) := pipelinesHitMiss rest actionId
      ({ pipeline with tables } :: rest, created ++ others, actionId)

namespace P4Program

/-- The actions that `create_hit_miss_actions` adds. -/
def hitMissActions (program : P4Program) : List P4Action := (pipelinesHitMiss program.pipelines 0xffffff).2.1

def createHitMissActions (program : P4Program) : P4Program where
  actions := program.actions ++ program.hitMissActions
  pipelines := (pipelinesHitMiss program.pipelines 0xffffff).1

/-! ### Names -/

variable (program : P4Program)

def actionNames : List (String × Bool) := program.actions.map fun action => (action.name, false)

def translateActionName (name : String) (index : Int) : List Char :=
  (P4Rename.addNames [] program.actionNames).getName name index

def tables : List P4Table := program.pipelines.flatMap P4Pipeline.tables

def tableNames : List (String × Bool) := program.tables.map fun table => (table.name, false)

def translateTableName (name : String) : List Char :=
  (P4Rename.addNames [] program.tableNames).getName name 0

/-- A node that is not yet among the stages is a table of its own. -/
def addDirect (added : List (String × Bool)) (name : String) : List (String × Bool) :=
  if name ∈ added.map Prod.fst then added else added ++ [(name, true)]

/-- `initialize_stage_rename`. -/
def pipelineStageNames (added : List (String × Bool)) (pipeline : P4Pipeline) : List (String × Bool) :=
  let added := added ++ pipeline.conditionals.map fun conditional => (conditional.name, false)
  let added := addDirect added pipeline.initTable
  (pipeline.tables.flatMap fun table => table.nextTables.map Prod.snd).foldl addDirect added

def stageNames : List (String × Bool) := program.pipelines.foldl pipelineStageNames []

def isStage (name : String) : Bool := name ∈ program.stageNames.map Prod.fst

def translateStageName (name : String) : List Char :=
  (P4Rename.addNames [] program.stageNames).getName name 0

/-- The nodes that are printed as stages. -/
def stageNodes : List String :=
  program.pipelines.flatMap fun pipeline =>
    pipeline.conditionals.map P4Conditional.name ++ (pipeline.tables.map P4Table.name).filter program.isStage

end P4Program

/-! ### Objects and identifiers -/

/-- Different objects have different identifiers, and the hit and miss actions are found under the
identifiers that the stages use for them. -/
structure NamesDenote (emitted : P4Program) (hitMiss : List P4Action) : Prop where
  actions : (emitted.actions.map fun action => emitted.translateActionName action.name action.id).Nodup
  tables : (emitted.tables.map fun table => emitted.translateTableName table.name).Nodup
  stages : (emitted.stageNodes.map emitted.translateStageName).Nodup
  hitMiss : ∀ action ∈ hitMiss,
    (emitted.actions.find? fun other =>
      emitted.translateActionName other.name other.id =
        emitted.translateActionName action.name 0) = some action

/-- The objects of every kind are kept apart, and no other action is named like a hit or miss action. -/
structure NamesApart (emitted : P4Program) (hitMiss : List P4Action) : Prop where
  actions : emitted.actions.Pairwise fun left right =>
    KeptApart emitted.actionNames (left.name, left.id) (right.name, right.id)
  tables : emitted.tables.Pairwise fun left right =>
    KeptApart emitted.tableNames (left.name, 0) (right.name, 0)
  stages : emitted.stageNodes.Pairwise fun left right => KeptApart emitted.stageNames (left, 0) (right, 0)
  hitMiss : ∀ action ∈ hitMiss, (emitted.actions.map P4Action.name).count action.name = 1

theorem nodup_getName_iff {α : Type} {added : List (String × Bool)} {objects : List α}
    {object : α → String × Int} (listed : ∀ element ∈ objects, (object element).1 ∈ added.map Prod.fst) :
    (objects.map fun element => (P4Rename.addNames [] added).getName (object element).1
      (object element).2).Nodup ↔
      objects.Pairwise fun left right => KeptApart added (object left) (object right) := by
  rw [List.Nodup, List.pairwise_map]
  exact List.Pairwise.iff_of_mem fun left right => getName_ne_iff (listed _ left) (listed _ right)

/-- The actions that are created have consecutive ids. -/
def Consecutive (actionId : Int) (created : List P4Action) (next : Int) : Prop :=
  created.map P4Action.id = (List.range created.length).map (fun (index : Nat) => actionId + index) ∧
    next = actionId + created.length

theorem Consecutive.append {first middle last : Int} {created others : List P4Action}
    (front : Consecutive first created middle) (back : Consecutive middle others last) :
    Consecutive first (created ++ others) last := by
  obtain ⟨ids, rfl⟩ := front
  obtain ⟨others_ids, rfl⟩ := back
  refine ⟨?_, by rw [List.length_append]; push_cast; omega⟩
  rw [List.map_append, ids, others_ids, List.length_append, List.range_add, List.map_append, List.map_map]
  congr 1
  refine List.map_congr_left fun index _ => ?_
  simp only [Function.comp_apply]
  push_cast
  omega

theorem Consecutive.nodup {first next : Int} {created : List P4Action}
    (ids : Consecutive first created next) : (created.map P4Action.id).Nodup := by
  rw [ids.1]
  refine List.nodup_range.map fun left right same => ?_
  omega

theorem Consecutive.le {first next : Int} {created : List P4Action} (ids : Consecutive first created next)
    {action : P4Action} (member : action ∈ created) : first ≤ action.id := by
  have isId := List.mem_map_of_mem (f := P4Action.id) member
  rw [ids.1] at isId
  obtain ⟨index, _, same⟩ := List.mem_map.mp isId
  omega

theorem tableHitMiss_ids (table : P4Table) (actionId : Int) :
    Consecutive actionId (tableHitMiss table actionId).2.1 (tableHitMiss table actionId).2.2 := by
  unfold tableHitMiss
  induction (table.nextTables.filter fun next => isHitMiss next.1) using List.reverseRecOn with
  | nil => exact ⟨rfl, (Int.add_zero actionId).symm⟩
  | append_singleton front last ih =>
      rw [List.foldl_concat]
      exact ih.append ⟨by simp, rfl⟩

theorem tablesHitMiss_ids (tables : List P4Table) (actionId : Int) :
    Consecutive actionId (tablesHitMiss tables actionId).2.1 (tablesHitMiss tables actionId).2.2 := by
  induction tables generalizing actionId with
  | nil => exact ⟨rfl, (Int.add_zero actionId).symm⟩
  | cons table rest ih => exact (tableHitMiss_ids table actionId).append (ih _)

theorem pipelinesHitMiss_ids (pipelines : List P4Pipeline) (actionId : Int) :
    Consecutive actionId (pipelinesHitMiss pipelines actionId).2.1
      (pipelinesHitMiss pipelines actionId).2.2 := by
  induction pipelines generalizing actionId with
  | nil => exact ⟨rfl, (Int.add_zero actionId).symm⟩
  | cons pipeline rest ih => exact (tablesHitMiss_ids pipeline.tables actionId).append (ih _)

/-- The actions for hits and misses have ids from 0xffffff on. -/
theorem hitMissActions_ids (program : P4Program) :
    Consecutive 0xffffff program.hitMissActions (pipelinesHitMiss program.pipelines 0xffffff).2.2 :=
  pipelinesHitMiss_ids program.pipelines 0xffffff

/-- An action is found under the identifier with index zero exactly if no other one has its name. -/
theorem find_reference_iff {emitted : P4Program} {action : P4Action} (member : action ∈ emitted.actions)
    (nonzero : action.id ≠ 0)
    (distinct : (emitted.actions.map fun action => emitted.translateActionName action.name action.id).Nodup) :
    (emitted.actions.find? fun other =>
        emitted.translateActionName other.name other.id =
          emitted.translateActionName action.name 0) = some action ↔
      (emitted.actions.map P4Action.name).count action.name = 1 := by
  have names : emitted.actionNames.map Prod.fst = emitted.actions.map P4Action.name := by
    simp [P4Program.actionNames, Function.comp_def]
  have listed : action.name ∈ emitted.actionNames.map Prod.fst := names ▸ List.mem_map_of_mem member
  have positive := List.count_pos_iff.mpr listed
  have same : emitted.translateActionName action.name action.id = emitted.translateActionName action.name 0 ↔
      (emitted.actions.map P4Action.name).count action.name = 1 := by
    have apart : emitted.translateActionName action.name action.id ≠
      emitted.translateActionName action.name 0 ↔
        2 ≤ (emitted.actions.map P4Action.name).count action.name ∧ action.id ≠ 0 := by
      have iff := @getName_ne_iff emitted.actionNames (action.name, action.id) (action.name, 0) listed listed
      rwa [KeptApart, if_pos rfl, names] at iff
    rw [names] at positive
    constructor
    · intro equal
      by_contra other
      exact apart.mpr ⟨by omega, nonzero⟩ equal
    · intro one
      by_contra different
      have twice := (apart.mp different).1
      omega
  rw [← same]
  constructor
  · intro found
    simpa using List.find?_some found
  · intro equal
    rw [← equal]
    exact Lib.find?_of_key distinct member

theorem prefix_addDirect (added : List (String × Bool)) (name : String) :
    added <+: P4Program.addDirect added name := by
  unfold P4Program.addDirect
  split
  · exact List.prefix_refl added
  · exact List.prefix_append ..

theorem prefix_pipelineStageNames (added : List (String × Bool)) (pipeline : P4Pipeline) :
    added ++ pipeline.conditionals.map (fun conditional => (conditional.name, false)) <+:
      P4Program.pipelineStageNames added pipeline := by
  have directs (names : List String) (start : List (String × Bool)) :
      start <+: names.foldl P4Program.addDirect start := by
    induction names generalizing start with
    | nil => exact List.prefix_refl start
    | cons name rest ih => exact (prefix_addDirect start name).trans (ih _)
  exact (prefix_addDirect _ _).trans (directs _ _)

/-- The stages of every pipeline are among the stages. -/
theorem pipelineStageNames_listed {emitted : P4Program} {pipeline : P4Pipeline}
    (inside : pipeline ∈ emitted.pipelines) :
    ∃ added, P4Program.pipelineStageNames added pipeline <+: emitted.stageNames := by
  have later (pipelines : List P4Pipeline) (start : List (String × Bool)) :
      start <+: pipelines.foldl P4Program.pipelineStageNames start := by
    induction pipelines generalizing start with
    | nil => exact List.prefix_refl start
    | cons first rest ih =>
        exact ((List.prefix_append ..).trans (prefix_pipelineStageNames start first)).trans (ih _)
  obtain ⟨before, behind, split⟩ := List.append_of_mem inside
  refine ⟨before.foldl P4Program.pipelineStageNames [], ?_⟩
  rw [P4Program.stageNames, split, List.foldl_append, List.foldl_cons]
  exact later behind _

/-- Every conditional is among the stages. -/
theorem conditional_listed {emitted : P4Program} {pipeline : P4Pipeline}
    (inside : pipeline ∈ emitted.pipelines) {conditional : P4Conditional}
    (member : conditional ∈ pipeline.conditionals) :
    conditional.name ∈ emitted.stageNames.map Prod.fst := by
  obtain ⟨added, listed⟩ := pipelineStageNames_listed inside
  have here : (conditional.name, false) ∈ added ++ pipeline.conditionals.map fun conditional =>
      (conditional.name, false) :=
    List.mem_append_right _ (List.mem_map_of_mem member)
  exact List.mem_map_of_mem (f := Prod.fst)
    (listed.subset ((prefix_pipelineStageNames added pipeline).subset here))

/-- Every successor of a table is among the stages. -/
theorem successor_listed {emitted : P4Program} {pipeline : P4Pipeline} (inside : pipeline ∈ emitted.pipelines)
    {table : P4Table} (member : table ∈ pipeline.tables) {next : String × String}
    (leads : next ∈ table.nextTables) :
    next.2 ∈ emitted.stageNames.map Prod.fst := by
  obtain ⟨added, listed⟩ := pipelineStageNames_listed inside
  have all (names : List String) (start : List (String × Bool)) :
      ∀ name ∈ names, name ∈ (names.foldl P4Program.addDirect start).map Prod.fst := by
    induction names using List.reverseRecOn with
    | nil => simp
    | append_singleton front last ih =>
        intro name isName
        rw [List.foldl_concat, P4Program.addDirect]
        rcases List.mem_append.mp isName with earlier | here
        · have before := ih name earlier
          split
          · exact before
          · rw [List.map_append]
            exact List.mem_append_left _ before
        · rw [List.mem_singleton.mp here]
          split
          · assumption
          · simp
  have here := all (pipeline.tables.flatMap fun table => table.nextTables.map Prod.snd)
    (P4Program.addDirect (added ++ pipeline.conditionals.map fun conditional => (conditional.name, false))
      pipeline.initTable) next.2 (List.mem_flatMap.mpr ⟨table, member, List.mem_map_of_mem leads⟩)
  exact (listed.map Prod.fst).subset here

theorem stageNode_listed {emitted : P4Program} {name : String} (member : name ∈ emitted.stageNodes) :
    name ∈ emitted.stageNames.map Prod.fst := by
  obtain ⟨pipeline, inside, member⟩ := List.mem_flatMap.mp member
  rcases List.mem_append.mp member with isConditional | isTable
  · obtain ⟨conditional, listed, rfl⟩ := List.mem_map.mp isConditional
    exact conditional_listed inside listed
  · exact of_decide_eq_true (List.mem_filter.mp isTable).2

/-- The emitted identifiers denote their objects exactly if no two names have endings of their own
that read alike, with an appended suffix or index or with one that is part of a name, and no action
is named like a hit or miss action of a table. -/
theorem namesDenote_iff (program : P4Program) :
    NamesDenote program.createHitMissActions program.hitMissActions ↔
      NamesApart program.createHitMissActions program.hitMissActions := by
  generalize emission : program.createHitMissActions = emitted
  have hitMissListed : ∀ action ∈ program.hitMissActions, action ∈ emitted.actions := by
    intro action member
    rw [← emission]
    exact List.mem_append_right _ member
  have nonzero : ∀ action ∈ program.hitMissActions, action.id ≠ 0 := by
    intro action member zero
    have bound := (hitMissActions_ids program).le member
    omega
  have actions := @nodup_getName_iff _ emitted.actionNames emitted.actions
    (fun action => (action.name, action.id)) fun action member => by
      simpa [P4Program.actionNames] using ⟨action, member, rfl⟩
  have tables := @nodup_getName_iff _ emitted.tableNames emitted.tables (fun table => (table.name, 0))
    fun table member => by simpa [P4Program.tableNames] using ⟨table, member, rfl⟩
  have stages := @nodup_getName_iff _ emitted.stageNames emitted.stageNodes (fun name => (name, 0))
    fun _ => stageNode_listed
  constructor
  · intro denote
    refine ⟨actions.mp denote.actions, tables.mp denote.tables, stages.mp denote.stages, ?_⟩
    intro action member
    exact (find_reference_iff (hitMissListed action member) (nonzero action member) denote.actions).mp
      (denote.hitMiss action member)
  · intro apart
    have distinct := actions.mpr apart.actions
    refine ⟨distinct, tables.mpr apart.tables, stages.mpr apart.stages, ?_⟩
    intro action member
    exact (find_reference_iff (hitMissListed action member) (nonzero action member) distinct).mpr
      (apart.hitMiss action member)

/-- The tables `acl.in` and `acl_in`. -/
def twoTables : P4Program where
  actions := []
  pipelines := [{
    initTable := "acl.in"
    tables := [{ name := "acl.in", defaultActionId := 0 }, { name := "acl_in", defaultActionId := 0 }]
    conditionals := [] }]

/-- Both tables are named `acl_in`, since the second name ends like the first behind its dot. -/
theorem two_tables_merge :
    (twoTables.createHitMissActions.tables.map fun table =>
      String.ofList (twoTables.createHitMissActions.translateTableName table.name)) = ["acl_in", "acl_in"] ∧
      ¬ NamesDenote twoTables.createHitMissActions twoTables.hitMissActions := by
  have merged : (twoTables.createHitMissActions.tables.map fun table =>
      String.ofList (twoTables.createHitMissActions.translateTableName table.name)) = ["acl_in",
      "acl_in"] := by
    decide
  refine ⟨merged, fun denote => ?_⟩
  have distinct := denote.tables.map fun _ _ same => String.ofList_injective same
  rw [List.map_map] at distinct
  change (twoTables.createHitMissActions.tables.map fun table =>
    String.ofList (twoTables.createHitMissActions.translateTableName table.name)).Nodup at distinct
  rw [merged] at distinct
  exact absurd distinct (by decide)

end Ipbm.Compiler.P4r
