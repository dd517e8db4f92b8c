import Ipbm.Compiler.BuilderProperties
import Ipbm.Compiler.Elimination
import Ipbm.Compiler.Numbering

/-! A program by its declarations. If no two actions, tables or stages have one name,
each declaration is found under its name, and a table leads on as the stages that run
it list. -/

set_option autoImplicit false

namespace Ipbm.Compiler
open Lib ProcessorManager

/-! ### Names -/

/-- A name that is added last is not there before. -/
theorem fresh_of_front {β : Type} {name : β → String} {items front : List β} {last : β}
    (unique : (items.map name).Nodup) (begins : front ++ [last] <+: items) : name last ∉ front.map name := by
  have nodup := unique.sublist (begins.map name).sublist
  rw [List.map_append, List.nodup_append] at nodup
  exact fun member => nodup.2.2 _ member _ (List.mem_singleton_self _) rfl

/-! ### Actions -/

namespace ActionManager

/-- The actions that are made of some definitions, in their order. -/
def MadeOf (headers : HeaderLookup) (defs : List ActionDef) (actions : ActionManager) : Prop :=
  List.Forall₂ (fun item entry => entry.1 = item.1.name ∧ entry.2.id = ((item.2 : Nat) : Int) ∧
    item.1.expressions.mapM (ActionManager.assign headers item.1) =
      some entry.2.primitives) defs.zipIdx actions

variable {headers : HeaderLookup} {defs : List ActionDef} {actions : ActionManager}

theorem MadeOf.names (made : MadeOf headers defs actions) :
    actions.map Prod.fst = defs.map ActionDef.name := by
  have names := map_eq_map_of_forall₂ (fun item => item.1.name) Prod.fst
    (fun _ _ entry => entry.1.symm) made
  rw [← names, ← List.zipIdx_map_fst 0 defs, List.map_map, List.zipIdx_map_fst]
  rfl

theorem load_madeOf {ast : Ast} (unique : (ast.actions.map ActionDef.name).Nodup)
    (done : ActionManager.load headers ast = some actions) : MadeOf headers ast.actions actions := by
  refine foldlM_some (fun front actions => MadeOf headers front actions) ?_ done .nil
  intro front actionDef before after begins made step
  have missing : ActionManager.lookupName before actionDef.name = none := by
    rw [ActionManager.lookupName, Option.map_eq_none_iff, List.find?_eq_none]
    intro entry member same
    have fresh := fresh_of_front unique begins
    rw [← made.names] at fresh
    exact fresh (of_decide_eq_true same ▸ List.mem_map_of_mem member)
  rw [ActionManager.addAction, missing] at step
  obtain ⟨primitives, assigned, step⟩ := Option.bind_eq_some_iff.mp step
  cases step
  have length : before.length = front.length := by
    have lengths := made.length_eq
    rwa [List.length_zipIdx, eq_comm] at lengths
  rw [MadeOf, List.zipIdx_append]
  exact List.rel_append made (.cons ⟨rfl, by simp [length], assigned⟩ .nil)

/-- A definition is found under its name, by the number of its place. -/
theorem MadeOf.lookup (made : MadeOf headers defs actions)
    (unique : (defs.map ActionDef.name).Nodup) {index : Nat}
    {actionDef : ActionDef} (here : defs[index]? = some actionDef) :
    ∃ action, actions.lookupName actionDef.name = some action ∧ action.id = index ∧
      actionDef.expressions.mapM (ActionManager.assign headers actionDef) = some action.primitives := by
  have item : defs.zipIdx[index]? = some (actionDef, index) := by simp [here]
  obtain ⟨⟨name, action⟩, there, rfl, id, assigned⟩ := forall₂_right made item
  have found := find?_of_key (made.names ▸ unique) (List.mem_of_getElem? there)
  exact ⟨action, by rw [lookupName, found]; rfl, id, assigned⟩

theorem MadeOf.unique (made : MadeOf headers defs actions) : (actions.map fun entry => entry.2.id).Nodup := by
  have ids := map_eq_map_of_forall₂ (fun item => ((item.2 : Nat) : Int)) (fun entry => entry.2.id)
    (fun _ _ entry => entry.2.1.symm) made
  rw [← ids]
  have numbers : (defs.zipIdx.map fun item => ((item.2 : Nat) : Int)) = (List.range defs.length).map
      fun (index : Nat) => (index : Int) := by
    rw [List.range_eq_range', ← List.zipIdx_map_snd 0 defs, List.map_map]
    rfl
  rw [numbers]
  exact List.nodup_range.map fun _ _ equal => Int.ofNat.inj equal

end ActionManager

/-! ### Stages -/

theorem StageManager.load_declared {ast : Ast}
    (unique : ((ast.ingress ++ ast.egress).map StageDef.name).Nodup) :
    StageManager.load ast =
      { logicalStages := (ast.ingress ++ ast.egress).mapIdx fun index definition => { stageId := index,
                                                                                      definition }
        names := (ast.ingress ++ ast.egress).map StageDef.name } := by
  refine foldl_along (fun front (stages : StageManager) => stages = ⟨front.mapIdx fun index definition =>
    { stageId := (index : Int), definition }, front.map StageDef.name⟩) ?_ rfl
  rintro front stageDef _ begins rfl
  have fresh : stageDef.name ∉ front.map StageDef.name := fresh_of_front unique begins
  simp [StageManager.addStage, fresh, List.mapIdx_concat]

/-- The number of a stage is its place. -/
theorem stageIdOf_declared {ast : Ast}
    (unique : ((ast.ingress ++ ast.egress).map StageDef.name).Nodup) (name : String) :
    stageIdOf (StageManager.load ast) name =
      ((((ast.ingress ++ ast.egress).map StageDef.name).idxOf? name).map fun (index : Nat) =>
        (index : Int)).getD (-1) := by
  rw [StageManager.load_declared unique, stageIdOf, StageManager.lookupName]
  cases index : ((ast.ingress ++ ast.egress).map StageDef.name).idxOf? name with
  | none => rfl
  | some index =>
      obtain ⟨inside, _⟩ := List.idxOf?_eq_some_iff.mp index
      simp only [List.length_map] at inside
      simp [List.getElem?_eq_getElem inside]

/-! ### Tables -/

namespace TableManager

/-- The tables that are made of some definitions, in their order. -/
def MadeOf (headers : HeaderLookup) (actions : ActionManager) (defs : List TableDef)
    (tables : TableManager) : Prop :=
  List.Forall₂ (fun item entry => entry.1 = item.1.name ∧
    TableManager.makeTable headers actions item.2 item.1 = some entry.2) defs.zipIdx tables

variable {headers : HeaderLookup} {actions : ActionManager} {defs : List TableDef} {tables : TableManager}

theorem MadeOf.names (made : MadeOf headers actions defs tables) :
    tables.map Prod.fst = defs.map TableDef.name := by
  have names := map_eq_map_of_forall₂ (fun item => item.1.name) Prod.fst
    (fun _ _ entry => entry.1.symm) made
  rw [← names, ← List.zipIdx_map_fst 0 defs, List.map_map, List.zipIdx_map_fst]
  rfl

theorem load_madeOf {ast : Ast} (unique : (ast.tables.map TableDef.name).Nodup)
    (done : TableManager.load headers actions ast = some tables) :
    MadeOf headers actions ast.tables tables := by
  have made := foldlM_some (fun front tables => List.Forall₂ (fun item entry => entry.1 = item.1.name ∧
    TableManager.makeTable headers actions ((item.2 : Nat) : Int) item.1 =
      some entry.2) front tables) ?_ done .nil
  · exact made
  rintro front ⟨tableDef, position⟩ before after begins made step
  have names := map_eq_map_of_forall₂ (fun item => item.1.name) Prod.fst
    (fun _ _ entry => entry.1.symm) made
  have missing : TableManager.lookupName before tableDef.name = none := by
    rw [lookupName, Option.map_eq_none_iff, List.find?_eq_none]
    intro entry member same
    have unique' : (ast.tables.zipIdx.map fun item => item.1.name).Nodup := by
      rwa [← List.zipIdx_map_fst 0 ast.tables, List.map_map] at unique
    have fresh := fresh_of_front unique' begins
    rw [names] at fresh
    exact fresh (of_decide_eq_true same ▸ List.mem_map_of_mem member)
  obtain ⟨table, isTable, step⟩ := Option.bind_eq_some_iff.mp step
  rw [missing] at step
  cases step
  exact List.rel_append made (.cons ⟨rfl, isTable⟩ .nil)

/-- A definition is found under its name, by the number of its place. -/
theorem MadeOf.lookup (made : MadeOf headers actions defs tables)
    (unique : (defs.map TableDef.name).Nodup) {index : Nat}
    {tableDef : TableDef} (here : defs[index]? = some tableDef) :
    ∃ table, (tableDef.name, table) ∈ tables ∧ tables.lookupName tableDef.name = some table ∧
      TableManager.makeTable headers actions index tableDef = some table := by
  have item : defs.zipIdx[index]? = some (tableDef, index) := by simp [here]
  obtain ⟨⟨name, table⟩, there, rfl, isTable⟩ := forall₂_right made item
  have found := find?_of_key (made.names ▸ unique) (List.mem_of_getElem? there)
  exact ⟨table, List.mem_of_getElem? there, by rw [lookupName, found]; rfl, isTable⟩

theorem makeTable_declares {tableId : Int} {tableDef : TableDef} {table : Table}
    (made : makeTable headers actions tableId tableDef = some table) :
    table.tableId = tableId ∧ table.missActionId = defaultActionId actions tableDef.optionalStmts ∧
      table.actionToProc = [] := by
  unfold makeTable at made
  split at made
  · cases made
    exact ⟨rfl, rfl, rfl⟩
  · obtain ⟨fields, _, made⟩ := Option.bind_eq_some_iff.mp made
    cases made
    exact ⟨rfl, rfl, rfl⟩

end TableManager

/-- What the stages that run a table append to its targets. -/
def targets (stages : List Stage) (tableId : Int) : List (Int × Int) :=
  stages.flatMap fun stage => (stage.tableId.filter (· = tableId)).flatMap fun _ => stage.actionProc

/-- Setting up the stages gives every table their targets, in the order of the stages. -/
theorem setupStages_targets (stages : List Stage) (tables : TableManager) (gateways : List Gateway) :
    (setupStages stages (tables, gateways)).1.map
        (fun entry => (entry.1, entry.2.tableId, entry.2.missActionId, entry.2.actionToProc)) =
      tables.map fun entry => (entry.1, entry.2.tableId, entry.2.missActionId,
        entry.2.actionToProc ++ targets stages entry.2.tableId) := by
  have refs : ∀ (refs : List (Stage × Int × Nat)),
      (refs.foldl (fun state (ref : Stage × Int × Nat) => setupTable ref.1 state ref.2.1 ref.2.2)
        (tables, gateways)).1.map
        (fun entry => (entry.1, entry.2.tableId, entry.2.missActionId, entry.2.actionToProc)) =
      tables.map fun entry => (entry.1, entry.2.tableId, entry.2.missActionId, entry.2.actionToProc ++
        (refs.filter fun ref => ref.2.1 = entry.2.tableId).flatMap fun ref => ref.1.actionProc) := by
    intro refs
    induction refs using List.reverseRecOn with
    | nil => simp
    | append_singleton refs ref ih =>
        rw [List.foldl_append, List.foldl_cons, List.foldl_nil]
        have step : ∀ state : TableManager × List Gateway,
            (setupTable ref.1 state ref.2.1 ref.2.2).1.map
              (fun entry => (entry.1, entry.2.tableId, entry.2.missActionId, entry.2.actionToProc)) =
            (state.1.map fun entry =>
              (entry.1, entry.2.tableId, entry.2.missActionId, entry.2.actionToProc)).map
              fun entry => (entry.1, entry.2.1, entry.2.2.1,
                entry.2.2.2 ++ if entry.2.1 = ref.2.1 then ref.1.actionProc else []) := by
          intro state
          simp only [setupTable, TableManager.setMatcherId, TableManager.update, List.map_map]
          refine List.map_congr_left fun entry _ => ?_
          by_cases here : entry.2.tableId = ref.2.1
          · simp [here]
          · simp [here]
        rw [step, ih, List.map_map]
        refine List.map_congr_left fun entry _ => ?_
        by_cases here : entry.2.tableId = ref.2.1
        · simp [here]
        · simp [here, Ne.symm here]
  rw [setupStages_eq, refs]
  refine List.map_congr_left fun entry _ => ?_
  have same : ((stages.flatMap fun stage => stage.tableId.zipIdx.map fun ref => (stage, ref)).filter
      fun ref => ref.2.1 = entry.2.tableId).flatMap (fun ref =>
        ref.1.actionProc) = targets stages entry.2.tableId := by
    rw [targets, List.filter_flatMap, List.flatMap_assoc]
    congr 1
    funext stage
    rw [List.filter_map, List.flatMap_map, ← List.zipIdx_map_fst 0 stage.tableId]
    rw [List.filter_map, List.flatMap_map, List.zipIdx_map_fst]
    rfl
  rw [same]

/-! ### The program -/

/-- No two actions, tables or stages of a program have one name. -/
structure NamesDistinct (ast : Ast) : Prop where
  actions : (ast.actions.map ActionDef.name).Nodup
  tables : (ast.tables.map TableDef.name).Nodup
  stages : ((ast.ingress ++ ast.egress).map StageDef.name).Nodup

theorem switchTables_mem {headers : HeaderLookup} {actions : ActionManager} {defs : List TableDef}
    {tables : TableManager} (made : TableManager.MadeOf headers actions defs tables)
    (unique : (defs.map TableDef.name).Nodup) {stage : Stage} {ids : List Int}
    (done : switchTables tables stage = some ids) {index : Nat} {tableDef : TableDef}
    (here : defs[index]? = some tableDef) :
    (index : Int) ∈ ids ↔ .table tableDef.name ∈
      stage.definition.matcher.switchEntries.map SwitchEntry.value := by
  obtain ⟨table, _, found, isTable⟩ := made.lookup unique here
  have number := (TableManager.makeTable_declares isTable).1
  constructor
  · intro member
    obtain ⟨name, listed, isId⟩ := mem_of_mapM_some done member
    obtain ⟨other, isOther, sameId⟩ := Option.map_eq_some_iff.mp isId
    obtain ⟨position, at_⟩ := List.mem_iff_getElem?.mp (lookupName_mem isOther)
    obtain ⟨⟨otherDef, otherIndex⟩, there, rfl, otherMade⟩ := forall₂_left made at_
    obtain ⟨isDef, rfl⟩ : defs[position]? = some otherDef ∧ position = otherIndex := by
      simpa [List.getElem?_zipIdx] using there
    have otherNumber : other.tableId = position := (TableManager.makeTable_declares otherMade).1
    obtain rfl : position = index := by omega
    cases isDef.symm.trans here
    obtain ⟨entry, inside, isName⟩ := List.mem_filterMap.mp listed
    refine List.mem_map.mpr ⟨entry, inside, ?_⟩
    cases value : entry.value with
    | table name =>
        rw [value] at isName
        rw [Option.some.inj isName]
    | stage name =>
        rw [value] at isName
        cases isName
    | none =>
        rw [value] at isName
        cases isName
  · intro member
    obtain ⟨entry, inside, value⟩ := List.mem_map.mp member
    obtain ⟨id, isIn, isId⟩ := mem_mapM_some done (List.mem_filterMap.mpr ⟨entry, inside, by rw [value]⟩)
    rw [found, Option.map_some, number] at isId
    exact Option.some.inj isId ▸ isIn

/-- The table that a loaded program has for a declared one. -/
structure DeclaredTable (actions : ActionManager) (program : Program) (index : Nat)
    (tableDef : TableDef) (table : Table) :
    Prop where
  found : program.tables.lookupName tableDef.name = some table
  number : table.tableId = index
  miss : table.missActionId = TableManager.defaultActionId actions tableDef.optionalStmts
  leads : table.actionToProc = targets program.stages.logicalStages index
  runs : ∀ stage ∈ program.stages.logicalStages, (index : Int) ∈ stage.tableId ↔
    .table tableDef.name ∈ stage.definition.matcher.switchEntries.map SwitchEntry.value

theorem load_table {headers : HeaderLookup} {levels : List Level} {ast : Ast} {program : Program}
    {actions : ActionManager} (names : NamesDistinct ast)
    (declared : ActionManager.load headers ast = some actions)
    (done : load headers levels ast = some program) {index : Nat} {tableDef : TableDef}
    (here : ast.tables[index]? = some tableDef) :
    ∃ table, DeclaredTable actions program index tableDef table := by
  obtain ⟨tables, gateways, isTables, same, listed⟩ := load_parts declared done
  have made := TableManager.load_madeOf names.tables isTables
  obtain ⟨table, member, _, isTable⟩ := made.lookup names.tables here
  obtain ⟨number, miss, empty⟩ := TableManager.makeTable_declares isTable
  have setUp := setupStages_targets program.stages.logicalStages tables gateways
  rw [← same] at setUp
  have entry := List.mem_map_of_mem (f := fun entry : String × Table => (entry.1, entry.2.tableId,
    entry.2.missActionId, entry.2.actionToProc ++
      targets program.stages.logicalStages entry.2.tableId)) member
  rw [← setUp] at entry
  obtain ⟨⟨name, final⟩, inside, equal⟩ := List.mem_map.mp entry
  simp only [Prod.mk.injEq] at equal
  obtain ⟨rfl, sameNumber, sameMiss, sameTargets⟩ := equal
  have unique : (program.tables.map Prod.fst).Nodup := by
    have firsts := congrArg (List.map Prod.fst) setUp
    simp only [List.map_map, Function.comp_def] at firsts
    change List.map Prod.fst program.tables = List.map Prod.fst tables at firsts
    rw [firsts, made.names]
    exact names.tables
  refine ⟨final, ?_, sameNumber.trans number, sameMiss.trans miss, ?_, ?_⟩
  · rw [TableManager.lookupName, find?_of_key unique inside, Option.map_some]
  · rw [sameTargets, empty, List.nil_append, number]
  · exact fun stage member => switchTables_mem made names.tables (listed stage member) here

end Ipbm.Compiler
