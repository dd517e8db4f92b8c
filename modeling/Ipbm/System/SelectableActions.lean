import Ipbm.Compiler.Numbering
import Ipbm.Compiler.Runtime

/-! Actions a matcher can select, and the actions its processor has. A table
names its default action, a stage lists its actions and a command names the
action of an entry, and nothing compares them. -/

set_option autoImplicit false

namespace Ipbm.System
open Lib Dataplane Compiler Compiler.Memory
open Compiler.Distribution (liveStages)
open Compiler.Rp4Runtime (emitUpdate)

/-- One of the commands writes an entry with the action to the table. The controller inserts an
entry for every type of command. -/
def Added (ipsa : Ipsa) (commands : List (List String)) (tableId actionId : Int) : Prop :=
  ∃ params ∈ commands, ∃ update, emitUpdate ipsa params = some update ∧ update.actionId = actionId ∧
    ∃ name table, params[1]? = some name ∧ ipsa.tables.lookupName name = some table ∧ table.tableId = tableId

/-- The miss action of a table and the actions of its entries are actions of its processor, and
lead on from the table. -/
def SelectableInstalled (ipsa : Ipsa) (docs : List (Option ProcessorDoc))
    (commands : List (List String)) : Prop :=
  ∀ (index : Nat) doc, docs[index]? = some (some doc) → ∀ table ∈ doc.matcher, ∀ actionId,
    actionId = table.missActionId ∨ Added ipsa commands table.tableId actionId →
    actionId ∈ doc.executor.map Compiler.Action.id ∧ actionId ∈ table.actionToProc.map Prod.fst

/-- What a command names, by number. -/
def commandNames (program : Program) : List String → Option (Int × Int)
  | _ :: tableName :: actionName :: _ => do
      let table ← program.tables.lookupName tableName
      let action ← program.actions.lookupName actionName
      return (table.tableId, action.id)
  | _ => none

/-- In every stage the default actions of its tables, and the actions the commands name for them,
are among the actions of the stage. -/
def SelectedInStage (program : Program) (commands : List (List String)) : Prop :=
  ∀ stage ∈ liveStages program.stages.logicalStages, ∀ tableId ∈ stage.tableId,
    (∀ table ∈ program.tables.lookupId tableId, table.missActionId ∈ stage.actionProc.map Prod.fst) ∧
      ∀ params ∈ commands, ∀ names ∈ commandNames program params, names.1 = tableId →
        names.2 ∈ stage.actionProc.map Prod.fst

instance (program : Program) (commands : List (List String)) : Decidable (SelectedInStage program commands) :=
  inferInstanceAs (Decidable (∀ stage ∈ liveStages program.stages.logicalStages, _))

private theorem actionToProc_setupStages (stages : List Stage) (state : TableManager × List Compiler.Gateway)
    {entry : String × Table} (member : entry ∈ (setupStages stages state).1) {stage : Stage}
    (inside : stage ∈ stages) (listed : entry.2.tableId ∈ stage.tableId) :
    ∀ pair ∈ stage.actionProc, pair ∈ entry.2.actionToProc := by
  have refs : ∀ (refs : List (Stage × Int × Nat)), ∀ ref ∈ refs, ∀ entry ∈ (refs.foldl
      (fun state (ref : Stage × Int × Nat) => setupTable ref.1 state ref.2.1 ref.2.2) state).1,
        entry.2.tableId = ref.2.1 → ∀ pair ∈ ref.1.actionProc, pair ∈ entry.2.actionToProc := by
    intro refs
    induction refs using List.reverseRecOn with
    | nil => exact fun ref none => by cases none
    | append_singleton refs last ih =>
        intro ref isRef entry member number pair isPair
        rw [List.foldl_append, List.foldl_cons, List.foldl_nil] at member
        obtain ⟨old, before, rfl⟩ := List.mem_map.mp member
        by_cases here : old.2.tableId = last.2.1
        · rw [if_pos here] at number ⊢
          rcases List.mem_append.mp isRef with earlier | isLast
          · exact List.mem_append_left _ (ih ref earlier old before number pair isPair)
          · cases List.mem_singleton.mp isLast
            exact List.mem_append_right _ isPair
        · rw [if_neg here] at number ⊢
          rcases List.mem_append.mp isRef with earlier | isLast
          · exact ih ref earlier old before number pair isPair
          · cases List.mem_singleton.mp isLast
            exact absurd number here
  rw [setupStages_eq] at member
  obtain ⟨position, at_⟩ := List.mem_iff_getElem?.mp listed
  refine refs _ (stage, entry.2.tableId, position) ?_ entry member rfl
  exact List.mem_flatMap.mpr ⟨stage, inside, List.mem_map_of_mem (List.mem_zipIdx_iff_getElem?.mpr at_)⟩

section

variable {headers : HeaderLookup} {getHeader : String → Option Int}
  {sort : (Int → Int → Bool) → List Int → List Int} {levels : List Level} {ast : Ast} {program : Program}
  {distribution : DistributionResult} {memory : MemoryResult} {docs :
    List (Option ProcessorDoc)} {ipsa : Ipsa}

private theorem actionToProc_load (done : load headers levels ast = some program) {entry : String × Table}
    (member : entry ∈ program.tables) {stage : Stage} (inside : stage ∈ program.stages.logicalStages)
    (listed : entry.2.tableId ∈ stage.tableId) : ∀ pair ∈ stage.actionProc, pair ∈ entry.2.actionToProc := by
  obtain ⟨_, _, done⟩ := Option.bind_eq_some_iff.mp done
  obtain ⟨_, _, done⟩ := Option.bind_eq_some_iff.mp done
  obtain ⟨_, _, done⟩ := Option.bind_eq_some_iff.mp done
  obtain ⟨⟨stages, gateways⟩, _, done⟩ := Option.bind_eq_some_iff.mp done
  cases done
  exact actionToProc_setupStages _ _ member inside listed

/-- The builder that the runtime keeps has the actions of the program, and its tables under their
names. -/
private theorem lookupName_ipsa
    (compiled : Compiled headers getHeader sort levels ast program distribution memory docs)
    (allocated : allocateProcessors program distribution memory = some ipsa) :
    ipsa.actions = program.actions ∧ ∀ name,
      (ipsa.tables.lookupName name).map Table.declared =
        (program.tables.lookupName name).map Table.declared := by
  obtain ⟨processors, _, allocated⟩ := Option.bind_eq_some_iff.mp allocated
  cases allocated
  refine ⟨rfl, fun name => ?_⟩
  have entries := (TableManager.declared_reorderStages memory.tables (Builder.procProc processors)).trans
    (declared_allocateMemory (load_loaded compiled.done).tableIds compiled.allocation)
  have lookup : ∀ tables : TableManager, (tables.lookupName name).map Table.declared =
      TableManager.lookupName (tables.map declaredEntry) name := by
    intro tables
    unfold TableManager.lookupName
    rw [List.find?_map, Option.map_map, Option.map_map]
    rfl
  rw [lookup, lookup, entries]

private theorem added_iff
    (compiled : Compiled headers getHeader sort levels ast program distribution memory docs)
    (allocated : allocateProcessors program distribution memory = some ipsa) {commands : List (List String)}
    {tableId actionId : Int} :
    Added ipsa commands tableId actionId ↔
      ∃ params ∈ commands, commandNames program params = some (tableId, actionId) := by
  obtain ⟨actions, tables⟩ := lookupName_ipsa compiled allocated
  constructor
  · rintro ⟨params, member, update, emitted, rfl, name, table, isName, found, rfl⟩
    refine ⟨params, member, ?_⟩
    match params with
    | cmd :: tableName :: actionName :: texts =>
        obtain rfl : tableName = name := Option.some.inj isName
        obtain ⟨other, same, emitted⟩ := Option.bind_eq_some_iff.mp emitted
        cases found.symm.trans same
        obtain ⟨action, isAction, emitted⟩ := Option.bind_eq_some_iff.mp emitted
        cases emitted
        have equal := tables tableName
        rw [found, Option.map_some] at equal
        obtain ⟨source, isSource, declared⟩ := Option.map_eq_some_iff.mp equal.symm
        have number := congrArg Table.tableId declared
        change source.tableId = table.tableId at number
        rw [actions] at isAction
        simp [commandNames, isSource, isAction, number]
    | [] | [_] | [_, _] => cases emitted
  · rintro ⟨params, member, named⟩
    match params with
    | cmd :: tableName :: actionName :: texts =>
        obtain ⟨source, isSource, named⟩ := Option.bind_eq_some_iff.mp named
        obtain ⟨action, isAction, named⟩ := Option.bind_eq_some_iff.mp named
        cases named
        have equal := tables tableName
        rw [isSource, Option.map_some] at equal
        obtain ⟨table, isTable, declared⟩ := Option.map_eq_some_iff.mp equal
        have number := congrArg Table.tableId declared
        change table.tableId = source.tableId at number
        rw [← actions] at isAction
        have emitted : (emitUpdate ipsa (cmd :: tableName :: actionName :: texts)).isSome := by
          simp [emitUpdate, isTable, isAction]
        obtain ⟨update, isUpdate⟩ := Option.isSome_iff_exists.mp emitted
        refine ⟨_, member, update, isUpdate, ?_, tableName, table, rfl, isTable, number⟩
        simp only [emitUpdate, isTable, isAction, Option.bind_eq_bind, Option.bind_some, Option.pure_def,
          Option.some.injEq] at isUpdate
        rw [← isUpdate]
    | [] | [_] | [_, _] => cases named

private theorem loaded_table
    (compiled : Compiled headers getHeader sort levels ast program distribution memory docs)
    {tableId : Int} {source table : Table} (found : memory.tables.lookupId tableId = some source)
    (emitted : EmittedAs source table) :
    ∃ name original, (name, original) ∈ program.tables ∧ program.tables.lookupId tableId = some original ∧
      original.tableId = tableId ∧ table.tableId = tableId ∧ table.missActionId = original.missActionId ∧
      table.actionToProc.map Prod.fst = original.actionToProc.map Prod.fst := by
  have same := compiled.lookupId_memory tableId
  rw [found, Option.map_some] at same
  obtain ⟨original, isOriginal, blank⟩ := Option.map_eq_some_iff.mp same.symm
  obtain ⟨number, name, member⟩ := lookupId_entry isOriginal
  obtain ⟨sourceNumber, _⟩ := lookupId_entry found
  have miss := congrArg Table.missActionId blank
  have targets := congrArg Table.actionToProc blank
  change original.missActionId = source.missActionId at miss
  change original.actionToProc = source.actionToProc at targets
  obtain ⟨_, _, rfl⟩ := emitted
  refine ⟨name, original, member, isOriginal, number, sourceNumber, miss.symm, ?_⟩
  simp [targets]

/-- Every action a matcher can select is installed exactly if the stages list the default actions
of their tables and the actions that commands name for them. -/
theorem selectableInstalled_iff
    (compiled : Compiled headers getHeader sort levels ast program distribution memory docs)
    (allocated : allocateProcessors program distribution memory = some ipsa) (commands : List (List String)) :
    SelectableInstalled ipsa docs commands ↔ SelectedInStage program commands := by
  have emission := compiled.emission
  constructor
  · intro installed stage live tableId listed
    obtain ⟨_, index, at_⟩ := stageId_placed emission (List.mem_map_of_mem live)
    obtain ⟨doc, procProc, here, stageDoc⟩ := emission.doc_at live at_
    obtain ⟨table, member, source, found, emitted⟩ := stageDoc.table_of_id listed
    obtain ⟨name, original, _, isOriginal, _, number, miss, _⟩ := loaded_table compiled found emitted
    constructor
    · intro other isOther
      cases isOriginal.symm.trans isOther
      rw [← stageDoc.executor_ids, ← miss]
      exact (installed index doc here table member _ (.inl rfl)).1
    · rintro params inside ⟨_, actionId⟩ named rfl
      rw [← stageDoc.executor_ids]
      refine (installed index doc here table member actionId (.inr ?_)).1
      rw [number]
      exact (added_iff compiled allocated).mpr ⟨params, inside, named⟩
  · intro selected index doc here table member actionId selects
    rcases emission.doc_cases here with ⟨noTables, -⟩ | ⟨stage, live, -, procProc, stageDoc⟩
    · simp [noTables] at member
    · obtain ⟨tableId, listed, source, found, emitted⟩ := stageDoc.id_of_table member
      obtain ⟨name, original, inside, isOriginal, number, sameNumber, miss, targets⟩ :=
        loaded_table compiled found emitted
      obtain ⟨default, commanded⟩ := selected stage live tableId listed
      have isAction : actionId ∈ stage.actionProc.map Prod.fst := by
        rcases selects with rfl | added
        · rw [miss]
          exact default original isOriginal
        · rw [sameNumber] at added
          obtain ⟨params, isParams, named⟩ := (added_iff compiled allocated).mp added
          exact commanded params isParams (tableId, actionId) named rfl
      refine ⟨stageDoc.executor_ids ▸ isAction, ?_⟩
      obtain ⟨pair, isPair, rfl⟩ := List.mem_map.mp isAction
      rw [targets]
      exact List.mem_map_of_mem (actionToProc_load compiled.done inside (List.mem_filter.mp live).1
        (number ▸ listed) pair isPair)

end

/-- Three actions, two of them in the stage that runs the table. -/
def defaultAst (stmts : List TableStmt) : Ast where
  actions := ["deny", "permit", "count"].map fun name => { name, parameters := [], expressions := [] }
  tables :=
    [{ name := "t", keys := [(.field "hdr" "h" "f", .exact)],
       optionalStmts := .size 1024 :: .valueWidth 16 :: stmts }]
  ingress := [
    { name := "a", parser := [], executor := [⟨"permit", ""⟩, ⟨"count", ""⟩]
      matcher := ⟨[], [⟨.default, .table "t"⟩]⟩ }]
  egress := []

def defaultCompile (stmts : List TableStmt) :
    Option (Program × DistributionResult × MemoryResult × Ipsa × List (Option ProcessorDoc)) := do
  let program ← load tableHeaders [] (defaultAst stmts)
  let distribution ← distributeParsers (fun _ items => items) (fun _ => none) [] program.stages.logicalStages
  let memory ← allocateMemory program.tables program.stages.logicalStages distribution.topoSequence
  let ipsa ← allocateProcessors program distribution memory
  return (program, distribution, memory, ipsa, ← ipsa.toIpsaValue)

def listedCompile : Program × DistributionResult × MemoryResult × Ipsa × List (Option ProcessorDoc) :=
  (defaultCompile [.defaultAction "permit"]).get (by decide)

theorem selectableInstalled_listed :
    SelectableInstalled listedCompile.2.2.2.1 listedCompile.2.2.2.2 [["table_add", "t", "count",
      "1", "=>"]] := by
  have compiled : Compiled tableHeaders (fun _ => none) (fun _ items => items) []
      (defaultAst [.defaultAction "permit"]) listedCompile.1 listedCompile.2.1 listedCompile.2.2.1
      listedCompile.2.2.2.2 := ⟨rfl, rfl, rfl, by decide, rfl⟩
  have allocated : allocateProcessors listedCompile.1 listedCompile.2.1 listedCompile.2.2.1 =
      some listedCompile.2.2.2.1 := rfl
  exact (selectableInstalled_iff compiled allocated _).mpr (by decide)

def missingCompile : Program × DistributionResult × MemoryResult × Ipsa × List (Option ProcessorDoc) :=
  (defaultCompile []).get (by decide)

/-- A table that declares no default action misses with action 0, which its stage does not list. -/
theorem not_selectableInstalled_missing :
    Compiled tableHeaders (fun _ => none) (fun _ items => items) [] (defaultAst []) missingCompile.1
      missingCompile.2.1 missingCompile.2.2.1 missingCompile.2.2.2.2 ∧
    allocateProcessors missingCompile.1 missingCompile.2.1 missingCompile.2.2.1 =
      some missingCompile.2.2.2.1 ∧
    ¬SelectableInstalled missingCompile.2.2.2.1 missingCompile.2.2.2.2 [] := by
  refine ⟨⟨rfl, rfl, rfl, by decide, rfl⟩, rfl, fun installed => ?_⟩
  have here :=
    installed 0 ((missingCompile.2.2.2.2[0]?.join).get (by decide)) rfl _ (List.head_mem (by decide)) 0
    (.inl (by decide))
  exact absurd here.1 (by decide)

end Ipbm.System
