import Ipbm.Compiler.P4Stages
import Ipbm.Lib.Overrides

/-! The tables that the printed stages run, and the actions and successors that they list for
them. The successors of hits and misses are listed under two synthetic actions, which no entry of
a table has; the second one is printed as the default action. -/

set_option autoImplicit false

namespace Ipbm.Compiler.P4r
open Lib

section

variable (program : P4Program) (surroundings : P4Surroundings)

/-- The program with the synthetic actions. -/
abbrev emitted : P4Program := program.createHitMissActions

/-- What the P4 compiler guarantees about a program. Its nodes lead on without a cycle. -/
structure WellFormedNodes : Prop where
  ids : (program.actions.map P4Action.id).Nodup
  small : ∀ action ∈ program.actions, action.id < 0xffffff
  keys : ∀ pipeline ∈ program.pipelines, ∀ table ∈ pipeline.tables, ∀ next ∈ table.nextTables,
    isHitMiss next.1 = false →
    ∃ action ∈ program.actions, action.name = next.1 ∧ action.id = P4Program.keyActionId table next.1
  branches : ∀ pipeline ∈ program.pipelines, ∀ conditional ∈ pipeline.conditionals, ∀ name,
    name = conditional.trueNext ∨ name = conditional.falseNext → name = "" ∨
      name ∈ pipeline.conditionals.map P4Conditional.name ∨ name ∈ pipeline.tables.map P4Table.name
  successors : ∀ pipeline ∈ program.pipelines, ∀ table ∈ pipeline.tables,
    ∀ next ∈ table.nextTables, next.2 = "" ∨
    next.2 ∈ pipeline.conditionals.map P4Conditional.name ∨ next.2 ∈ pipeline.tables.map P4Table.name
  keyword : ∀ name ∈ (emitted program).stageNodes, (emitted program).stageText name ≠ "None"
  order : ∃ rank : String → Nat, ∀ pipeline ∈ program.pipelines,
    (∀ table ∈ pipeline.tables, ∀ next ∈ table.nextTables, rank next.2 < rank table.name) ∧
      ∀ conditional ∈ pipeline.conditionals,
        rank conditional.trueNext < rank conditional.name ∧ rank conditional.falseNext < rank conditional.name

/-- The stages of a program, in their order. -/
def p4Stages : List P4Stage :=
  (emitted program).pipelines.flatMap ((emitted program).pipelineStages surroundings)

end

/-- The successors that a stage lists, each with its table. -/
def listing (stage : P4Stage) : List (P4Table × String × String) :=
  stage.listed.flatMap fun table => table.nextTables.map fun next => (table, next)

/-- The switch of the stage names the table. -/
def runsTable (table : P4Table) (stage : P4Stage) : Bool :=
  .table table.name ∈ stage.switch.map SwitchEntry.value

/-- The action is listed under its own name. -/
def refersTo (action : P4Action) (item : P4Table × String × String) : Bool :=
  !isHitMiss item.2.1 && item.2.1 = action.name && P4Program.keyActionId item.1 item.2.1 = action.id

/-! ### The printed program -/

theorem mem_pipelineStages {emitted : P4Program} {surroundings : P4Surroundings}
    {pipeline : P4Pipeline} {stage : P4Stage}
    (member : stage ∈ emitted.pipelineStages surroundings pipeline) :
    (∃ conditional ∈ pipeline.conditionals,
      stage = emitted.conditionalStage surroundings pipeline conditional) ∨
      ∃ table ∈ pipeline.tables, emitted.isStage table.name = true ∧ stage = P4Program.tableStage table := by
  have tables {tables : List P4Table} (same : ∀ table, table ∈ tables ↔ table ∈ pipeline.tables)
      (member : stage ∈ (tables.filter fun table => emitted.isStage table.name).map P4Program.tableStage) :
      ∃ table ∈ pipeline.tables, emitted.isStage table.name = true ∧ stage = P4Program.tableStage table := by
    obtain ⟨table, inside, rfl⟩ := List.mem_map.mp member
    obtain ⟨inside, isStage⟩ := List.mem_filter.mp inside
    exact ⟨table, (same table).mp inside, isStage, rfl⟩
  have conditionals {stages : List P4Stage}
      (same : stages.Perm (pipeline.conditionals.map (emitted.conditionalStage surroundings pipeline)))
      (member : stage ∈ stages) :
      ∃ conditional ∈ pipeline.conditionals, stage =
          emitted.conditionalStage surroundings pipeline conditional := by
    obtain ⟨conditional, inside, rfl⟩ := List.mem_map.mp (same.mem_iff.mp member)
    exact ⟨conditional, inside, rfl⟩
  unfold P4Program.pipelineStages at member
  dsimp only at member
  split at member
  · rcases List.mem_append.mp member with first | second
    · exact .inl (conditionals (swapFirst_perm ..) first)
    · exact .inr (tables (fun _ => Iff.rfl) second)
  · rcases List.mem_append.mp member with first | second
    · exact .inr (tables (fun _ => (swapFirst_perm ..).mem_iff) first)
    · exact .inl (conditionals (List.Perm.refl _) second)

section

variable {program : P4Program} {surroundings : P4Surroundings}

/-- A printed table is a table of the program but for its default action. -/
theorem emitted_table {pipeline : P4Pipeline} (inside : pipeline ∈ (emitted program).pipelines) :
    ∃ source ∈ program.pipelines, pipeline.conditionals = source.conditionals ∧
      List.Forall₂ (EmittedTable program.hitMissActions) source.tables pipeline.tables := by
  obtain ⟨source, isSource, _, conditionals, tables⟩ :=
    forall₂_mem_right (createHitMissActions_emitted program) inside
  exact ⟨source, isSource, conditionals, tables⟩

/-- The tables of a pipeline keep their names. -/
theorem emitted_names {source pipeline : P4Pipeline}
    (tables : List.Forall₂ (EmittedTable program.hitMissActions) source.tables pipeline.tables) :
    pipeline.tables.map P4Table.name = source.tables.map P4Table.name := by
  refine (map_eq_map_of_forall₂ _ _ ?_ tables).symm
  rintro table printed ⟨actionId, rfl, _⟩
  obtain ⟨_, same⟩ := (tableHitMiss_spec table actionId).1
  rw [same]

/-- A switch names tables of its pipeline, and lists their successors. -/
theorem switch_lists (wellFormed : WellFormedNodes program) {pipeline : P4Pipeline}
    (inside : pipeline ∈ (emitted program).pipelines) {stage : P4Stage}
    (member : stage ∈ (emitted program).pipelineStages surroundings pipeline) {name : String}
    (named : .table name ∈ stage.switch.map SwitchEntry.value) :
    ∃ table ∈ pipeline.tables, table.name = name ∧ table ∈ stage.listed := by
  rcases mem_pipelineStages member with ⟨conditional, isConditional, rfl⟩ | ⟨table, isTable, _, rfl⟩
  · have branch : ∃ next, (next = conditional.trueNext ∨ next = conditional.falseNext) ∧
        (emitted program).outNext next = .table name := by
      obtain ⟨entry, isEntry, value⟩ := List.mem_map.mp named
      rcases List.mem_append.mp isEntry with values | default
      · obtain ⟨_, _, rfl⟩ := List.mem_map.mp values
        exact ⟨_, .inl rfl, value⟩
      · rw [List.mem_singleton.mp default] at value
        exact ⟨_, .inr rfl, value⟩
    obtain ⟨next, isNext, value⟩ := branch
    unfold P4Program.outNext at value
    split at value
    · cases value
    · next nonempty =>
      split at value
      · cases value
      · next notStage =>
        cases value
        obtain ⟨source, isSource, conditionals, tables⟩ := emitted_table inside
        rcases wellFormed.branches source isSource conditional (conditionals ▸ isConditional) name isNext with
          empty | isStage | isTable
        · exact absurd empty nonempty
        · rw [← conditionals] at isStage
          obtain ⟨other, isOther, rfl⟩ := List.mem_map.mp isStage
          exact absurd (decide_eq_true (conditional_listed inside isOther)) notStage
        · rw [← emitted_names tables] at isTable
          obtain ⟨table, listed, rfl⟩ := List.mem_map.mp isTable
          refine ⟨table, listed, rfl, List.mem_filter.mpr ⟨listed, ?_⟩⟩
          rw [Bool.and_eq_true, Bool.or_eq_true, decide_eq_true_eq, decide_eq_true_eq, Bool.not_eq_true']
          exact ⟨isNext, by simpa using notStage⟩
  · obtain ⟨entry, isEntry, value⟩ := List.mem_map.mp named
    rw [List.mem_singleton.mp isEntry] at value
    cases value
    exact ⟨table, isTable, rfl, List.mem_singleton_self _⟩

theorem listed_table {pipeline : P4Pipeline} {stage : P4Stage}
    (member : stage ∈ (emitted program).pipelineStages surroundings pipeline) {table : P4Table}
    (listed : table ∈ stage.listed) : table ∈ pipeline.tables := by
  rcases mem_pipelineStages member with ⟨conditional, _, rfl⟩ | ⟨own, isTable, _, rfl⟩
  · exact (List.mem_filter.mp listed).1
  · exact List.mem_singleton.mp listed ▸ isTable

/-- The action an executor entry names. -/
theorem item_action (wellFormed : WellFormedNodes program)
    (denote : NamesDenote (emitted program) program.hitMissActions)
    {pipeline : P4Pipeline} (inside : pipeline ∈ (emitted program).pipelines) {table : P4Table}
    (isTable : table ∈ pipeline.tables) {next : String × String} (leads : next ∈ table.nextTables) :
    ∃ named ∈ (emitted program).actions,
      (emitted program).entryAction table next.1 = (emitted program).actionText named.name named.id ∧
        (∀ action ∈ program.actions, refersTo action (table, next) = true ↔ named = action) ∧
        (isHitMiss next.1 = true → named ∈ program.hitMissActions ∧ named.name = table.name ++ next.1) ∧
        (isHitMiss next.1 = false → named ∈ program.actions) := by
  obtain ⟨source, isSource, _, tables⟩ := emitted_table inside
  obtain ⟨original, isOriginal, actionId, same, created⟩ := forall₂_mem_right tables isTable
  obtain ⟨⟨defaultActionId, isSame⟩, synthetic⟩ := tableHitMiss_spec original actionId
  rw [isSame] at same
  subst same
  cases keyed : isHitMiss next.1 with
  | true =>
      obtain ⟨named, isNamed, name⟩ := synthetic next leads keyed
      have isHitMissAction := created isNamed
      refine ⟨named, List.mem_append_right _ isHitMissAction, ?_, ?_, fun _ => ⟨isHitMissAction, name⟩,
        fun other => by cases other⟩
      · have found := List.find?_some (denote.hitMiss named isHitMissAction)
        rw [decide_eq_true_eq] at found
        rw [P4Program.entryAction, keyed, if_pos rfl, P4Program.actionText, P4Program.actionText, found, name]
      · intro action isAction
        have large := (hitMissActions_ids program).le isHitMissAction
        have small := wellFormed.small action isAction
        constructor
        · intro refers
          simp [refersTo, keyed] at refers
        · rintro rfl
          omega
  | false =>
      obtain ⟨named, isNamed, name, id⟩ :=
        wellFormed.keys source isSource original isOriginal next leads keyed
      have isEmitted : named ∈ (emitted program).actions := List.mem_append_left _ isNamed
      refine ⟨named, isEmitted, ?_, ?_, (fun other => by cases other), fun _ => isNamed⟩
      · rw [P4Program.entryAction, keyed, if_neg Bool.false_ne_true, name, id]
        rfl
      · intro action isAction
        have refers : refersTo action ({ original with defaultActionId }, next) = true ↔
            named.name = action.name ∧ named.id = action.id := by
          simp only [refersTo, keyed, Bool.not_false, Bool.true_and, Bool.and_eq_true,
            decide_eq_true_eq, name, id]
          exact Iff.rfl
        rw [refers]
        constructor
        · rintro ⟨sameName, sameId⟩
          refine List.inj_on_of_nodup_map denote.actions isEmitted (List.mem_append_left _ isAction) ?_
          rw [sameName, sameId]
        · rintro rfl
          exact ⟨rfl, rfl⟩

/-- The tables of the program have different names. -/
theorem table_eq (denote : NamesDenote (emitted program) program.hitMissActions) {table other : P4Table}
    (member : table ∈ (emitted program).tables) (isOther : other ∈ (emitted program).tables) :
    (emitted program).tableText table.name = (emitted program).tableText other.name ↔ table = other := by
  constructor
  · intro same
    exact List.inj_on_of_nodup_map denote.tables member isOther (String.ofList_injective same)
  · rintro rfl
    rfl

theorem successor_node (wellFormed : WellFormedNodes program) {pipeline : P4Pipeline}
    (inside : pipeline ∈ (emitted program).pipelines) {table : P4Table} (isTable : table ∈ pipeline.tables)
    {next : String × String} (leads : next ∈ table.nextTables) :
    next.2 = "" ∨ next.2 ∈ (emitted program).stageNodes := by
  obtain ⟨source, isSource, conditionals, tables⟩ := emitted_table inside
  obtain ⟨original, isOriginal, actionId, same, _⟩ := forall₂_mem_right tables isTable
  obtain ⟨⟨defaultActionId, isSame⟩, _⟩ := tableHitMiss_spec original actionId
  have isStage : next.2 ∈ (emitted program).stageNames.map Prod.fst := successor_listed inside isTable leads
  rw [isSame] at same
  subst same
  refine (wellFormed.successors source isSource original isOriginal next leads).imp_right fun known => ?_
  rw [← conditionals, ← emitted_names tables] at known
  refine List.mem_flatMap.mpr ⟨pipeline, inside, List.mem_append.mpr (known.imp_right fun isName => ?_)⟩
  exact List.mem_filter.mpr ⟨isName, decide_eq_true isStage⟩

/-- A table with successors for hits and misses only, and what it is printed as. -/
structure Keyed (program : P4Program) (table printed : P4Table) (hit miss : String)
    (missAction : P4Action) : Prop where
  nextTables : table.nextTables = [("__HIT__", hit), ("__MISS__", miss)]
  same : printed = { table with defaultActionId := missAction.id }
  name : missAction.name = table.name ++ "__MISS__"
  body : missAction.expressions = []
  isHitMiss : missAction ∈ program.hitMissActions
  inTables : printed ∈ (emitted program).tables

theorem keyed_table {pipeline : P4Pipeline} (inside : pipeline ∈ program.pipelines) {table : P4Table}
    (isTable : table ∈ pipeline.tables) {hit miss : String}
    (nextTables : table.nextTables = [("__HIT__", hit), ("__MISS__", miss)]) :
    ∃ printed missAction, Keyed program table printed hit miss missAction := by
  obtain ⟨index, here⟩ := List.mem_iff_getElem?.mp inside
  obtain ⟨after, there, _, _, tables⟩ := forall₂_right (createHitMissActions_emitted program) here
  obtain ⟨position, at_⟩ := List.mem_iff_getElem?.mp isTable
  obtain ⟨printed, isPrinted, actionId, same, created⟩ := forall₂_right tables at_
  have filtered : table.nextTables.filter (fun next => P4r.isHitMiss next.1) =
      [("__HIT__", hit), ("__MISS__", miss)] := by
    rw [nextTables]
    simp [P4r.isHitMiss]
  rw [tableHitMiss, filtered] at same created
  refine ⟨printed, { name := table.name ++ "__MISS__", id := actionId + 1 }, nextTables, same, rfl,
    rfl, created ?_, ?_⟩
  · simp
  · exact List.mem_flatMap.mpr ⟨after, List.mem_of_getElem? there, List.mem_of_getElem? isPrinted⟩

/-- The default action that is printed is the one for misses. -/
theorem Keyed.printDefault {table printed : P4Table} {hit miss : String} {missAction : P4Action}
    (keyed : Keyed program table printed hit miss missAction) (wellFormed : WellFormedNodes program) :
    (emitted program).printDefault printed =
      [.defaultAction ((emitted program).actionText missAction.name missAction.id)] := by
  have found : ((emitted program).actions.find? fun action => action.id = printed.defaultActionId) =
      some missAction := by
    rw [keyed.same]
    have ids := hitMissActions_ids program
    have isSome : ((emitted program).actions.find? fun action => action.id = missAction.id).isSome :=
      List.find?_isSome.mpr ⟨missAction, List.mem_append_right _ keyed.isHitMiss, by simp⟩
    obtain ⟨other, found⟩ := Option.isSome_iff_exists.mp isSome
    have same : other.id = missAction.id := by simpa using List.find?_some found
    rw [found]
    rcases List.mem_append.mp (List.mem_of_find?_eq_some found) with original | synthetic
    · have small := wellFormed.small other original
      have large := ids.le keyed.isHitMiss
      omega
    · rw [List.inj_on_of_nodup_map ids.nodup synthetic keyed.isHitMiss same]
  rw [P4Program.printDefault, found]
  rfl

theorem isHitMiss_cases {key : String} (keyed : isHitMiss key = true) :
    key = "__HIT__" ∨ key = "__MISS__" := by
  simpa [isHitMiss] using keyed

/-- The texts for hits and for misses end differently. -/
theorem hit_ne_miss (first second : String) : first ++ "__HIT__" ≠ second ++ "__MISS__" := by
  intro same
  have letters := congrArg (fun text => text.toList.reverse[2]?) same
  simp [String.toList_append] at letters

theorem item_inside {stage : P4Stage} (isStage : stage ∈ p4Stages program surroundings)
    {item : P4Table × String × String} (listed : item ∈ listing stage) :
    ∃ pipeline ∈ (emitted program).pipelines, item.1 ∈ pipeline.tables ∧ item.2 ∈ item.1.nextTables := by
  obtain ⟨pipeline, inside, isStage⟩ := List.mem_flatMap.mp isStage
  obtain ⟨table, isListed, member⟩ := List.mem_flatMap.mp listed
  obtain ⟨next, leads, rfl⟩ := List.mem_map.mp member
  exact ⟨pipeline, inside, listed_table isStage isListed, leads⟩

/-- The executor entries that name the action for misses lead to the successor of a miss. -/
theorem Keyed.miss_item {table printed : P4Table} {hit miss : String} {missAction : P4Action}
    (keyed : Keyed program table printed hit miss missAction) (wellFormed : WellFormedNodes program)
    (denote : NamesDenote (emitted program) program.hitMissActions) {pipeline : P4Pipeline}
    (inside : pipeline ∈ (emitted program).pipelines) {other : P4Table} (isTable : other ∈ pipeline.tables)
    {next : String × String} (leads : next ∈ other.nextTables)
    (same : (emitted program).entryAction other next.1 =
      (emitted program).actionText missAction.name missAction.id) : next.2 = miss := by
  obtain ⟨named, isNamed, text, _, synthetic, original⟩ := item_action wellFormed denote inside isTable leads
  have isMiss : named = missAction := by
    refine List.inj_on_of_nodup_map denote.actions isNamed (List.mem_append_right _ keyed.isHitMiss) ?_
    exact String.ofList_injective (text.symm.trans same)
  subst isMiss
  cases isKeyed : P4r.isHitMiss next.1 with
  | false =>
      have small := wellFormed.small named (original isKeyed)
      have large := (hitMissActions_ids program).le keyed.isHitMiss
      omega
  | true =>
      have name := (synthetic isKeyed).2
      rw [keyed.name] at name
      rcases isHitMiss_cases isKeyed with isHit | isMiss
      · rw [isHit] at name
        exact absurd name.symm (hit_ne_miss _ _)
      · rw [isMiss] at name
        have sameName : table.name = other.name := (String.append_left_inj "__MISS__").mp name
        have isPrinted : printed = other := by
          refine (table_eq denote keyed.inTables (List.mem_flatMap.mpr ⟨pipeline, inside, isTable⟩)).mp ?_
          rw [← sameName, keyed.same]
        rw [← isPrinted, keyed.same, keyed.nextTables] at leads
        rcases List.mem_cons.mp leads with rfl | last
        · simp at isMiss
        · rw [List.mem_singleton.mp last]

/-- Every stage that runs a keyed table lists its successor of a miss under the synthetic action. -/
theorem Keyed.lists_miss {table printedTable : P4Table} {hit miss : String} {missAction : P4Action}
    (keyed : Keyed program table printedTable hit miss missAction) (wellFormed : WellFormedNodes program)
    (denote : NamesDenote (emitted program) program.hitMissActions) {stage : P4Stage}
    (isStage : stage ∈ p4Stages program surroundings) (runs : runsTable printedTable stage = true) :
    ∃ item ∈ listing stage,
      (emitted program).entryAction item.1 item.2.1 =
        (emitted program).actionText missAction.name missAction.id := by
  obtain ⟨pipeline, inside, isStage⟩ := List.mem_flatMap.mp isStage
  obtain ⟨other, isTable, name, listed⟩ := switch_lists wellFormed inside isStage (of_decide_eq_true runs)
  obtain rfl :=
    (table_eq denote (List.mem_flatMap.mpr ⟨pipeline, inside, isTable⟩) keyed.inTables).mp (by rw [name])
  have leads : ("__MISS__", miss) ∈ other.nextTables := by
    rw [keyed.same, keyed.nextTables]
    simp
  refine ⟨(other, ("__MISS__", miss)), List.mem_flatMap.mpr ⟨other, listed, List.mem_map_of_mem leads⟩, ?_⟩
  have found := List.find?_some (denote.hitMiss missAction keyed.isHitMiss)
  rw [decide_eq_true_eq] at found
  rw [P4Program.entryAction, if_pos (show P4r.isHitMiss "__MISS__" = true by decide), P4Program.actionText,
    P4Program.actionText, found, keyed.name, keyed.same]

/-- What a stage lists leads downwards. -/
theorem listing_descends (wellFormed : WellFormedNodes program) :
    ∃ rank : String → Nat, ∀ stage ∈ p4Stages program surroundings,
    ∀ item ∈ listing stage, rank item.2.2 < rank stage.name := by
  obtain ⟨rank, order⟩ := wellFormed.order
  refine ⟨rank, fun stage isStage item listed => ?_⟩
  obtain ⟨pipeline, inside, isStage⟩ := List.mem_flatMap.mp isStage
  obtain ⟨table, isListed, member⟩ := List.mem_flatMap.mp listed
  obtain ⟨next, leads, rfl⟩ := List.mem_map.mp member
  obtain ⟨source, isSource, conditionals, tables⟩ := emitted_table inside
  obtain ⟨original, isOriginal, actionId, same, _⟩ := forall₂_mem_right tables (listed_table isStage isListed)
  obtain ⟨⟨defaultActionId, isSame⟩, _⟩ := tableHitMiss_spec original actionId
  rw [isSame] at same
  subst same
  obtain ⟨onward, branches⟩ := order source isSource
  have below := onward original isOriginal next leads
  rcases mem_pipelineStages isStage with ⟨conditional, isConditional, rfl⟩ | ⟨own, _, _, rfl⟩
  · obtain ⟨first, second⟩ := branches conditional (conditionals ▸ isConditional)
    have named := (List.mem_filter.mp isListed).2
    rw [Bool.and_eq_true, Bool.or_eq_true, decide_eq_true_eq, decide_eq_true_eq] at named
    rcases named.1 with isTrue | isFalse
    · exact below.trans (lt_of_eq_of_lt (congrArg rank isTrue) first)
    · exact below.trans (lt_of_eq_of_lt (congrArg rank isFalse) second)
  · obtain rfl := List.mem_singleton.mp isListed
    exact below

theorem stage_node {stage : P4Stage} (isStage : stage ∈ p4Stages program surroundings) :
    stage.name ∈ (emitted program).stageNodes := by
  obtain ⟨pipeline, inside, isStage⟩ := List.mem_flatMap.mp isStage
  have names := (pipelineStages_names (emitted program) surroundings pipeline).mem_iff.mp
    (List.mem_map_of_mem (f := P4Stage.name) isStage)
  exact List.mem_flatMap.mpr ⟨pipeline, inside, names⟩

/-- A stage that runs a keyed table lists an entry for hits and one for misses. -/
theorem Keyed.listing_long {table printed : P4Table} {hit miss : String} {missAction : P4Action}
    (keyed : Keyed program table printed hit miss missAction) (wellFormed : WellFormedNodes program)
    (denote : NamesDenote (emitted program) program.hitMissActions) {stage : P4Stage}
    (isStage : stage ∈ p4Stages program surroundings) (runs : runsTable printed stage = true) :
    2 ≤ (listing stage).length := by
  obtain ⟨pipeline, inside, isStage⟩ := List.mem_flatMap.mp isStage
  obtain ⟨other, isTable, name, listed⟩ := switch_lists wellFormed inside isStage (of_decide_eq_true runs)
  obtain rfl :=
    (table_eq denote (List.mem_flatMap.mpr ⟨pipeline, inside, isTable⟩) keyed.inTables).mp (by rw [name])
  obtain ⟨before, behind, split⟩ := List.append_of_mem listed
  have nextTables : other.nextTables = [("__HIT__", hit), ("__MISS__", miss)] := by
    rw [keyed.same, keyed.nextTables]
  rw [listing, split, List.flatMap_append, List.flatMap_cons, nextTables]
  simp only [List.length_append, List.map_cons, List.map_nil, List.length_cons, List.length_nil]
  omega

end

end Ipbm.Compiler.P4r
