import Ipbm.Lib.Paths
import Ipbm.Compiler.BuilderProperties
import Mathlib.Logic.Relation

/-! Which levels the distribution gives to which stage. A level is given to the
stages that need it and that can be the first to, as far as the actions tell; the
stages a gateway leads to play no part. -/

set_option autoImplicit false

namespace Ipbm.Compiler
open Lib Relation
open Distribution hiding stageLevels levelLevel

/-! ### Levels -/

/-- A level goes on to another one. -/
def LevelStep (levels : List Level) (first second : Int) : Prop :=
  ∃ (index : Nat) (level : Level), first = index ∧ levels[index]? = some level ∧
    ∃ entry ∈ transitions level, entry.nextState = second

def Extracts (levels : List Level) (levelId headerId : Int) : Prop :=
  ∃ (index : Nat) (level : Level), levelId = index ∧ levels[index]? = some level ∧
    ∃ entry ∈ transitions level, entry.headerId = headerId

/-- The levels that extract a header of the stage's parser, and the levels they are reached from. -/
def Needs (getHeader : String → Option Int) (levels : List Level) (stage : Stage) (levelId : Int) : Prop :=
  ∃ name ∈ stage.definition.parser, ∃ headerId, getHeader name = some headerId ∧
    ∃ last, Extracts levels last headerId ∧ ReflTransGen (LevelStep levels) levelId last

theorem mem_zipIdx_level {levels : List Level} {level : Level} {index : Nat} :
    (level, index) ∈ levels.zipIdx ↔ levels[index]? = some level :=
  List.mem_zipIdx_iff_getElem?

theorem keys_levels {β : Type} (levels : List Level) (value : Level × Nat → β) :
    OrderedMap.keys (levels.zipIdx.map fun entry => ((entry.2 : Int), value entry)) =
      (List.range levels.length).map fun (index : Nat) => (index : Int) := by
  have indices : levels.zipIdx.map Prod.snd = List.range levels.length := by
    rw [List.zipIdx_map_snd, List.range_eq_range']
  rw [← indices, OrderedMap.keys, List.map_map, List.map_map]
  rfl

theorem ordered_levels {β : Type} (levels : List Level) (value : Level × Nat → β) :
    OrderedMap.Ordered (levels.zipIdx.map fun entry => ((entry.2 : Int), value entry)) := by
  rw [OrderedMap.Ordered, keys_levels, List.pairwise_map]
  exact List.pairwise_lt_range.imp fun below => by omega

theorem levelNextTable_successorTable (levels : List Level) : SuccessorTable (levelNextTable levels) := by
  refine ⟨ordered_levels levels _, ?_, ?_⟩
  · intro key member
    have member' : key ∈ (List.range levels.length).map fun (index : Nat) => (index : Int) :=
      keys_levels levels _ ▸ member
    obtain ⟨index, _, rfl⟩ := List.mem_map.mp member'
    exact Int.natCast_nonneg index
  · intro entry member
    obtain ⟨source, _, rfl⟩ := List.mem_map.mp member
    exact nodup_collect List.nodup_nil

theorem mem_preds_level {levels : List Level} {first second : Int} :
    first ∈ preds (levelNextTable levels) second ↔ LevelStep levels first second := by
  constructor
  · intro member
    obtain ⟨entry, inside, rfl⟩ := List.mem_map.mp member
    obtain ⟨listed, has⟩ := List.mem_filter.mp inside
    obtain ⟨⟨level, index⟩, isLevel, rfl⟩ := List.mem_map.mp listed
    obtain none | ⟨entry, isEntry, next⟩ := mem_collect.mp (of_decide_eq_true has)
    · cases none
    · exact ⟨index, level, rfl, mem_zipIdx_level.mp isLevel, entry, isEntry, next⟩
  · rintro ⟨index, level, rfl, here, entry, isEntry, rfl⟩
    refine List.mem_map.mpr ⟨_,
      List.mem_filter.mpr ⟨List.mem_map_of_mem (mem_zipIdx_level.mpr here), ?_⟩, rfl⟩
    exact decide_eq_true (mem_collect.mpr (.inr ⟨entry, isEntry, rfl⟩))

/-- What a table lists for a key. -/
abbrev listed (table : IdTable) (key : Int) : List Int := (OrderedMap.find table key).getD []

/-- The effect of adding items to the list of one key. -/
private structure Added (key : Int) (items : Int → Prop) (before after : IdTable) : Prop where
  ordered : OrderedMap.Ordered after
  others : ∀ other, other ≠ key → OrderedMap.find after other = OrderedMap.find before other
  own : ∀ item, item ∈ listed after key ↔ item ∈ listed before key ∨ items item

private theorem addItems {table : IdTable} (ordered : OrderedMap.Ordered table) (key : Int)
    (items : List Int) :
    Added key (· ∈ items) table
      (items.foldl (fun table item => table.alter key fun own => pushNew (own.getD []) item) table) := by
  induction items generalizing table with
  | nil => exact ⟨ordered, fun _ _ => rfl, by simp⟩
  | cons item rest ih =>
      obtain ⟨ordered', others, own⟩ :=
        ih (OrderedMap.ordered_alter ordered key fun own => pushNew (own.getD []) item)
      refine ⟨ordered', fun other different => ?_, fun other => ?_⟩
      · rw [List.foldl_cons, others other different, OrderedMap.find_alter_of_ne different]
      · rw [List.foldl_cons, own, listed, OrderedMap.find_alter_self ordered, Option.getD_some, mem_pushNew,
          List.mem_cons]
        tauto

private theorem addPreds {table after : IdTable} (ordered : OrderedMap.Ordered table) {key : Int}
    {preds : List Int} (different : ∀ pred ∈ preds, pred ≠ key)
    (run : preds.foldlM (fun (table : IdTable) pred => do
      let items ← table.find pred
      return items.foldl (fun table level => table.alter key fun own => pushNew
        (own.getD []) level) table) table = some after) :
    Added key (fun item => ∃ pred ∈ preds, item ∈ listed table pred) table after := by
  refine foldlM_some (fun done =>
    Added key (fun item => ∃ pred ∈ done, item ∈ listed table pred) table) ?_ run
    ⟨ordered, fun _ _ => rfl, by simp⟩
  intro done pred state after front added step
  obtain ⟨items, found, step⟩ := Option.bind_eq_some_iff.mp step
  cases step
  have apart : pred ≠ key := different pred (front.subset (by simp))
  have same : items = listed table pred := by rw [listed, ← added.others pred apart, found, Option.getD_some]
  obtain ⟨ordered', others, own⟩ := addItems added.ordered key items
  refine ⟨ordered', fun other away => (others other away).trans (added.others other away), fun item => ?_⟩
  rw [own, added.own, same]
  simp only [List.mem_append, List.mem_singleton, or_and_right, exists_or, exists_eq_left]
  exact or_assoc

/-- The lists while the levels are visited: a level that was visited lists all levels it is reached from. -/
structure LevelsSeen (levels : List Level) (done : List Int) (table : IdTable) : Prop where
  ordered : OrderedMap.Ordered table
  visited : ∀ levelId ∈ done, ∀ item, item ∈ listed table levelId ↔
    ReflTransGen (LevelStep levels) item levelId
  waiting : ∀ levelId ∉ done, ∀ item, item ∈ listed table levelId ↔
    item = levelId ∧ levelId ∈ OrderedMap.keys (levelNextTable levels)

private theorem levelsSeen_start (levels : List Level) :
    LevelsSeen levels [] (levels.zipIdx.map fun (_, levelId) => ((levelId : Int), [(levelId : Int)])) := by
  refine ⟨ordered_levels levels _, by simp, ?_⟩
  intro levelId _ item
  have sameKeys : OrderedMap.keys (levels.zipIdx.map fun entry => ((entry.2 : Int), [(entry.2 : Int)])) =
      OrderedMap.keys (levelNextTable levels) :=
    (keys_levels levels fun entry => [(entry.2 : Int)]).trans (keys_levels levels _).symm
  change item ∈ listed (levels.zipIdx.map fun entry => ((entry.2 : Int), [(entry.2 : Int)])) levelId ↔ _
  rw [← sameKeys, ← OrderedMap.find_isSome_iff, listed]
  cases found : OrderedMap.find (levels.zipIdx.map fun entry =>
    ((entry.2 : Int), [(entry.2 : Int)])) levelId with
  | none => simp
  | some items =>
      obtain ⟨source, _, same⟩ := List.mem_map.mp (OrderedMap.mem_of_find found)
      cases same
      simp

private theorem LevelsSeen.visit {levels : List Level} {done : List Int} {state after : IdTable}
    {levelId : Int} (seen : LevelsSeen levels done state)
    (known : levelId ∈ OrderedMap.keys (levelNextTable levels)) (fresh : levelId ∉ done)
    (before : ∀ pred ∈ preds (levelNextTable levels) levelId, pred ∈ done)
    (added : Added levelId (fun item => ∃ pred ∈ preds (levelNextTable levels) levelId,
      item ∈ listed (state.alter levelId fun items => items.getD []) pred)
        (state.alter levelId fun items => items.getD []) after) :
    LevelsSeen levels (done ++ [levelId]) after := by
  have away : ∀ other, other ≠ levelId → listed after other = listed state other := by
    intro other apart
    rw [listed, added.others other apart, OrderedMap.find_alter_of_ne apart]
  refine ⟨added.ordered, ?_, ?_⟩
  · intro other member item
    rcases List.mem_append.mp member with old | new
    · rw [away other fun same => fresh (same ▸ old)]
      exact seen.visited other old item
    · obtain rfl := List.mem_singleton.mp new
      have start : item ∈ listed (state.alter other fun items => items.getD []) other ↔ item = other := by
        rw [listed, OrderedMap.find_alter_self seen.ordered, Option.getD_some, seen.waiting other fresh item]
        exact and_iff_left known
      -- the lists of the predecessors are as they were
      have unchanged {pred : Int} (isPred : pred ∈ preds (levelNextTable levels) other) :
          item ∈ listed (state.alter other fun items => items.getD []) pred ↔
              ReflTransGen (LevelStep levels) item pred := by
        have apart : pred ≠ other := fun same => fresh (same ▸ before pred isPred)
        rw [listed, OrderedMap.find_alter_of_ne apart]
        exact seen.visited pred (before pred isPred) item
      rw [added.own, start, ReflTransGen.cases_tail_iff]
      refine or_congr eq_comm ?_
      constructor
      · intro ⟨pred, isPred, member⟩
        exact ⟨pred, (unchanged isPred).mp member, mem_preds_level.mp isPred⟩
      · intro ⟨pred, reached, step⟩
        have isPred := mem_preds_level.mpr step
        exact ⟨pred, isPred, (unchanged isPred).mpr reached⟩
  · intro other absent item
    rw [List.mem_append, List.mem_singleton, not_or] at absent
    rw [away other absent.2]
    exact seen.waiting other absent.1 item

theorem levelLevel_seen {levels : List Level} {sequence : List Int} {table : IdTable}
    (order : TopologicalOrder (levelNextTable levels) sequence) (nodup : sequence.Nodup)
    (run : Distribution.levelLevel levels sequence = some table) : LevelsSeen levels sequence table := by
  have last := levelNextTable_successorTable levels
  refine foldlM_some (LevelsSeen levels) ?_ run (levelsSeen_start levels)
  intro done levelId state after front seen step
  obtain ⟨preds', found, step⟩ := Option.bind_eq_some_iff.mp step
  have isPreds : preds' = preds (levelNextTable levels) levelId := by
    rw [← find_lastOf last levelId, ← Option.getD_some (a := preds') (b := [])]
    exact congrArg (Option.getD · []) found.symm
  subst isPreds
  obtain ⟨back, split⟩ := front
  have before : ∀ pred ∈ preds (levelNextTable levels) levelId, pred ∈ done :=
    order.behind done levelId back (by rw [← split, List.append_assoc]; rfl)
  have fresh : levelId ∉ done := by
    rw [← split, List.append_assoc] at nodup
    intro member
    exact List.disjoint_of_nodup_append nodup member (by simp)
  have different : ∀ pred ∈ preds (levelNextTable levels) levelId, pred ≠ levelId := by
    intro pred member same
    exact fresh (same ▸ before pred member)
  have known : levelId ∈ OrderedMap.keys (levelNextTable levels) := by
    rw [← order.perm.mem_iff, ← split]
    simp
  exact seen.visit known fresh before
    (addPreds (OrderedMap.ordered_alter seen.ordered levelId _) different step)

/-! ### The levels of a stage -/

private theorem mem_headerLevel {levels : List Level} {headerId levelId : Int} :
    levelId ∈ headerLevel levels headerId ↔ Extracts levels levelId headerId := by
  have entries : ∀ (entries : List ParserSramEntry) (found : List Int) (own : Int),
      levelId ∈ entries.foldl (fun found entry =>
        if entry.headerId = headerId then pushNew found own else found) found ↔
        levelId ∈ found ∨ levelId = own ∧ ∃ entry ∈ entries, entry.headerId = headerId := by
    intro entries
    induction entries with
    | nil => simp
    | cons entry rest ih =>
        intro found own
        rw [List.foldl_cons, ih]
        by_cases here : entry.headerId = headerId
        · simp [here, mem_pushNew]
          tauto
        · simp [here]
  have visited := @foldl_along (Level × Nat) (List Int) levels.zipIdx
    (fun found entry => (transitions entry.1).foldl (fun found sram =>
      if sram.headerId = headerId then pushNew found entry.2 else found) found) []
    (fun done found => levelId ∈ found ↔ ∃ entry ∈ done, levelId = entry.2 ∧
      ∃ sram ∈ transitions entry.1, sram.headerId = headerId)
    (fun done entry found _ ih => by
      rw [entries, ih]
      simp only [List.mem_append, List.mem_singleton, or_and_right, exists_or, exists_eq_left])
    (by simp)
  refine Iff.trans visited ?_
  constructor
  · rintro ⟨⟨level, index⟩, member, same, entry, isEntry, header⟩
    exact ⟨index, level, same, mem_zipIdx_level.mp member, entry, isEntry, header⟩
  · rintro ⟨index, level, same, here, entry, isEntry, header⟩
    exact ⟨(level, index), mem_zipIdx_level.mpr here, same, entry, isEntry, header⟩

private theorem mem_stageLevels {getHeader : String → Option Int} {levels : List Level} {sequence : List Int}
    {table : IdTable} (order : TopologicalOrder (levelNextTable levels) sequence)
    (seen : LevelsSeen levels sequence table) {stage : Stage} {needed : List Int}
    (run : Distribution.stageLevels getHeader levels table stage = some needed) (levelId : Int) :
    levelId ∈ needed ↔ Needs getHeader levels stage levelId := by
  have pushes : ∀ (items needed : List Int), levelId ∈ items.foldl pushNew needed ↔
      levelId ∈ needed ∨ levelId ∈ items := by
    intro items needed
    have collected := @mem_collect Int items id needed levelId
    simpa using collected
  have chosen : ∀ (ids needed : List Int), levelId ∈ ids.foldl (fun needed id =>
    (listed table id).foldl pushNew needed)
      needed ↔ levelId ∈ needed ∨ ∃ id ∈ ids, levelId ∈ listed table id := by
    intro ids
    induction ids with
    | nil => simp
    | cons id rest ih =>
        intro needed
        rw [List.foldl_cons, ih, pushes]
        simp only [List.mem_cons, exists_eq_or_imp]
        exact or_assoc
  have found := foldlM_some (fun done needed => levelId ∈ needed ↔ ∃ name ∈ done, ∃ headerId,
      getHeader name = some headerId ∧ ∃ last ∈ headerLevel levels headerId, levelId ∈ listed table last) (by
    intro done name needed after _ ih step
    obtain ⟨headerId, isHeader, step⟩ := Option.bind_eq_some_iff.mp step
    cases step
    rw [chosen, ih]
    simp only [List.mem_append, List.mem_singleton, or_and_right, exists_or, exists_eq_left,
      isHeader, Option.some.injEq, exists_eq_left']) run (by simp)
  rw [found]
  have inOrder : ∀ last headerId, Extracts levels last headerId → last ∈ sequence := by
    rintro last headerId ⟨index, level, rfl, here, _⟩
    rw [order.perm.mem_iff]
    have keys : OrderedMap.keys (levelNextTable levels) = _ := keys_levels levels _
    rw [keys]
    exact List.mem_map_of_mem (List.mem_range.mpr (List.getElem?_eq_some_iff.mp here).1)
  constructor
  · rintro ⟨name, member, headerId, isHeader, last, isLast, reached⟩
    have extracts := mem_headerLevel.mp isLast
    exact ⟨name, member, headerId, isHeader, last, extracts,
      (seen.visited last (inOrder last _ extracts) levelId).mp reached⟩
  · rintro ⟨name, member, headerId, isHeader, last, extracts, reached⟩
    exact ⟨name, member, headerId, isHeader, last, mem_headerLevel.mpr extracts,
      (seen.visited last (inOrder last _ extracts) levelId).mpr reached⟩

theorem find_insert_new {table : IdTable} {key : Int} (missing : OrderedMap.find table key = none)
    (value : List Int) (other : Int) : OrderedMap.find (table.insert key value) other =
      if other = key then some value else OrderedMap.find table other := by
  by_cases same : other = key
  · rw [same, if_pos rfl, OrderedMap.find_insert_of_none missing]
  · rw [if_neg same, OrderedMap.insert, OrderedMap.find_alter_of_ne same]

theorem procLevel_find {getHeader : String → Option Int} {levels : List Level} {table needed : IdTable}
    {stages : List Stage} (unique : ((liveStages stages).map Stage.stageId).Nodup)
    (run : procLevel getHeader levels table stages = some needed) :
    ∀ stage ∈ liveStages stages, Distribution.stageLevels getHeader levels table stage =
      some (listed needed stage.stageId) := by
  refine (foldlM_some (fun done needed =>
    (∀ stage ∈ done, Distribution.stageLevels getHeader levels table stage =
    some (listed needed stage.stageId)) ∧ ∀ key ∉ done.map Stage.stageId,
      OrderedMap.find needed key = none) ?_ run
      ⟨by simp, fun _ _ => rfl⟩).1
  rintro done stage state after ⟨back, split⟩ ⟨visited, missing⟩ step
  obtain ⟨items, isItems, step⟩ := Option.bind_eq_some_iff.mp step
  cases step
  rw [← split, List.append_assoc, List.map_append] at unique
  have fresh : stage.stageId ∉ done.map Stage.stageId := fun member =>
    List.disjoint_of_nodup_append unique member (by simp)
  have find := find_insert_new (missing stage.stageId fresh) items
  refine ⟨?_, ?_⟩
  · intro other member
    rcases List.mem_append.mp member with old | new
    · have different : other.stageId ≠ stage.stageId := fun same => fresh (same ▸ List.mem_map_of_mem old)
      rw [visited other old, listed, listed, find, if_neg different]
    · obtain rfl := List.mem_singleton.mp new
      rw [isItems, listed, find, if_pos rfl, Option.getD_some]
  · intro key absent
    simp only [List.map_append, List.map_cons, List.map_nil, List.mem_append, List.mem_singleton,
      not_or] at absent
    rw [find, if_neg absent.2]
    exact missing key absent.1

/-! ### Distribution -/

/-- An action of a stage goes on to another stage. -/
def ActionStep (stages : List Stage) (first second : Int) : Prop :=
  ∃ stage ∈ liveStages stages, stage.stageId = first ∧ 0 ≤ second ∧ ∃ pair ∈ stage.actionProc, pair.2 = second

/-- A stage no action goes on to. -/
def ActionSource (stages : List Stage) (stageId : Int) : Prop := ∀ other, ¬ ActionStep stages other stageId

def NeedsAt (getHeader : String → Option Int) (levels : List Level) (stages : List Stage)
    (levelId stageId : Int) : Prop :=
  ∃ stage ∈ liveStages stages, stage.stageId = stageId ∧ Needs getHeader levels stage levelId

theorem mem_preds_stage {stages : List Stage} (unique : ((liveStages stages).map Stage.stageId).Nodup)
    (table : SuccessorTable (nextTable stages)) {first second : Int} :
    first ∈ preds (nextTable stages) second ↔ ActionStep stages first second := by
  rw [mem_preds table]
  constructor
  · rintro ⟨targets, found, member⟩
    obtain ⟨stage, live, same, rfl⟩ := find_nextTable found
    obtain ⟨nonneg, target⟩ := mem_successors.mp member
    exact ⟨stage, live, same, nonneg, target⟩
  · rintro ⟨stage, live, rfl, nonneg, target⟩
    obtain ⟨targets, found⟩ := Option.isSome_iff_exists.mp
      (OrderedMap.find_isSome_iff.mpr (mem_keys_nextTable.mpr (List.mem_map_of_mem live)))
    obtain ⟨other, otherLive, same, rfl⟩ := find_nextTable found
    have equal := List.inj_on_of_nodup_map unique otherLive live same
    exact ⟨_, found, mem_successors.mpr (equal ▸ ⟨nonneg, target⟩)⟩

private theorem distributeStage_spec (last needed : IdTable) (total : Int → List Int) (procId level : Int) :
    (level ∈ (distributeStage last needed total procId).1 ↔ level ∈ listed needed procId ∧
      (listed last procId = [] ∨ ∃ pred ∈ listed last procId, level ∉ total pred)) ∧
    (level ∈ (distributeStage last needed total procId).2 ↔ level ∈ listed needed procId ∨
      listed last procId ≠ [] ∧ ∀ pred ∈ listed last procId, level ∈ total pred) := by
  unfold distributeStage
  rw [← listed]
  cases listed last procId with
  | nil => simp
  | cons pred others =>
      have inherited : level ∈ ((total pred).filter fun level => others.all fun other =>
        level ∈ total other) ↔
          ∀ source ∈ pred :: others, level ∈ total source := by
        simp
      simp only
      generalize ((total pred).filter fun level => others.all fun other => level ∈ total other) =
        known at inherited ⊢
      have lost : (pred :: others = [] ∨ ∃ source ∈ pred :: others, level ∉ total source) ↔
          level ∉ known := by
        rw [inherited]
        push Not
        exact or_iff_right (List.cons_ne_nil _ _)
      have kept : (pred :: others ≠ [] ∧ ∀ source ∈ pred :: others, level ∈ total source) ↔
          level ∈ known := by
        rw [inherited]
        exact and_iff_right (List.cons_ne_nil _ _)
      rw [lost, kept]
      refine Lib.foldl_along (fun items (state : List Int × List Int) =>
        (level ∈ state.1 ↔ level ∈ items ∧ level ∉ known) ∧
        (level ∈ state.2 ↔ level ∈ items ∨ level ∈ known)) ?_ ⟨by simp, by simp⟩
      rintro items item ⟨added, all⟩ _ ⟨isAdded, isKnown⟩
      simp only at isAdded isKnown
      simp only [List.mem_append, List.mem_singleton]
      by_cases present : item ∈ all
      · rw [if_pos present]
        by_cases same : level = item
        · subst same
          have old := isKnown.mp present
          constructor
          · rw [isAdded]
            exact ⟨fun found => ⟨.inl found.1, found.2⟩, fun found => ⟨old.resolve_right found.2, found.2⟩⟩
          · simp [present]
        · simp [isAdded, isKnown, same]
      · rw [if_neg present]
        by_cases same : level = item
        · subst same
          have new : level ∉ known := fun member => present (isKnown.mpr (.inr member))
          simp [new]
        · simp [isAdded, isKnown, same]

/-- The tables while the stages are visited, in an order of the action edges. -/
private structure StagesSeen (stages : List Stage) (needs : Int → Int → Prop) (done : List Int)
    (state : IdTable × IdTable) : Prop where
  distributed : ∀ procId ∈ done, ∀ level, level ∈ listed state.1 procId ↔ needs level procId ∧
    Untouched (ActionSource stages) (ActionStep stages) (needs level) procId
  total : ∀ procId ∈ done, ∀ level, level ∈ listed state.2 procId ↔ needs level procId ∨
    ¬ Untouched (ActionSource stages) (ActionStep stages) (needs level) procId
  missing : ∀ procId ∉ done, OrderedMap.find state.1 procId = none ∧ OrderedMap.find state.2 procId = none

private theorem untouched_iff {stages : List Stage} {needs : Int → Prop} {procId : Int} :
    Untouched (ActionSource stages) (ActionStep stages) needs procId ↔ ActionSource stages procId ∨
      ∃ pred, ActionStep stages pred procId ∧ ¬ needs pred ∧
        Untouched (ActionSource stages) (ActionStep stages) needs pred := by
  constructor
  · intro untouched
    cases untouched with
    | start first => exact .inl first
    | step reached free next => exact .inr ⟨_, next, free, reached⟩
  · rintro (first | ⟨pred, next, free, reached⟩)
    · exact .start first
    · exact .step reached free next

section

variable {stages : List Stage} {needs : Int → Int → Prop} {done : List Int} {state : IdTable ×
  IdTable} {procId : Int}

private theorem StagesSeen.untouched (unique : ((liveStages stages).map Stage.stageId).Nodup)
    (table : SuccessorTable (nextTable stages)) (seen : StagesSeen stages needs done state)
    (before : ∀ pred ∈ preds (nextTable stages) procId, pred ∈ done) (level : Int) :
    (preds (nextTable stages) procId = [] ∨ ∃ pred ∈ preds (nextTable stages) procId,
      level ∉ listed state.2 pred) ↔
      Untouched (ActionSource stages) (ActionStep stages) (needs level) procId := by
  have source : preds (nextTable stages) procId = [] ↔ ActionSource stages procId := by
    rw [List.eq_nil_iff_forall_not_mem]
    exact forall_congr' fun other => not_congr (mem_preds_stage unique table)
  rw [untouched_iff, source]
  refine or_congr_right (exists_congr fun pred => ?_)
  rw [mem_preds_stage unique table]
  refine and_congr_right fun step => ?_
  rw [seen.total pred (before pred ((mem_preds_stage unique table).mpr step)) level, not_or, not_not]

private theorem StagesSeen.visit {needed : IdTable} (unique : ((liveStages stages).map Stage.stageId).Nodup)
    (table : SuccessorTable (nextTable stages)) (seen : StagesSeen stages needs done state)
    (fresh : procId ∉ done) (before : ∀ pred ∈ preds (nextTable stages) procId, pred ∈ done)
    (known : ∀ level, level ∈ listed needed procId ↔ needs level procId) :
    StagesSeen stages needs (done ++ [procId])
      (state.1.insert procId (distributeStage (lastTable stages) needed (listed state.2) procId).1,
        state.2.insert procId (distributeStage (lastTable stages) needed (listed state.2) procId).2) := by
  have isPreds : listed (lastTable stages) procId = preds (nextTable stages) procId :=
    find_lastOf table procId
  obtain ⟨noDistributed, noTotal⟩ := seen.missing procId fresh
  have added := fun level => distributeStage_spec (lastTable stages) needed (listed state.2) procId level
  refine ⟨?_, ?_, ?_⟩
  · intro other member level
    rw [listed, find_insert_new noDistributed]
    rcases List.mem_append.mp member with old | new
    · rw [if_neg fun (same : other = procId) => fresh (same ▸ old)]
      exact seen.distributed other old level
    · obtain rfl := List.mem_singleton.mp new
      rw [if_pos rfl, Option.getD_some, (added level).1, known, isPreds, seen.untouched unique table before]
  · intro other member level
    rw [listed, find_insert_new noTotal]
    rcases List.mem_append.mp member with old | new
    · rw [if_neg fun (same : other = procId) => fresh (same ▸ old)]
      exact seen.total other old level
    · obtain rfl := List.mem_singleton.mp new
      rw [if_pos rfl, Option.getD_some, (added level).2, known, isPreds, ← seen.untouched unique table before]
      push Not
      rfl
  · intro other absent
    rw [List.mem_append, List.mem_singleton, not_or] at absent
    rw [find_insert_new noDistributed, find_insert_new noTotal, if_neg absent.2, if_neg absent.2]
    exact seen.missing other absent.1

end

private theorem distributeLevels_seen {stages : List Stage} {needed : IdTable} {sequence : List Int}
    {needs : Int → Int → Prop} (unique : ((liveStages stages).map Stage.stageId).Nodup)
    (table : SuccessorTable (nextTable stages)) (order : TopologicalOrder (nextTable stages) sequence)
    (nodup : sequence.Nodup)
    (known : ∀ procId ∈ sequence, ∀ level, level ∈ listed needed procId ↔ needs level procId) :
    ∃ total, StagesSeen stages needs sequence (distributeLevels (lastTable stages) needed sequence,
      total) := by
  refine ⟨_, foldl_along (StagesSeen stages needs) ?_ ⟨by simp, by simp, fun _ _ => ⟨rfl, rfl⟩⟩⟩
  rintro done procId state ⟨back, split⟩ seen
  rw [List.append_assoc] at split
  have before : ∀ pred ∈ preds (nextTable stages) procId, pred ∈ done :=
    order.behind done procId back split.symm
  have fresh : procId ∉ done := by
    rw [← split] at nodup
    intro member
    exact List.disjoint_of_nodup_append nodup member List.mem_cons_self
  have inside : procId ∈ sequence := by
    rw [← split]
    exact List.mem_append_right _ List.mem_cons_self
  exact seen.visit unique table fresh before (known procId inside)

theorem find_mapValues (table : IdTable) (change : List Int → List Int) (key : Int) :
    OrderedMap.find (table.map fun entry => (entry.1, change entry.2)) key =
      (OrderedMap.find table key).map change :=
  OrderedMap.find_map_value table change key

section

variable {headers : HeaderLookup} {getHeader : String → Option Int} {sort : (Int → Int → Bool) →
  List Int → List Int} {levels : List Level} {program : Program} {distribution : DistributionResult}

/-- A stage is given the levels it needs and can be the first to need along the actions. -/
theorem mem_distributedLevels (loaded : Loaded program) (sorts : ∀ less items, (sort less items).Perm items)
    (distributed : distributeParsers sort getHeader levels program.stages.logicalStages = some distribution)
    (level procId : Int) :
    level ∈ (distribution.distributedLevels.find procId).getD [] ↔
      NeedsAt getHeader levels program.stages.logicalStages level procId ∧
        Untouched (ActionSource program.stages.logicalStages) (ActionStep program.stages.logicalStages)
          (NeedsAt getHeader levels program.stages.logicalStages level) procId := by
  have order := distributeParsers_order loaded distributed
  obtain ⟨levelOrder, levelSorted, distributed⟩ := Option.bind_eq_some_iff.mp distributed
  obtain ⟨table, isTable, distributed⟩ := Option.bind_eq_some_iff.mp distributed
  obtain ⟨needed, isNeeded, distributed⟩ := Option.bind_eq_some_iff.mp distributed
  obtain ⟨sequence, _, distributed⟩ := Option.bind_eq_some_iff.mp distributed
  cases distributed
  obtain ⟨stageOrder, nodup, inOrder⟩ := order
  have levelTable := levelNextTable_successorTable levels
  have levelTopological := topologicalSort_order levelTable levelSorted
  have seen := levelLevel_seen levelTopological
    (levelTopological.perm.nodup_iff.mpr (levelTable.ordered.imp fun below => below.ne)) isTable
  have stageTable := nextTable_successorTable loaded.ordinary
  have known : ∀ procId ∈ sequence, ∀ level, level ∈ listed needed procId ↔
      NeedsAt getHeader levels program.stages.logicalStages level procId := by
    intro procId member level
    obtain ⟨stage, live, rfl⟩ := List.mem_map.mp ((inOrder procId).mp member)
    rw [mem_stageLevels levelTopological seen (procLevel_find loaded.unique isNeeded stage live)]
    constructor
    · exact fun needs => ⟨stage, live, rfl, needs⟩
    · rintro ⟨other, otherLive, same, needs⟩
      exact List.inj_on_of_nodup_map loaded.unique otherLive live same ▸ needs
  obtain ⟨total, stagesSeen⟩ := distributeLevels_seen loaded.unique stageTable stageOrder nodup known
  have sorted : level ∈ (OrderedMap.find
    ((distributeLevels (lastTable program.stages.logicalStages) needed sequence).map
      fun entry => (entry.1, sort (before levelOrder) entry.2)) procId).getD [] ↔
        level ∈ listed (distributeLevels (lastTable program.stages.logicalStages) needed
            sequence) procId := by
    rw [find_mapValues, listed]
    cases OrderedMap.find (distributeLevels (lastTable program.stages.logicalStages) needed
      sequence) procId with
    | none => rfl
    | some items => exact (sorts (before levelOrder) items).mem_iff
  rw [sorted]
  by_cases member : procId ∈ sequence
  · exact stagesSeen.distributed procId member level
  · have none : listed (distributeLevels (lastTable program.stages.logicalStages) needed sequence)
        procId = [] := by
      rw [listed, (stagesSeen.missing procId member).1]
      rfl
    rw [none]
    refine ⟨fun inside => absurd inside List.not_mem_nil, fun both => absurd ?_ member⟩
    obtain ⟨⟨stage, live, rfl, _⟩, _⟩ := both
    exact (inOrder _).mpr (List.mem_map_of_mem live)

end

/-- A switch entry of a stage goes on to another stage. -/
def GatewayStep (program : Program) (first second : Int) : Prop :=
  ∃ stage ∈ liveStages program.stages.logicalStages, stage.stageId = first ∧ 0 ≤ second ∧
    ∃ gateway, program.gateways[stage.gatewayId]? = some gateway ∧ second ∈ gateway.nextTable.stageRefs

def StageStep (program : Program) (first second : Int) : Prop :=
  ActionStep program.stages.logicalStages first second ∨ GatewayStep program first second

/-- Every path from the entry offers a stage all levels it needs, exactly when every stage that can
be the first to need a level can be so along the actions alone. -/
theorem levels_covered_iff (headers : HeaderLookup) (getHeader : String → Option Int)
    (sort : (Int → Int → Bool) → List Int → List Int) (levels : List Level) (ast : Ast) (program : Program)
    (distribution : DistributionResult) (sorts : ∀ less items, (sort less items).Perm items)
    (done : load headers levels ast = some program)
    (distributed : distributeParsers sort getHeader levels program.stages.logicalStages = some distribution)
    (entry : Int) :
    (∀ path : List Int, path.IsChain (StageStep program) → path.head? = some entry →
      ∀ stage ∈ liveStages program.stages.logicalStages, path.getLast? = some stage.stageId →
        ∀ level, Needs getHeader levels stage level →
          ∃ procId ∈ path, level ∈ (distribution.distributedLevels.find procId).getD []) ↔
    ∀ stage ∈ liveStages program.stages.logicalStages, ∀ level, Needs getHeader levels stage level →
      Untouched (· = entry) (StageStep program) (NeedsAt getHeader levels program.stages.logicalStages level)
        stage.stageId →
      Untouched (ActionSource program.stages.logicalStages) (ActionStep program.stages.logicalStages)
        (NeedsAt getHeader levels program.stages.logicalStages level) stage.stageId := by
  have held := fun level procId => mem_distributedLevels (load_loaded done) sorts distributed level procId
  have covered := fun level => @covered_iff Int (StageStep program)
    (NeedsAt getHeader levels program.stages.logicalStages level)
    (fun procId => level ∈ (distribution.distributedLevels.find procId).getD []) entry
    fun procId member => ((held level procId).mp member).1
  constructor
  · intro all stage live level needs untouched
    refine ((held level stage.stageId).mp
      ((covered level).mp ?_ stage.stageId untouched ⟨stage, live, rfl, needs⟩)).2
    intro path steps first last
    have nonempty : path ≠ [] := by
      rintro rfl
      cases first
    obtain ⟨other, otherLive, same, otherNeeds⟩ := last _ (List.getLast?_eq_some_getLast nonempty)
    exact all path steps first other otherLive
      (by rw [List.getLast?_eq_some_getLast nonempty, same]) level otherNeeds
  · intro firsts path steps first stage live last level needs
    refine (covered level).mpr ?_ path steps first ?_
    · rintro procId untouched ⟨other, otherLive, rfl, otherNeeds⟩
      exact (held level _).mpr ⟨⟨other, otherLive, rfl, otherNeeds⟩,
        firsts other otherLive level otherNeeds untouched⟩
    · intro procId isLast
      cases last.symm.trans isLast
      exact ⟨stage, live, rfl, needs⟩

/-- One level with one header, and the level behind it. -/
def headLevels : List Level := [[⟨⟨0, 0, 0⟩, ⟨0, 8, 1, [], 2⟩⟩], []]

/-- Stage `a` goes on to stage `b` or to stage `c`, and stage `c` goes on to `b` with an action.
Both need the header `h`. -/
def detourAst (executor : List ExecutorEntry) : Ast where
  actions := [⟨"go", [], []⟩]
  tables := [⟨"t", [], []⟩]
  ingress := [
    { name := "a", parser := [], executor := []
      matcher := ⟨[.literal 1], [⟨.exact 1, .stage "c"⟩, ⟨.default, .stage "b"⟩]⟩ },
    { name := "c", parser := ["h"], executor,
      matcher := ⟨[.literal 1], [⟨.exact 1, .table "t"⟩, ⟨.default, .none⟩]⟩ },
    { name := "b", parser := ["h"], executor := [], matcher := ⟨[], [⟨.default, .none⟩]⟩ }]
  egress := []

/-- The same without the action. -/
def directProgram : Program := (load (fun _ => none) headLevels (detourAst [])).get (by decide)

def directDistribution : DistributionResult :=
  (distributeParsers (fun _ items => items) (fun _ => some 0) headLevels
    directProgram.stages.logicalStages).get (by decide)

theorem levels_covered_direct :
    distributeParsers (fun _ items => items) (fun _ => some 0) headLevels directProgram.stages.logicalStages =
        some directDistribution ∧
      ∀ path : List Int, path.IsChain (StageStep directProgram) → path.head? = some 0 →
        ∀ stage ∈ liveStages directProgram.stages.logicalStages, path.getLast? = some stage.stageId →
          ∀ level, Needs (fun _ => some 0) headLevels stage level →
            ∃ procId ∈ path, level ∈ (directDistribution.distributedLevels.find procId).getD [] := by
  refine ⟨rfl, (levels_covered_iff (fun _ => none) (fun _ => some 0)
    (fun _ items => items) headLevels (detourAst [])
    directProgram directDistribution (fun _ items => List.Perm.refl items) rfl rfl 0).mpr ?_⟩
  have none : ∀ stage ∈ liveStages directProgram.stages.logicalStages, stage.actionProc = [] := by decide
  intro stage live level needs _
  refine .start ?_
  rintro other ⟨before, beforeLive, _, _, pair, member, _⟩
  rw [none before beforeLive] at member
  cases member

def detourProgram : Program := (load (fun _ => none) headLevels (detourAst [⟨"go", "b"⟩])).get (by decide)

def detourDistribution : DistributionResult :=
  (distributeParsers (fun _ items => items) (fun _ => some 0) headLevels
    detourProgram.stages.logicalStages).get (by decide)

/-- Stage `b` is left to `c`, the one stage with an action to it, and a packet that comes from `a`
misses the level. -/
theorem levels_covered_detour_lost :
    load (fun _ => none) headLevels (detourAst [⟨"go", "b"⟩]) = some detourProgram ∧
      distributeParsers (fun _ items => items) (fun _ => some 0) headLevels
        detourProgram.stages.logicalStages = some detourDistribution ∧
      (∀ first second, LevelStep headLevels first second → first < second) ∧
      (∀ first second, StageStep detourProgram first second → first < second) ∧
      [0, 2].IsChain (StageStep detourProgram) ∧
      ¬ ∀ path : List Int, path.IsChain (StageStep detourProgram) → path.head? = some 0 →
        ∀ stage ∈ liveStages detourProgram.stages.logicalStages, path.getLast? = some stage.stageId →
          ∀ level, Needs (fun _ => some 0) headLevels stage level →
            ∃ procId ∈ path, level ∈ (detourDistribution.distributedLevels.find procId).getD [] := by
  have levelSteps : ∀ (index : Nat) (level : Level), (level, index) ∈ headLevels.zipIdx →
      ∀ entry ∈ transitions level, (index : Int) < entry.nextState := by
    have all : ∀ pair ∈ headLevels.zipIdx, ∀ entry ∈ transitions pair.1, (pair.2 : Int) <
      entry.nextState := by decide
    exact fun index level member => all (level, index) member
  have actionSteps : ∀ stage ∈ liveStages detourProgram.stages.logicalStages, ∀ pair ∈ stage.actionProc,
      stage.stageId < pair.2 ∨ pair.2 < 0 := by decide
  have gatewaySteps : ∀ stage ∈ liveStages detourProgram.stages.logicalStages,
      ∀ gateway ∈ detourProgram.gateways[stage.gatewayId]?, ∀ target ∈ gateway.nextTable.stageRefs,
        stage.stageId < target ∨ target < 0 := by decide
  have direct : [0, 2].IsChain (StageStep detourProgram) := by
    obtain ⟨stage, live, same, gateway, isGateway,
      target⟩ : ∃ stage ∈ liveStages detourProgram.stages.logicalStages,
        stage.stageId = 0 ∧ ∃ gateway ∈ detourProgram.gateways[stage.gatewayId]?, 2 ∈
            gateway.nextTable.stageRefs := by
      decide
    exact List.isChain_pair.mpr (.inr ⟨stage, live, same, by decide, gateway, isGateway, target⟩)
  refine ⟨rfl, rfl, ?_, ?_, direct, ?_⟩
  · rintro first second ⟨index, level, rfl, here, entry, isEntry, rfl⟩
    exact levelSteps index level (mem_zipIdx_level.mpr here) entry isEntry
  · rintro first second (⟨stage, live, rfl, nonneg, pair, member, rfl⟩ | ⟨stage, live, rfl, nonneg,
      gateway, isGateway, member⟩)
    · exact (actionSteps stage live pair member).resolve_right (by omega)
    · exact (gatewaySteps stage live gateway isGateway second member).resolve_right (by omega)
  · intro all
    obtain ⟨stage, live, same, parser⟩ : ∃ stage ∈ liveStages detourProgram.stages.logicalStages,
      stage.stageId = 2 ∧
        stage.definition.parser = ["h"] := by decide
    have needs : Needs (fun _ => some 0) headLevels stage 0 :=
      ⟨"h", by rw [parser]; exact List.mem_singleton_self _, 0, rfl, 0,
        ⟨0, _, rfl, rfl, _, List.mem_singleton_self _, rfl⟩, .refl⟩
    obtain ⟨procId, member, inside⟩ := all [0, 2] direct rfl stage live (by rw [same]; rfl) 0 needs
    have absent : ∀ procId ∈ ([0, 2] : List Int), 0 ∉
        (detourDistribution.distributedLevels.find procId).getD [] := by
      decide
    exact absent procId member inside

end Ipbm.Compiler
