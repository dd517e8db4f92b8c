import Ipbm.Compiler.DistributedLevels

/-! The levels that each level needs: itself, and the levels it is reached from. -/

set_option autoImplicit false

namespace Ipbm.Compiler
open Lib Relation
open Distribution hiding levelLevel

private theorem getD_nodup {own : Option (List Int)} (nodup : ∀ items ∈ own, items.Nodup) :
    (own.getD []).Nodup := by
  cases own with
  | none => exact List.nodup_nil
  | some items => exact nodup items rfl

/-- The pass adds no level to a list that has it. -/
theorem levelLevel_nodup {levels : List Level} {sequence : List Int} {table : IdTable}
    (run : Distribution.levelLevel levels sequence = some table) : ListsNodup table := by
  refine foldlM_preserves ListsNodup ?_ run ⟨ordered_levels levels _, ?_⟩
  · intro before levelId after _ lists step
    obtain ⟨preds, _, step⟩ := Option.bind_eq_some_iff.mp step
    have started : ListsNodup (before.alter levelId fun items => items.getD []) :=
      lists.alter levelId fun _ => getD_nodup
    refine foldlM_preserves ListsNodup ?_ step started
    intro before pred after _ lists step
    obtain ⟨items, _, step⟩ := Option.bind_eq_some_iff.mp step
    cases step
    refine foldl_along (fun _ (table : IdTable) => ListsNodup table) ?_ lists
    intro _ level table _ lists
    exact lists.alter levelId fun own nodup => nodup_pushNew (getD_nodup nodup) level
  · intro key
    change (listed (levels.zipIdx.map fun entry => ((entry.2 : Int), [(entry.2 : Int)])) key).Nodup
    rw [listed]
    cases found : OrderedMap.find (levels.zipIdx.map fun entry =>
      ((entry.2 : Int), [(entry.2 : Int)])) key with
    | none => exact List.nodup_nil
    | some items =>
        obtain ⟨source, _, same⟩ := List.mem_map.mp (OrderedMap.mem_of_find found)
        cases same
        exact List.nodup_singleton _

variable {levels : List Level}

/-- On an acyclic parse graph the loop is reached and returns exactly where no entry goes on to a
missing level. It lists for every level the levels that this one is reached from, each once. -/
theorem levelLevel_exact (acyclic : ∀ levelId, ¬TransGen (LevelStep levels) levelId levelId) :
    ((∃ sequence table, topologicalSort (levelLastTable levels) (levelNextTable levels) = some sequence ∧
        Distribution.levelLevel levels sequence = some table) ↔
      ∀ first second, LevelStep levels first second → ∃ index < levels.length, second = (index : Nat)) ∧
    ∀ sequence table, topologicalSort (levelLastTable levels) (levelNextTable levels) = some sequence →
      Distribution.levelLevel levels sequence = some table → ∀ index < levels.length,
        ∃ items, table.find (index : Int) = some items ∧ items.Nodup ∧
          ∀ item, item ∈ items ↔ ReflTransGen (LevelStep levels) item index := by
  have isTable := levelNextTable_successorTable levels
  constructor
  · rw [← levels_closed_iff]
    constructor
    · intro ⟨sequence, _, sorted, _⟩
      exact (topologicalSort_order isTable sorted).closed
    · intro closed
      have samePreds : (fun first second => first ∈ preds (levelNextTable levels) second) =
          LevelStep levels :=
        funext fun _ => funext fun _ => propext mem_preds_level
      obtain ⟨sequence, sorted⟩ := topologicalSort_some isTable closed (samePreds ▸ acyclic)
      obtain ⟨table, run⟩ := levelLevel_some (topologicalSort_order isTable sorted)
      exact ⟨sequence, table, sorted, run⟩
  · intro sequence table sorted run index low
    have order := topologicalSort_order isTable sorted
    have nodup : sequence.Nodup := order.perm.nodup_iff.mpr (isTable.ordered.imp fun below => below.ne)
    have visited : (index : Int) ∈ sequence := order.perm.mem_iff.mpr (mem_keys_levels.mpr ⟨index, low, rfl⟩)
    have exactly := (levelLevel_seen order nodup run).visited index visited
    cases found : OrderedMap.find table (index : Int) with
    | none =>
        have own := (exactly index).mpr .refl
        rw [listed, found] at own
        cases own
    | some items =>
        have each := (levelLevel_nodup run).nodup index
        rw [listed, found, Option.getD_some] at each exactly
        exact ⟨items, rfl, each, exactly⟩

/-- An entry that extracts a header of no bytes and goes on. -/
def goTo (nextState : Int) : LevelEntry := ⟨⟨0, 0, 0⟩, ⟨0, 0, nextState, [], 2⟩⟩

def diamondLevels : List Level := [[goTo 1, goTo 2], [goTo 3], [goTo 3], []]

theorem levelLevel_exact_diamond :
    ∃ sequence table, topologicalSort (levelLastTable diamondLevels) (levelNextTable diamondLevels) =
      some sequence ∧
      Distribution.levelLevel diamondLevels sequence = some table ∧ ∀ index < diamondLevels.length,
        ∃ items, table.find (index : Int) = some items ∧ items.Nodup ∧
          ∀ item, item ∈ items ↔ ReflTransGen (LevelStep diamondLevels) item index := by
  have forward : ∀ pair ∈ diamondLevels.zipIdx, ∀ entry ∈ transitions pair.1,
      (pair.2 : Int) < entry.nextState ∧ 0 ≤ entry.nextState ∧ entry.nextState < 4 := by decide
  have steps : ∀ first second, LevelStep diamondLevels first second → first < second ∧ 0 ≤ second ∧
      second < 4 := by
    intro first second ⟨index, level, isFirst, here, entry, isEntry, isNext⟩
    rw [isFirst, ← isNext]
    exact forward (level, index) (mem_zipIdx_level.mpr here) entry isEntry
  have exactly :=
    levelLevel_exact (acyclic_of_increasing fun first second step => (steps first second step).1)
  obtain ⟨sequence, table, sorted, run⟩ := exactly.1.mpr fun first second step =>
    ⟨second.toNat, (Int.toNat_lt (steps first second step).2.1).mpr (steps first second step).2.2,
      (Int.toNat_of_nonneg (steps first second step).2.1).symm⟩
  exact ⟨sequence, table, sorted, run, exactly.2 sequence table sorted run⟩

end Ipbm.Compiler
