import Ipbm.Compiler.HeaderManager
import Ipbm.Dataplane.Parser
import Ipbm.Lib.Extraction
import Ipbm.Lib.Traversal

/-! The levels of a parser as a transition system, and what `LevelManager::load` puts
into them: one level for each state, behind a level that only enters the first one. -/

set_option autoImplicit false

namespace Ipbm.Compiler
open Lib Dataplane

/-! ### The transition system -/

/-- Keys and masks are 32-bit words, and so is what the fields are compared as. -/
def ParserTcamEntry.matches (entry : ParserTcamEntry) (key : Nat) : Bool :=
  decide (wrap 32 entry.entry &&& wrap 32 entry.mask = key % 2 ^ 32 &&& wrap 32 entry.mask)

/-- A state with the fields that its transitions compare; these come with the entry taken to it. -/
structure LevelPosition where
  state : Int
  fields : List HeaderField

namespace LevelPosition

def start : LevelPosition := ⟨0, []⟩

/-- The fields one behind the other. -/
def key (position : LevelPosition) (view : View Int) : Nat :=
  position.fields.foldl (fun key field =>
    key * 2 ^ field.fieldLength.toNat +
      view.value field.headerId field.fieldInternalOffset.toNat field.fieldLength.toNat) 0

end LevelPosition

/-- The first entry of the state's level that matches decides. -/
def levelMove (levels : List Level) (position : LevelPosition) (view : View Int) :
    Option (Move (Int × Int) LevelPosition) := do
  let level ← if 0 ≤ position.state then levels[position.state.toNat]? else none
  let entry ← level.find? fun entry => decide (entry.parserTcamEntry.currentState = position.state) &&
    entry.parserTcamEntry.matches (position.key view)
  let action := entry.parserSramEntry
  if action.acceptDrop = 2 then
    return .extract (action.headerId, action.headerLength) ⟨action.nextState, action.transitionFields⟩
  else if action.acceptDrop = 0 then
    return .accept
  else
    none

/-- A header is its id and its length. -/
def levelExtractor (levels : List Level) : Extractor (Int × Int) LevelPosition (View Int) where
  move := levelMove levels
  take header view := view.take header.1 header.2.toNat

/-! ### Loading -/

namespace LevelManager

variable {manager : HeaderManager} {states : List StateDef}

/-- The entries of one state. -/
def stateEntries (manager : HeaderManager) (states : List StateDef) (state : StateDef) :
    Option (List LevelEntry) := do
  let id ← stateId states state.name
  (Transition.entries state.transition).mapM (buildEntry manager states id)

/-- States by their names, none of them empty. -/
structure Named (states : List StateDef) : Prop where
  nodup : (states.map StateDef.name).Nodup
  nonempty : "" ∉ states.map StateDef.name

theorem Named.position {index other : Nat} {state state' : StateDef} (named : Named states)
    (here : states[index]? = some state) (there : states[other]? = some state')
    (same : state.name = state'.name) :
    index = other := by
  have low := (List.getElem?_eq_some_iff.mp here).1
  refine (List.getElem?_inj (by simpa using low) named.nodup).mp ?_
  rw [List.getElem?_map, List.getElem?_map, here, there, Option.map_some, Option.map_some, same]

theorem Named.stateId {index : Nat} {state : StateDef} (named : Named states)
    (here : states[index]? = some state) :
    stateId states state.name = some (index + 1) := by
  have notEmpty : state.name ≠ "" := fun empty =>
    named.nonempty (empty ▸ List.mem_map_of_mem (List.mem_of_getElem? here))
  obtain ⟨low, same⟩ := List.getElem?_eq_some_iff.mp here
  have found : states.findIdx? (fun other => other.name = state.name) = some index := by
    refine List.findIdx?_eq_some_iff_getElem.mpr ⟨low, by simp [same], fun other before => ?_⟩
    have apart : states[other].name ≠ state.name := fun equal =>
      before.ne (named.position (List.getElem?_eq_getElem (before.trans low)) here equal)
    simpa using apart
  rw [LevelManager.stateId, if_neg notEmpty, found]
  rfl

theorem Named.getState {state : StateDef} (named : Named states) (listed : state ∈ states) :
    getState states state.name = some state := find?_of_key named.nodup listed

/-- The levels when the entries of the first states are in them. -/
private structure Filled (manager : HeaderManager) (states : List StateDef) (start : LevelEntry)
    (done : List StateDef) (levels : List Level) : Prop where
  zero : levels[0]? = some [start]
  level : ∀ (index : Nat) state, states[index]? = some state →
    levels[index + 1]? = if index < done.length then stateEntries manager states state else some []

private theorem Filled.addState {start : LevelEntry} {done : List StateDef} {state : StateDef}
    {levels : List Level} (named : Named states) (some_ : (stateEntries manager states state).isSome)
    (here : states[done.length]? = some state) (filled : Filled manager states start done levels) :
    ∃ after, addState manager states levels state = some after ∧
      Filled manager states start (done ++ [state]) after := by
  obtain ⟨entries, built⟩ := Option.isSome_iff_exists.mp some_
  have own := built
  rw [stateEntries, named.stateId here, Option.bind_eq_bind, Option.bind_some] at own
  refine ⟨levels.modify (done.length + 1) (· ++ entries), ?_, ?_, fun index other there => ?_⟩
  · rw [LevelManager.addState, named.stateId here, Option.bind_eq_bind, Option.bind_some, own]
    rfl
  · rw [List.getElem?_modify, filled.zero]
    rfl
  · rw [List.getElem?_modify, filled.level index other there, List.length_append, List.length_singleton]
    by_cases isOwn : index = done.length
    · subst isOwn
      obtain rfl : state = other := Option.some.inj (here.symm.trans there)
      simp [built]
    · have apart : done.length ≠ index := Ne.symm isOwn
      by_cases before : index < done.length
      · rw [if_pos before, if_pos (by omega)]
        simp [apart]
      · rw [if_neg before, if_neg (by omega)]
        simp [apart]

/-- Every state's entries stand in its level. -/
theorem load_levels {first : StateDef} {rest : List StateDef} {action : ParserSramEntry}
    (named : Named (first :: rest)) (start : extract manager (first :: rest) first = some action)
    (each : ∀ state ∈ first :: rest, (stateEntries manager (first :: rest) state).isSome) :
    ∃ levels, load manager (first :: rest) = some levels ∧ levels[0]? = some [⟨⟨0, 0, 0⟩, action⟩] ∧
      ∀ (index : Nat) state, (first :: rest)[index]? = some state →
        levels[index + 1]? = stateEntries manager (first :: rest) state := by
  have begins : Filled manager (first :: rest) ⟨⟨0, 0, 0⟩, action⟩ []
      ([⟨⟨0, 0, 0⟩, action⟩] :: List.replicate (first :: rest).length []) := by
    refine ⟨rfl, fun index state here => ?_⟩
    have inside := (List.getElem?_eq_some_iff.mp here).1
    rw [List.getElem?_cons_succ, List.getElem?_replicate_of_lt inside]
    rfl
  have steps (done : List StateDef) (state : StateDef) (levels : List Level)
    (within : done ++ [state] <+: first :: rest)
      (filled : Filled manager (first :: rest) ⟨⟨0, 0, 0⟩, action⟩ done levels) :=
    have here : (first :: rest)[done.length]? = some state := by
      obtain ⟨later, split⟩ := within
      rw [← split]
      simp
    filled.addState named (each state (List.mem_of_getElem? here)) here
  obtain ⟨levels, run, zero, level⟩ := foldlM_runs_along _ steps begins
  refine ⟨levels, ?_, zero, fun index state here => ?_⟩
  · rw [load, start, Option.bind_eq_bind, Option.bind_some]
    exact run
  · rw [level index state here, if_pos (List.getElem?_eq_some_iff.mp here).1]

end LevelManager

end Ipbm.Compiler
