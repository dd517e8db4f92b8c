import Ipbm.Dataplane.TableCalls

/-! The states that the calls on a thread reach, and what clearing does in each of them. -/

set_option autoImplicit false

namespace Ipbm.Dataplane
open Lib

/-- A configuration of blocks that exist. -/
structure MatcherThread.Exists (thread : MatcherThread) : Prop where
  keyRoom : thread.keyWidth * thread.depth ≤ thread.keyConfig.length
  valueRoom : thread.valueWidth * thread.depth ≤ thread.valueConfig.length
  keyExact : thread.matchType = .exact → ∀ entry ∈ thread.keyEntries, entry.toNat < sramNumPerCluster
  keyTernary : thread.matchType ≠ .exact →
    thread.keyWidth * thread.depth ≤ tcamNumPerCluster ∧
      ∀ entry ∈ thread.keyEntries, entry.toNat < tcamNumPerCluster
  value : ∀ entry ∈ thread.valueEntries, entry.toNat < sramNumPerCluster

def Pipeline.MemConfig.Exists (config : Pipeline.MemConfig) : Prop :=
  (∀ entry ∈ config.keyConfig.take (config.keyWidth * config.depth),
    entry.toNat < if config.matchType = .exact then sramNumPerCluster else tcamNumPerCluster) ∧
  ∀ entry ∈ config.valueConfig.take (config.valueWidth * config.depth), entry.toNat < sramNumPerCluster

instance (config : Pipeline.MemConfig) : Decidable config.Exists := inferInstanceAs (Decidable (_ ∧ _))

/-- The blocks of a configuration exist. -/
def TableCall.Exists : TableCall → Prop
  | .setMemConfig config => config.Exists
  | _ => True

instance : (call : TableCall) → Decidable call.Exists
  | .setMemConfig config => inferInstanceAs (Decidable config.Exists)
  | .insertSramEntry _ _ | .insertTcamEntry _ _ _ | .clearOldConfig => isTrue trivial

structure Pipeline.MemConfig.Fits (config : Pipeline.MemConfig) : Prop where
  keyRoom : config.keyWidth * config.depth ≤ if config.matchType = .exact then sramNumPerCluster
    else tcamNumPerCluster
  keyGiven : config.keyWidth * config.depth ≤ config.keyConfig.length
  valueRoom : config.valueWidth * config.depth ≤ sramNumPerCluster
  valueGiven : config.valueWidth * config.depth ≤ config.valueConfig.length

def Pipeline.MemConfig.over (config : Pipeline.MemConfig) (cleared : MatcherThread) : MatcherThread :=
  { cleared with
    noTable := false, matchType := config.matchType, missActId := config.missActId
    keyWidth := config.keyWidth, valueWidth := config.valueWidth, depth := config.depth
    keyConfig := config.keyConfig.take (config.keyWidth * config.depth) ++
      cleared.keyConfig.drop (config.keyWidth * config.depth)
    valueConfig := config.valueConfig.take (config.valueWidth * config.depth) ++
      cleared.valueConfig.drop (config.valueWidth * config.depth) }

/-- The states of a thread. The other threads may write the memory between two of its calls. -/
inductive Reached (procId : Nat) : Memory × MatcherThread → Prop
  | fresh : Reached procId (Memory.fresh, { procId })
  | call {before after : Memory × MatcherThread} {call : TableCall} (reached : Reached procId before)
      (exist : call.Exists) (step : call.apply before = some after) : Reached procId after
  | others {memory : Memory} {thread : MatcherThread} (written : Memory)
      (reached : Reached procId (memory, thread)) : Reached procId (written, thread)

namespace MatcherThread

variable {memory after : Memory} {thread next : MatcherThread}

/-! ### The blocks that clearing reaches -/

theorem configured_eq {select : UInt8 → Option Nat} {address : UInt8 → Nat}
    {config : List UInt8} {count : Nat} (room : count ≤ config.length)
    (exist : ∀ entry ∈ config.take count, select entry = some (address entry)) :
    configured select config count = some ((config.take count).map address) := by
  have each : ∀ index ∈ List.range count, (config[index]? >>= select) =
      some (address (config.getD index 0)) := by
    intro index member
    have inside := List.mem_range.mp member
    have found : config[index]? = some (config.getD index 0) := by simp [Nat.lt_of_lt_of_le inside room]
    have listed : config.getD index 0 ∈ config.take count := by
      rw [← List.getElem?_take_of_lt inside] at found
      exact List.mem_of_getElem? found
    rw [found]
    exact exist _ listed
  rw [configured, mapM_eq_some_map each]
  congr 1
  apply List.ext_getElem
  · simp [room]
  · intro index inside _
    have below : index < count := by simpa using inside
    simp [Nat.lt_of_lt_of_le below room]

theorem tcamBlock_eq {entry : UInt8} (exist : entry.toNat < tcamNumPerCluster) :
    thread.tcamBlock entry = some (thread.tcamAddress entry) := by
  rw [tcamBlock, if_pos exist, tcamAddress]

theorem wipe_zero {blocks : List Nat} {count block address : Nat} {banks : Banks} (inside : address < count)
    (zero : banks block address = 0 ∨ block ∈ blocks) :
    (blocks.foldl (fun banks block => clearBank banks block count) banks) block address = 0 := by
  induction blocks generalizing banks with
  | nil => exact zero.resolve_right List.not_mem_nil
  | cons first rest ih =>
      rw [List.foldl_cons]
      apply ih
      rw [clearBank]
      by_cases here : block = first
      · exact .inl (if_pos ⟨here, inside⟩)
      · rw [if_neg fun cleared => here cleared.1]
        exact zero.imp_right fun member => (List.mem_cons.mp member).resolve_left here

theorem wipe_beyond {blocks : List Nat} {count block address : Nat} {banks : Banks}
    (beyond : count ≤ address) :
    (blocks.foldl (fun banks block => clearBank banks block count) banks) block address =
      banks block address := by
  induction blocks generalizing banks with
  | nil => rfl
  | cons first rest ih =>
      rw [List.foldl_cons, ih, clearBank, if_neg fun cleared => Nat.not_lt.mpr beyond cleared.2]

theorem Exists.sramKeys (exist : thread.Exists) (exact : thread.matchType = .exact) :
    configured thread.sramBlock thread.keyConfig (thread.keyWidth * thread.depth) =
      some (thread.keyEntries.map thread.sramAddress) :=
  configured_eq exist.keyRoom fun entry member => sramBlock_eq (exist.keyExact exact entry member)

theorem Exists.sramValues (exist : thread.Exists) :
    configured thread.sramBlock thread.valueConfig (thread.valueWidth * thread.depth) =
      some (thread.valueEntries.map thread.sramAddress) :=
  configured_eq exist.valueRoom fun entry member => sramBlock_eq (exist.value entry member)

theorem Exists.tcamKeys (exist : thread.Exists) (ternary : thread.matchType ≠ .exact) :
    configured thread.tcamBlock (thread.keyConfig.take tcamNumPerCluster) (thread.keyWidth * thread.depth) =
      some (thread.tcamEntries.map thread.tcamAddress) := by
  obtain ⟨inTcam, keyExist⟩ := exist.keyTernary ternary
  have room : thread.keyWidth * thread.depth ≤ (thread.keyConfig.take tcamNumPerCluster).length := by
    rw [List.length_take]
    exact Nat.le_min.mpr ⟨inTcam, exist.keyRoom⟩
  apply configured_eq room
  intro entry member
  rw [List.take_take, Nat.min_eq_left inTcam] at member
  exact tcamBlock_eq (keyExist entry member)

/-- Clearing an exact table. -/
theorem Exists.clearOldConfig_exact (exist : thread.Exists) (exact : thread.matchType = .exact)
    (memory : Memory) :
    thread.clearOldConfig memory = some
      ({ memory with
          srams := thread.srams.foldl (fun banks block =>
            clearBank banks block (physicalSramCapacity / 8)) memory.srams },
        { thread.reset with
          keyConfig := List.replicate sramNumPerCluster 0
          valueConfig := List.replicate sramNumPerCluster 0 }) := by
  have keys := exist.sramKeys exact
  rw [srams_exact exact, List.map_append, clearOldConfig, exact]
  simp only [keys, exist.sramValues, reset, exact, Option.bind_eq_bind, Option.bind_some, Option.pure_def]

/-- Clearing a ternary table stops in its value blocks at the size of a TCAM block. -/
theorem Exists.clearOldConfig_ternary (exist : thread.Exists) (ternary : thread.matchType ≠ .exact)
    (memory : Memory) :
    thread.clearOldConfig memory = some
      ({ srams := thread.srams.foldl (fun banks block =>
           clearBank banks block (physicalTcamCapacity / 8)) memory.srams
         tcams := thread.tcams.foldl (fun banks block =>
           clearBank banks block (physicalTcamCapacity / 8)) memory.tcams
         masks := thread.tcams.foldl (fun banks block =>
           clearBank banks block (physicalTcamCapacity / 8)) memory.masks },
        { thread.reset with
          keyConfig := List.replicate tcamNumPerCluster 0 ++ thread.keyConfig.drop tcamNumPerCluster
          valueConfig := List.replicate tcamNumPerCluster 0 ++ thread.valueConfig.drop tcamNumPerCluster
          tcamIdx := 0 }) := by
  have keys := exist.tcamKeys ternary
  rw [srams_ternary ternary, tcams_ternary ternary, clearOldConfig]
  cases type : thread.matchType with
  | exact => exact absurd type ternary
  | ternary | lpm =>
      simp only [keys, exist.sramValues, reset, type, Option.bind_eq_bind, Option.bind_some, Option.pure_def]

/-! ### The states of a thread -/

theorem copyConfig_iff {capacity count : Nat} {source target copied : List UInt8} :
    copyConfig capacity count source target = some copied ↔
      (count ≤ capacity ∧ count ≤ source.length) ∧ copied = source.take count ++ target.drop count := by
  unfold copyConfig
  split
  case isTrue fits => simp [fits, eq_comm]
  case isFalse unfit => simp [unfit]

/-- A new configuration is laid over the cleared one if it fits. -/
theorem setMemConfig_iff {config : Pipeline.MemConfig} :
    Pipeline.setMemConfig config memory thread = some (after, next) ↔
      config.Fits ∧ ∃ cleared, thread.clearOldConfig memory = some (after, cleared) ∧
        next = config.over cleared := by
  constructor
  · intro done
    obtain ⟨⟨memory', cleared⟩, clear, done⟩ := Option.bind_eq_some_iff.mp done
    obtain ⟨configured, configures, done⟩ := Option.bind_eq_some_iff.mp done
    obtain ⟨keyConfig, keys, configures⟩ := Option.bind_eq_some_iff.mp configures
    obtain ⟨valueConfig, values, configures⟩ := Option.bind_eq_some_iff.mp configures
    obtain ⟨keyFits, rfl⟩ := copyConfig_iff.mp keys
    obtain ⟨valueFits, rfl⟩ := copyConfig_iff.mp values
    cases done
    cases configures
    exact ⟨⟨keyFits.1, keyFits.2, valueFits.1, valueFits.2⟩, cleared, clear, rfl⟩
  · rintro ⟨fits, cleared, clear, rfl⟩
    have keys : copyConfig _ _ _ cleared.keyConfig = some _ :=
      copyConfig_iff.mpr ⟨⟨fits.keyRoom, fits.keyGiven⟩, rfl⟩
    have values : copyConfig _ _ _ cleared.valueConfig = some _ :=
      copyConfig_iff.mpr ⟨⟨fits.valueRoom, fits.valueGiven⟩, rfl⟩
    refine Option.bind_eq_some_iff.mpr ⟨_, clear, Option.bind_eq_some_iff.mpr
      ⟨{ config.over cleared with missActId := cleared.missActId }, ?_, rfl⟩⟩
    exact Option.bind_eq_some_iff.mpr ⟨_, keys, Option.bind_eq_some_iff.mpr ⟨_, values, rfl⟩⟩

/-- The entries of a configuration that was copied over another one. -/
theorem take_copied {count : Nat} {source target : List UInt8} (fits : count ≤ source.length) :
    (source.take count ++ target.drop count).take count = source.take count := by
  rw [List.take_append_of_le_length (by simp [fits]), List.take_take, Nat.min_self]

theorem over_exists {config : Pipeline.MemConfig} (fits : config.Fits) (exist : config.Exists) :
    (config.over thread).Exists := by
  have keyGiven := fits.keyGiven
  have valueGiven := fits.valueGiven
  have keyRoom := fits.keyRoom
  refine ⟨by simp [Pipeline.MemConfig.over, keyGiven], by simp [Pipeline.MemConfig.over, valueGiven],
    fun exact entry member => ?_, fun ternary => ⟨?_, fun entry member => ?_⟩, fun entry member => ?_⟩
  · have inCluster := exist.1 entry (take_copied keyGiven ▸ member)
    rwa [if_pos (show config.matchType = .exact from exact)] at inCluster
  · rwa [if_neg (show config.matchType ≠ .exact from ternary)] at keyRoom
  · have inCluster := exist.1 entry (take_copied keyGiven ▸ member)
    rwa [if_neg (show config.matchType ≠ .exact from ternary)] at inCluster
  · exact exist.2 entry (take_copied valueGiven ▸ member)

theorem Exists.of_unused {thread : MatcherThread} (key : thread.keyWidth = 0)
    (value : thread.valueWidth = 0) : thread.Exists := by
  have keyCount : thread.keyWidth * thread.depth = 0 := by rw [key, Nat.zero_mul]
  have valueCount : thread.valueWidth * thread.depth = 0 := by rw [value, Nat.zero_mul]
  refine ⟨by omega, by omega, fun _ entry member => ?_, fun _ => ⟨by omega, fun entry member => ?_⟩,
    fun entry member => ?_⟩
  all_goals
    simp only [keyEntries, valueEntries, keyCount, valueCount, List.take_zero] at member
    cases member

/-- A cleared thread has no blocks and its rows start over, unless an exact table counted rows. -/
theorem clearOldConfig_unused (done : thread.clearOldConfig memory = some (after, next)) :
    next.procId = thread.procId ∧ next.keyWidth = 0 ∧ next.valueWidth = 0 ∧
      next.tcamIdx = if thread.matchType = .exact then thread.tcamIdx else 0 := by
  rcases clearOldConfig_some done with ⟨exact, _, _, _, _, _, rfl⟩ | ⟨ternary, _, _, _, _, _, rfl⟩
  · rw [if_pos exact]
    exact ⟨rfl, rfl, rfl, rfl⟩
  · rw [if_neg ternary]
    exact ⟨rfl, rfl, rfl, rfl⟩

end MatcherThread

/-- Threads are only configured with blocks that exist. -/
theorem Reached.exist {procId : Nat} {state : Memory × MatcherThread} (reached : Reached procId state) :
    state.2.Exists ∧ state.2.procId = procId := by
  induction reached with
  | fresh => exact ⟨.of_unused rfl rfl, rfl⟩
  | others _ _ ih => exact ih
  | @call before after call _ exist step ih =>
      cases call with
      | setMemConfig config =>
          obtain ⟨fits, cleared, clear, same⟩ := MatcherThread.setMemConfig_iff.mp step
          rw [same]
          exact ⟨MatcherThread.over_exists fits exist,
            (MatcherThread.clearOldConfig_unused clear).1.trans ih.2⟩
      | insertSramEntry key value =>
          obtain ⟨final, inserted, done⟩ := Option.bind_eq_some_iff.mp step
          cases done
          exact ih
      | insertTcamEntry key mask value =>
          obtain ⟨_, _, _, _, _, _, _, _, _, _, _, same⟩ := MatcherThread.insertTcamEntry_some step
          rw [same]
          exact ⟨⟨ih.1.keyRoom, ih.1.valueRoom, ih.1.keyExact, ih.1.keyTernary, ih.1.value⟩, ih.2⟩
      | clearOldConfig =>
          obtain ⟨same, key, value, _⟩ := MatcherThread.clearOldConfig_unused step
          exact ⟨.of_unused key value, same.trans ih.2⟩

theorem Reached.run {procId : Nat} {before after : Memory × MatcherThread} {calls : List TableCall}
    (reached : Reached procId before) (exist : ∀ call ∈ calls, call.Exists)
    (run : calls.foldlM TableCall.apply before = some after) : Reached procId after := by
  induction calls generalizing before with
  | nil =>
      cases run
      exact reached
  | cons call rest ih =>
      rw [List.foldlM_cons] at run
      obtain ⟨middle, step, run⟩ := Option.bind_eq_some_iff.mp run
      exact ih (.call reached (exist call List.mem_cons_self) step)
        (fun later member => exist later (List.mem_cons_of_mem _ member)) run

/-- A thread without blocks whose rows start over. -/
structure MatcherThread.Unused (thread : MatcherThread) (procId : Nat) : Prop where
  procId : thread.procId = procId
  keyWidth : thread.keyWidth = 0
  valueWidth : thread.valueWidth = 0
  tcamIdx : thread.tcamIdx = 0

theorem MatcherThread.unused_fresh (procId : Nat) : Unused { procId } procId := ⟨rfl, rfl, rfl, rfl⟩

namespace MatcherThread.Unused

variable {thread : MatcherThread} {procId : Nat}

theorem clearOldConfig (unused : thread.Unused procId) (memory : Memory) :
    ∃ cleared, thread.clearOldConfig memory = some (memory, cleared) ∧ cleared.Unused procId := by
  have keyCount : thread.keyWidth * thread.depth = 0 := by rw [unused.keyWidth, Nat.zero_mul]
  have valueCount : thread.valueWidth * thread.depth = 0 := by rw [unused.valueWidth, Nat.zero_mul]
  have exist := Exists.of_unused unused.keyWidth unused.valueWidth
  by_cases exact : thread.matchType = .exact
  · have none : thread.srams =
      [] := by rw [srams_exact exact, keyEntries, valueEntries, keyCount, valueCount]; rfl
    have clear := exist.clearOldConfig_exact exact memory
    rw [none] at clear
    exact ⟨_, clear, unused.procId, rfl, rfl, unused.tcamIdx⟩
  · have noSram : thread.srams = [] := by rw [srams_ternary exact, valueEntries, valueCount]; rfl
    have noTcam : thread.tcams = [] := by rw [tcams_ternary exact, tcamEntries, keyCount]; rfl
    have clear := exist.clearOldConfig_ternary exact memory
    rw [noSram, noTcam] at clear
    exact ⟨_, clear, unused.procId, rfl, rfl, rfl⟩

end MatcherThread.Unused

end Ipbm.Dataplane
