import Ipbm.Dataplane.Pipeline
import Ipbm.Dataplane.MatcherProperties
import Ipbm.Lib.Traversal

/-! Calls on one matcher thread, over the memory it shares with the other threads of its
cluster. A call changes the blocks that the thread's configuration selects for it, and no other
block. -/

set_option autoImplicit false

namespace Ipbm.Dataplane
open Lib

/-- The calls that write memory or select it. `setMemConfig` is the one of `Matcher`, which clears
the old configuration first. -/
inductive TableCall where
  | setMemConfig (config : Pipeline.MemConfig)
  | insertSramEntry (key value : List UInt8)
  | insertTcamEntry (key mask value : List UInt8)
  | clearOldConfig

def TableCall.apply (state : Memory × MatcherThread) : TableCall → Option (Memory × MatcherThread)
  | .setMemConfig config => Pipeline.setMemConfig config state.1 state.2
  | .insertSramEntry key value => do
      let memory ← state.2.insertSramEntry state.1 key value
      return (memory, state.2)
  | .insertTcamEntry key mask value => state.2.insertTcamEntry state.1 key mask value
  | .clearOldConfig => state.2.clearOldConfig state.1

namespace MatcherThread

def tcamAddress (thread : MatcherThread) (entry : UInt8) : Nat :=
  thread.procId / procNumPerCluster * tcamIdxBase + entry.toNat

/-- The key entries as numbers of TCAM blocks. -/
def tcamEntries (thread : MatcherThread) : List UInt8 :=
  (thread.keyConfig.take tcamNumPerCluster).take (thread.keyWidth * thread.depth)

/-- The blocks a thread is configured with. -/
def srams (thread : MatcherThread) : List Nat :=
  match thread.matchType with
  | .exact => (thread.keyEntries ++ thread.valueEntries).map thread.sramAddress
  | .ternary | .lpm => thread.valueEntries.map thread.sramAddress

def tcams (thread : MatcherThread) : List Nat :=
  match thread.matchType with
  | .exact => []
  | .ternary | .lpm => thread.tcamEntries.map thread.tcamAddress

end MatcherThread

/-- The blocks that the configuration selects for a call. The key configuration is a union, and an
insert of the other kind than the table's reads it as block numbers of its own memory. -/
def TableCall.srams (thread : MatcherThread) : TableCall → List Nat
  | .setMemConfig _ | .clearOldConfig => thread.srams
  | .insertSramEntry _ _ => (thread.keyEntries ++ thread.valueEntries).map thread.sramAddress
  | .insertTcamEntry _ _ _ => thread.valueEntries.map thread.sramAddress

def TableCall.tcams (thread : MatcherThread) : TableCall → List Nat
  | .setMemConfig _ | .clearOldConfig => thread.tcams
  | .insertSramEntry _ _ => []
  | .insertTcamEntry _ _ _ => thread.tcamEntries.map thread.tcamAddress

/-- Memories that agree outside some blocks. -/
structure SameOutside (srams tcams : List Nat) (before after : Memory) : Prop where
  sram : ∀ block ∉ srams, ∀ address, after.srams block address = before.srams block address
  tcam : ∀ block ∉ tcams, ∀ address, after.tcams block address = before.tcams block address
  mask : ∀ block ∉ tcams, ∀ address, after.masks block address = before.masks block address

namespace MatcherThread

variable {thread : MatcherThread}

theorem sramBlock_some {entry : UInt8} {block : Nat} (found : thread.sramBlock entry = some block) :
    block = thread.sramAddress entry := by
  unfold sramBlock at found
  split at found <;> cases found
  rfl

theorem tcamBlock_some {entry : UInt8} {block : Nat} (found : thread.tcamBlock entry = some block) :
    block = thread.tcamAddress entry := by
  unfold tcamBlock at found
  split at found <;> cases found
  rfl

private theorem getElem?_mem_take {entries : List UInt8} {index count : Nat} {entry : UInt8}
    (inside : index < count) (found : entries[index]? = some entry) : entry ∈ entries.take count := by
  rw [← List.getElem?_take_of_lt inside] at found
  exact List.mem_of_getElem? found

/-- The blocks of a slice are blocks of the configuration. -/
theorem mem_blockSeq {select : UInt8 → Option Nat} {config : List UInt8} {width depth slice : Nat}
    {blocks : List Nat} (done : blockSeq select config width depth slice = some blocks)
    (inSlice : slice < depth) {block : Nat} (member : block ∈ blocks) :
    ∃ entry ∈ config.take (width * depth), select entry = some block := by
  obtain ⟨index, inside, found⟩ := mem_of_mapM_some done member
  obtain ⟨entry, listed, isBlock⟩ := Option.bind_eq_some_iff.mp found
  have below : slice + depth * index < width * depth := by
    have next := Nat.mul_le_mul_right depth (List.mem_range.mp inside)
    rw [Nat.succ_mul, Nat.mul_comm index] at next
    omega
  exact ⟨entry, getElem?_mem_take below listed, isBlock⟩

theorem mem_configured {select : UInt8 → Option Nat} {config : List UInt8} {count : Nat} {blocks : List Nat}
    (done : configured select config count = some blocks) {block : Nat} (member : block ∈ blocks) :
    ∃ entry ∈ config.take count, select entry = some block := by
  obtain ⟨index, inside, found⟩ := mem_of_mapM_some done member
  obtain ⟨entry, listed, isBlock⟩ := Option.bind_eq_some_iff.mp found
  exact ⟨entry, getElem?_mem_take (List.mem_range.mp inside) listed, isBlock⟩

theorem sliceIdx_lt {key : List UInt8} {slice : Nat} (done : thread.sliceIdx key = some slice) :
    slice < thread.depth := by
  unfold sliceIdx at done
  split at done
  · cases done
  · cases done
    exact Nat.mod_lt _ (by omega)

theorem sramKeySeq_mem {slice : Nat} {blocks : List Nat} (done : thread.sramKeySeq slice = some blocks)
    (inSlice : slice < thread.depth) {block : Nat} (member : block ∈ blocks) :
    block ∈ thread.keyEntries.map thread.sramAddress := by
  obtain ⟨entry, listed, found⟩ := mem_blockSeq done inSlice member
  exact List.mem_map.mpr ⟨entry, listed, (sramBlock_some found).symm⟩

theorem sramValueSeq_mem {slice : Nat} {blocks : List Nat} (done : thread.sramValueSeq slice = some blocks)
    (inSlice : slice < thread.depth) {block : Nat} (member : block ∈ blocks) :
    block ∈ thread.valueEntries.map thread.sramAddress := by
  obtain ⟨entry, listed, found⟩ := mem_blockSeq done inSlice member
  exact List.mem_map.mpr ⟨entry, listed, (sramBlock_some found).symm⟩

theorem tcamKeySeq_mem {slice : Nat} {blocks : List Nat} (done : thread.tcamKeySeq slice = some blocks)
    (inSlice : slice < thread.depth) {block : Nat} (member : block ∈ blocks) :
    block ∈ thread.tcamEntries.map thread.tcamAddress := by
  obtain ⟨entry, listed, found⟩ := mem_blockSeq done inSlice member
  exact List.mem_map.mpr ⟨entry, listed, (tcamBlock_some found).symm⟩

/-- Clearing some blocks changes no other one. -/
theorem wipe_frame {blocks : List Nat} {count block : Nat} {banks : Banks} (absent : block ∉ blocks)
    (address : Nat) : (blocks.foldl (fun banks block => clearBank banks block count) banks) block
      address = banks block address := by
  induction blocks generalizing banks with
  | nil => rfl
  | cons first rest ih =>
      obtain ⟨different, absent⟩ := List.ne_and_not_mem_of_not_mem_cons absent
      rw [List.foldl_cons, ih absent, clearBank, if_neg (fun here => different here.1)]

variable {memory after : Memory} {next : MatcherThread}

theorem insertSramEntry_some {key value : List UInt8}
    (done : thread.insertSramEntry memory key value = some after) :
    ∃ slice keySeq valueSeq keyWritten,
      thread.sliceIdx key = some slice ∧ thread.sramKeySeq slice = some keySeq ∧
      thread.sramValueSeq slice = some valueSeq ∧
      writeSlices (sramWidth / 8) (sramRow key) key 0 keySeq memory.srams = some keyWritten ∧
      writeSlices (sramWidth / 8) (sramRow key) value 0 valueSeq keyWritten = some after.srams ∧
      after = { memory with srams := after.srams } := by
  obtain ⟨slice, isSlice, done⟩ := Option.bind_eq_some_iff.mp done
  obtain ⟨keySeq, keys, done⟩ := Option.bind_eq_some_iff.mp done
  obtain ⟨valueSeq, values, done⟩ := Option.bind_eq_some_iff.mp done
  obtain ⟨keyWritten, writesKey, done⟩ := Option.bind_eq_some_iff.mp done
  obtain ⟨valueWritten, writesValue, done⟩ := Option.bind_eq_some_iff.mp done
  cases done
  exact ⟨slice, keySeq, valueSeq, keyWritten, isSlice, keys, values, writesKey, writesValue, rfl⟩

theorem insertTcamEntry_some {key mask value : List UInt8}
    (done : thread.insertTcamEntry memory key mask value = some (after, next)) :
    ∃ slice keySeq valueSeq,
      thread.sliceIdx key = some slice ∧ thread.tcamKeySeq slice = some keySeq ∧
      thread.sramValueSeq slice = some valueSeq ∧
      (keySeq = [] ∨ thread.tcamIdx < 2 ^ tcamDepth ∧ key.length ≤ mask.length) ∧
      (valueSeq = [] ∨ thread.tcamIdx < 2 ^ sramDepth) ∧
      writeSlices (tcamWidth / 8) thread.tcamIdx key 0 keySeq memory.tcams = some after.tcams ∧
      writeSlices (tcamWidth / 8) thread.tcamIdx (mask.take key.length) 0 keySeq memory.masks =
        some after.masks ∧
      writeSlices (sramWidth / 8) thread.tcamIdx value 0 valueSeq memory.srams = some after.srams ∧
      next = { thread with tcamIdx := thread.tcamIdx + 1 } := by
  obtain ⟨slice, isSlice, done⟩ := Option.bind_eq_some_iff.mp done
  obtain ⟨keySeq, keys, done⟩ := Option.bind_eq_some_iff.mp done
  obtain ⟨valueSeq, values, done⟩ := Option.bind_eq_some_iff.mp done
  dsimp only at done
  split at done
  case isFalse => cases done
  case isTrue fits =>
    obtain ⟨tcams, writesKey, done⟩ := Option.bind_eq_some_iff.mp done
    obtain ⟨masks, writesMask, done⟩ := Option.bind_eq_some_iff.mp done
    obtain ⟨srams, writesValue, done⟩ := Option.bind_eq_some_iff.mp done
    cases done
    exact ⟨slice, keySeq, valueSeq, isSlice, keys, values, fits.1, fits.2, writesKey, writesMask,
      writesValue, rfl⟩

theorem insertSramEntry_frame {key value : List UInt8}
    (done : thread.insertSramEntry memory key value = some after) :
    SameOutside ((thread.keyEntries ++ thread.valueEntries).map thread.sramAddress) [] memory after := by
  obtain ⟨slice, keySeq, valueSeq, keyWritten, isSlice, keys, values, writesKey, writesValue, others⟩ :=
    insertSramEntry_some done
  have inSlice := sliceIdx_lt isSlice
  refine ⟨fun block absent address => ?_, fun _ _ _ => by rw [others], fun _ _ _ => by rw [others]⟩
  rw [List.map_append, List.mem_append, not_or] at absent
  rw [writeSlices_frame writesValue (.inl fun member => absent.2 (sramValueSeq_mem values inSlice member)),
    writeSlices_frame writesKey (.inl fun member => absent.1 (sramKeySeq_mem keys inSlice member))]

theorem insertTcamEntry_frame {key mask value : List UInt8}
    (done : thread.insertTcamEntry memory key mask value = some (after, next)) :
    SameOutside (thread.valueEntries.map thread.sramAddress)
      (thread.tcamEntries.map thread.tcamAddress) memory after := by
  obtain ⟨slice, keySeq, valueSeq, isSlice, keys, values, _, _, writesKey, writesMask, writesValue, _⟩ :=
    insertTcamEntry_some done
  have inSlice := sliceIdx_lt isSlice
  refine ⟨fun block absent address => ?_, fun block absent address => ?_, fun block absent address => ?_⟩
  · exact writeSlices_frame writesValue (.inl fun member => absent (sramValueSeq_mem values inSlice member))
  · exact writeSlices_frame writesKey (.inl fun member => absent (tcamKeySeq_mem keys inSlice member))
  · exact writeSlices_frame writesMask (.inl fun member => absent (tcamKeySeq_mem keys inSlice member))

/-- The fields that clearing resets whatever the match type. -/
def reset (thread : MatcherThread) : MatcherThread :=
  { thread with
    noTable := true, fdInfos := [], actionProcMap := fun _ => none, missActId := -1
    keyWidth := 0, valueWidth := 0, depth := 0 }

/-- Clearing, by the kind of the table. -/
theorem clearOldConfig_some (done : thread.clearOldConfig memory = some (after, next)) :
    (thread.matchType = .exact ∧ ∃ keys values,
      configured thread.sramBlock thread.keyConfig (thread.keyWidth * thread.depth) = some keys ∧
      configured thread.sramBlock thread.valueConfig (thread.valueWidth * thread.depth) = some values ∧
      after = { memory with
        srams := (keys ++ values).foldl (fun banks block =>
          clearBank banks block (physicalSramCapacity / 8)) memory.srams } ∧
      next = { thread.reset with
        keyConfig := List.replicate sramNumPerCluster 0
        valueConfig := List.replicate sramNumPerCluster 0 }) ∨
    (thread.matchType ≠ .exact ∧ ∃ keys values,
      configured thread.tcamBlock (thread.keyConfig.take tcamNumPerCluster)
        (thread.keyWidth * thread.depth) = some keys ∧
      configured thread.sramBlock thread.valueConfig (thread.valueWidth * thread.depth) = some values ∧
      after =
        { srams := values.foldl (fun banks block =>
            clearBank banks block (physicalTcamCapacity / 8)) memory.srams
          tcams := keys.foldl (fun banks block =>
            clearBank banks block (physicalTcamCapacity / 8)) memory.tcams
          masks := keys.foldl (fun banks block =>
            clearBank banks block (physicalTcamCapacity / 8)) memory.masks } ∧
      next = { thread.reset with
        keyConfig := List.replicate tcamNumPerCluster 0 ++ thread.keyConfig.drop tcamNumPerCluster
        valueConfig := List.replicate tcamNumPerCluster 0 ++ thread.valueConfig.drop tcamNumPerCluster
        tcamIdx := 0 }) := by
  unfold clearOldConfig at done
  cases type : thread.matchType <;> rw [type] at done
  case exact =>
    obtain ⟨keys, keySeq, done⟩ := Option.bind_eq_some_iff.mp done
    obtain ⟨values, valueSeq, done⟩ := Option.bind_eq_some_iff.mp done
    cases done
    exact .inl ⟨rfl, keys, values, keySeq, valueSeq, rfl, by rw [reset, type]⟩
  all_goals
    obtain ⟨keys, keySeq, done⟩ := Option.bind_eq_some_iff.mp done
    obtain ⟨values, valueSeq, done⟩ := Option.bind_eq_some_iff.mp done
    cases done
    exact .inr ⟨by simp, keys, values, keySeq, valueSeq, rfl, by rw [reset, type]⟩

theorem srams_exact (exact : thread.matchType = .exact) :
    thread.srams = (thread.keyEntries ++ thread.valueEntries).map thread.sramAddress := by
  rw [srams, exact]

theorem tcams_exact (exact : thread.matchType = .exact) : thread.tcams = [] := by
  rw [tcams, exact]

theorem srams_ternary (ternary : thread.matchType ≠ .exact) :
    thread.srams = thread.valueEntries.map thread.sramAddress := by
  unfold srams
  cases type : thread.matchType with
  | exact => exact absurd type ternary
  | ternary => rfl
  | lpm => rfl

theorem tcams_ternary (ternary : thread.matchType ≠ .exact) :
    thread.tcams = thread.tcamEntries.map thread.tcamAddress := by
  unfold tcams
  cases type : thread.matchType with
  | exact => exact absurd type ternary
  | ternary => rfl
  | lpm => rfl

theorem configured_sram_mem {config : List UInt8} {count : Nat} {blocks : List Nat}
    (done : configured thread.sramBlock config count = some blocks) {block : Nat} (member : block ∈ blocks) :
    block ∈ (config.take count).map thread.sramAddress := by
  obtain ⟨entry, listed, found⟩ := mem_configured done member
  exact List.mem_map.mpr ⟨entry, listed, (sramBlock_some found).symm⟩

theorem configured_tcam_mem {config : List UInt8} {count : Nat} {blocks : List Nat}
    (done : configured thread.tcamBlock config count = some blocks) {block : Nat} (member : block ∈ blocks) :
    block ∈ (config.take count).map thread.tcamAddress := by
  obtain ⟨entry, listed, found⟩ := mem_configured done member
  exact List.mem_map.mpr ⟨entry, listed, (tcamBlock_some found).symm⟩

theorem clearOldConfig_frame (done : thread.clearOldConfig memory = some (after, next)) :
    SameOutside thread.srams thread.tcams memory after := by
  rcases clearOldConfig_some done with
    ⟨exact, keys, values, keySeq, valueSeq, rfl, -⟩ | ⟨ternary, keys, values, keySeq, valueSeq, rfl, -⟩
  · rw [srams_exact exact, tcams_exact exact]
    refine ⟨fun block absent address => wipe_frame (fun member => ?_) address, fun _ _ _ => rfl,
      fun _ _ _ => rfl⟩
    rw [List.map_append, List.mem_append, not_or] at absent
    rcases List.mem_append.mp member with inKeys | inValues
    · exact absent.1 (configured_sram_mem keySeq inKeys)
    · exact absent.2 (configured_sram_mem valueSeq inValues)
  · rw [srams_ternary ternary, tcams_ternary ternary]
    refine ⟨fun block absent address => wipe_frame (fun member => ?_) address,
      fun block absent address => wipe_frame (fun member => ?_) address,
      fun block absent address => wipe_frame (fun member => ?_) address⟩
    · exact absent (configured_sram_mem valueSeq member)
    · exact absent (configured_tcam_mem keySeq member)
    · exact absent (configured_tcam_mem keySeq member)

end MatcherThread

/-- A call changes the blocks it selects only. -/
theorem TableCall.apply_frame {call : TableCall} {memory after : Memory} {thread next : MatcherThread}
    (done : call.apply (memory, thread) = some (after, next)) :
    SameOutside (call.srams thread) (call.tcams thread) memory after := by
  cases call with
  | setMemConfig config =>
      obtain ⟨⟨cleared, reset⟩, clear, done⟩ := Option.bind_eq_some_iff.mp done
      obtain ⟨configured, _, done⟩ := Option.bind_eq_some_iff.mp done
      cases done
      exact MatcherThread.clearOldConfig_frame clear
  | insertSramEntry key value =>
      obtain ⟨final, inserted, done⟩ := Option.bind_eq_some_iff.mp done
      cases done
      exact MatcherThread.insertSramEntry_frame inserted
  | insertTcamEntry key mask value => exact MatcherThread.insertTcamEntry_frame done
  | clearOldConfig => exact MatcherThread.clearOldConfig_frame done

/-! ### What a lookup reads -/

theorem findRow_congr {left right : Nat → Option Bool} {rows : List Nat}
    (same : ∀ row ∈ rows, left row = right row) :
    MatcherThread.findRow left rows = MatcherThread.findRow right rows := by
  induction rows with
  | nil => rfl
  | cons row rest ih =>
      rw [MatcherThread.findRow, MatcherThread.findRow, same row List.mem_cons_self,
        ih fun other member => same other (List.mem_cons_of_mem _ member)]

theorem findRow_mem {rowMatches : Nat → Option Bool} {rows : List Nat} {row : Nat}
    (found : MatcherThread.findRow rowMatches rows = some (some row)) : row ∈ rows := by
  induction rows with
  | nil => cases found
  | cons first rest ih =>
      obtain ⟨here, _, found⟩ := Option.bind_eq_some_iff.mp found
      cases here with
      | true =>
          cases found
          exact List.mem_cons_self
      | false => exact List.mem_cons_of_mem _ (ih found)

private theorem row_congr {unit row capacity : Nat} {blocks config : List Nat} {left right : Banks}
    (same : ∀ block ∈ config, ∀ address < capacity, left block address = right block address)
    (inside : ∀ block ∈ blocks, block ∈ config) (within : (row + 1) * unit ≤ capacity) :
    readSlices unit row blocks left = readSlices unit row blocks right := by
  apply readSlices_congr
  intro block member index below
  apply same block (inside block member)
  rw [Nat.succ_mul] at within
  omega

namespace MatcherThread

section

variable {left right : Memory} {thread : MatcherThread} {slice row : Nat} {blocks : List Nat}

private theorem keyRow_congr (exact : thread.matchType = .exact)
    (srams : ∀ block ∈ thread.srams, ∀ address < physicalSramCapacity / 8,
      left.srams block address = right.srams block address)
    (keys : thread.sramKeySeq slice = some blocks) (inSlice : slice < thread.depth) (low : row < 1024) :
    readSlices (sramWidth / 8) row blocks left.srams = readSlices (sramWidth / 8) row blocks right.srams := by
  have inKeys : ∀ block ∈ blocks, block ∈ thread.srams := by
    intro block member
    rw [srams_exact exact, List.map_append]
    exact List.mem_append_left _ (sramKeySeq_mem keys inSlice member)
  refine row_congr srams inKeys ?_
  simp only [sramWidth, physicalSramCapacity]
  omega

private theorem valueRow_congr
    (srams : ∀ block ∈ thread.srams, ∀ address < physicalSramCapacity / 8,
      left.srams block address = right.srams block address)
    (values : thread.sramValueSeq slice = some blocks) (inSlice : slice < thread.depth) (low : row < 1024) :
    readSlices (sramWidth / 8) row blocks left.srams = readSlices (sramWidth / 8) row blocks right.srams := by
  have inValues : ∀ block ∈ blocks, block ∈ thread.srams := by
    intro block member
    have listed := sramValueSeq_mem values inSlice member
    by_cases exact : thread.matchType = .exact
    · rw [srams_exact exact, List.map_append]
      exact List.mem_append_right _ listed
    · rwa [srams_ternary exact]
  refine row_congr srams inValues ?_
  simp only [sramWidth, physicalSramCapacity]
  omega

private theorem tcamRow_congr {banks other : Banks} (ternary : thread.matchType ≠ .exact)
    (same : ∀ block ∈ thread.tcams, ∀ address < physicalTcamCapacity / 8,
      banks block address = other block address)
    (keys : thread.tcamKeySeq slice = some blocks) (inSlice : slice < thread.depth) (low : row < 1024) :
    readSlices (tcamWidth / 8) row blocks banks = readSlices (tcamWidth / 8) row blocks other := by
  have inKeys : ∀ block ∈ blocks, block ∈ thread.tcams := by
    intro block member
    rw [tcams_ternary ternary]
    exact tcamKeySeq_mem keys inSlice member
  refine row_congr same inKeys ?_
  simp only [tcamWidth, physicalTcamCapacity]
  omega

private theorem searched_congr (ternary : thread.matchType ≠ .exact)
    (masks : ∀ block ∈ thread.tcams, ∀ address < physicalTcamCapacity / 8,
      left.masks block address = right.masks block address)
    (keys : thread.tcamKeySeq slice = some blocks) (inSlice : slice < thread.depth) (scratch : Nat → UInt8)
    (key : List UInt8) :
    findRow (fun row => maskedSameKey scratch 0 key (readSlices (tcamWidth / 8) row blocks left.masks))
        (List.range (2 ^ tcamDepth)) =
      findRow (fun row => maskedSameKey scratch 0 key (readSlices (tcamWidth / 8) row blocks right.masks))
        (List.range (2 ^ tcamDepth)) :=
  findRow_congr fun _ member =>
    congrArg (maskedSameKey scratch 0 key)
      (tcamRow_congr ternary masks keys inSlice (List.mem_range.mp member))

/-- A lookup reads the blocks its thread is configured with. -/
theorem matchResult_congr
    (srams : ∀ block ∈ thread.srams, ∀ address < physicalSramCapacity / 8,
      left.srams block address = right.srams block address)
    (tcams : ∀ block ∈ thread.tcams, ∀ address < physicalTcamCapacity / 8,
      left.tcams block address = right.tcams block address)
    (masks : ∀ block ∈ thread.tcams, ∀ address < physicalTcamCapacity / 8,
      left.masks block address = right.masks block address)
    (scratch : Nat → UInt8) (outKey outValue key : List UInt8) :
    thread.matchResult left scratch outKey outValue key =
      thread.matchResult right scratch outKey outValue key := by
  unfold matchResult
  cases type : thread.matchType
  case exact =>
    refine Option.bind_congr fun slice isSlice => Option.bind_congr fun keySeq keys =>
      Option.bind_congr fun valueSeq values => ?_
    have inSlice := sliceIdx_lt isSlice
    have low : sramRow key < 1024 := Nat.mod_lt _ (by decide)
    simp only [keyRow_congr type srams keys inSlice low, valueRow_congr srams values inSlice low]
  all_goals
    have ternary : thread.matchType ≠ .exact := by simp [type]
    refine Option.bind_congr fun slice isSlice => Option.bind_congr fun keySeq keys =>
      Option.bind_congr fun valueSeq values => ?_
    have inSlice := sliceIdx_lt isSlice
    rw [searched_congr ternary masks keys inSlice]
    refine Option.bind_congr fun found isFound => ?_
    cases found with
    | none => rfl
    | some row =>
        have low := List.mem_range.mp (findRow_mem isFound)
        simp only [tcamRow_congr ternary tcams keys inSlice low, valueRow_congr srams values inSlice low]

/-- The pipeline's lookup does not read the keys of a TCAM block. -/
theorem getMatchRes_congr
    (srams : ∀ block ∈ thread.srams, ∀ address < physicalSramCapacity / 8,
      left.srams block address = right.srams block address)
    (masks : ∀ block ∈ thread.tcams, ∀ address < physicalTcamCapacity / 8,
      left.masks block address = right.masks block address)
    (scratch : Nat → UInt8) (key : List UInt8) :
    thread.getMatchRes left scratch key = thread.getMatchRes right scratch key := by
  unfold getMatchRes
  cases type : thread.matchType
  case exact =>
    refine Option.bind_congr fun slice isSlice => Option.bind_congr fun keySeq keys =>
      Option.bind_congr fun valueSeq values => ?_
    have inSlice := sliceIdx_lt isSlice
    have low : sramRow key < 1024 := Nat.mod_lt _ (by decide)
    simp only [keyRow_congr type srams keys inSlice low, valueRow_congr srams values inSlice low]
  all_goals
    have ternary : thread.matchType ≠ .exact := by simp [type]
    refine Option.bind_congr fun slice isSlice => Option.bind_congr fun keySeq keys =>
      Option.bind_congr fun valueSeq values => ?_
    have inSlice := sliceIdx_lt isSlice
    rw [searched_congr ternary masks keys inSlice]
    refine Option.bind_congr fun found isFound => ?_
    cases found with
    | none => rfl
    | some row =>
        have low := List.mem_range.mp (findRow_mem isFound)
        simp only [Option.map_some, valueRow_congr srams values inSlice low]

end

end MatcherThread

/-! ### Runs of calls on one thread -/

/-- The blocks that the configuration selects for a call are not those of another thread. -/
def TableCall.Apart (call : TableCall) (thread other : MatcherThread) : Prop :=
  (∀ block ∈ call.srams thread, block ∉ other.srams) ∧ ∀ block ∈ call.tcams thread, block ∉ other.tcams

instance (call : TableCall) (thread other : MatcherThread) : Decidable (call.Apart thread other) :=
  inferInstanceAs (Decidable (_ ∧ _))

/-- Calls that all go through, each with its blocks apart from those of another thread. -/
inductive RunsApart (other : MatcherThread) :
    Memory × MatcherThread → List TableCall → Memory × MatcherThread → Prop
  | done (state : Memory × MatcherThread) : RunsApart other state [] state
  | call {state middle last : Memory × MatcherThread} {call : TableCall} {calls : List TableCall}
      (apart : call.Apart state.2 other) (step : call.apply state = some middle)
      (rest : RunsApart other middle calls last) : RunsApart other state (call :: calls) last

/-- Whether all calls go through apart from another thread. -/
def goesApart (other : MatcherThread) : Memory × MatcherThread → List TableCall → Bool
  | _, [] => true
  | state, call ::
    rest => decide (call.Apart state.2 other) && (call.apply state).any (goesApart other · rest)

theorem runsApart_of_goesApart {other : MatcherThread} {calls : List TableCall}
    {state : Memory × MatcherThread} (goes : goesApart other state calls = true) :
    ∃ last, RunsApart other state calls last := by
  induction calls generalizing state with
  | nil => exact ⟨state, .done state⟩
  | cons call rest ih =>
      rw [goesApart, Bool.and_eq_true, decide_eq_true_eq, Option.any_eq_true] at goes
      obtain ⟨apart, middle, step, goes⟩ := goes
      obtain ⟨last, run⟩ := ih goes
      exact ⟨last, .call apart step run⟩

theorem TableCall.apply_undisturbed {call : TableCall} {other : MatcherThread}
    {before after : Memory × MatcherThread} (apart : call.Apart before.2 other)
    (step : call.apply before = some after) (scratch : Nat → UInt8)
    (outKey outValue key : List UInt8) :
    other.matchResult after.1 scratch outKey outValue key =
      other.matchResult before.1 scratch outKey outValue key := by
  have same : SameOutside (call.srams before.2) (call.tcams before.2) before.1 after.1 := apply_frame step
  apply MatcherThread.matchResult_congr
  · exact fun block member address _ => same.sram block (fun inCall => apart.1 block inCall member) address
  · exact fun block member address _ => same.tcam block (fun inCall => apart.2 block inCall member) address
  · exact fun block member address _ => same.mask block (fun inCall => apart.2 block inCall member) address

/-- Calls on one thread change no lookup of another one. -/
theorem calls_undisturbed {other : MatcherThread} {calls : List TableCall}
    {before after : Memory × MatcherThread} (run : RunsApart other before calls after)
    (scratch : Nat → UInt8) (outKey outValue key : List UInt8) :
    other.matchResult after.1 scratch outKey outValue key =
      other.matchResult before.1 scratch outKey outValue key := by
  induction run with
  | done _ => rfl
  | call apart step _ ih => rw [ih, TableCall.apply_undisturbed apart step]

/-- A table of the key block 2 and the value block 3. -/
def besideThread : MatcherThread where
  procId := 1
  noTable := false
  keyConfig := 2 :: List.replicate (sramNumPerCluster - 1) 0
  valueConfig := 3 :: List.replicate (sramNumPerCluster - 1) 0
  keyWidth := 1
  valueWidth := 1
  depth := 1

/-- A ternary table that uses TCAM block 2 and then becomes an exact one. -/
def reusedCalls : List TableCall :=
  [.setMemConfig ⟨1, 1, 1, [2], [0], .ternary, -1⟩, .insertTcamEntry [1] [255] [7],
    .setMemConfig ⟨1, 1, 1, [0], [1], .exact, -1⟩, .insertSramEntry [1] [7], .clearOldConfig]

def unusedState : Memory × MatcherThread := (Memory.fresh, { procId := 0 })

theorem calls_undisturbed_reused : ∃ after, RunsApart besideThread unusedState reusedCalls after ∧
    ∀ (scratch : Nat → UInt8) (outKey outValue key : List UInt8),
      besideThread.matchResult after.1 scratch outKey outValue key =
        besideThread.matchResult unusedState.1 scratch outKey outValue key := by
  obtain ⟨after, run⟩ := runsApart_of_goesApart
    (show goesApart besideThread unusedState reusedCalls = true by decide)
  exact ⟨after, run, calls_undisturbed run⟩

end Ipbm.Dataplane
