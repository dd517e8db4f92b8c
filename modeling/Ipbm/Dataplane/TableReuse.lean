import Ipbm.Dataplane.ThreadStates
import Ipbm.Lib.Lockstep

/-! Tables over blocks of the same contents. They answer every lookup alike, also after the same
inserts, whatever the memory holds elsewhere and whatever lies behind the configured entries. -/

set_option autoImplicit false

namespace Ipbm.Dataplane
open Lib

/-- Threads with the same table, whatever lies behind the configured entries. -/
structure SameTable (left right : MatcherThread) : Prop where
  procId : left.procId = right.procId
  matchType : left.matchType = right.matchType
  keyWidth : left.keyWidth = right.keyWidth
  valueWidth : left.valueWidth = right.valueWidth
  depth : left.depth = right.depth
  tcamIdx : left.tcamIdx = right.tcamIdx
  keyEntries : left.keyEntries = right.keyEntries
  valueEntries : left.valueEntries = right.valueEntries

namespace SameTable

variable {left right : MatcherThread}

theorem symm (same : SameTable left right) : SameTable right left :=
  ⟨same.procId.symm, same.matchType.symm, same.keyWidth.symm, same.valueWidth.symm, same.depth.symm,
    same.tcamIdx.symm, same.keyEntries.symm, same.valueEntries.symm⟩

private theorem blockSeq_congr {select : UInt8 → Option Nat} {config other : List UInt8}
    {width depth slice : Nat} (same : config.take (width * depth) = other.take (width * depth))
    (inSlice : slice < depth) :
    MatcherThread.blockSeq select config width depth slice =
      MatcherThread.blockSeq select other width depth slice := by
  have entries : ∀ index < width, config[slice + depth * index]? = other[slice + depth * index]? := by
    intro index inside
    have below : slice + depth * index < width * depth := by
      have next := Nat.mul_le_mul_right depth inside
      rw [Nat.succ_mul, Nat.mul_comm index] at next
      omega
    rw [← List.getElem?_take_of_lt below, same, List.getElem?_take_of_lt below]
  unfold MatcherThread.blockSeq
  apply mapM_congr
  intro index member
  rw [entries index (List.mem_range.mp member)]

theorem sramBlock (same : SameTable left right) : left.sramBlock = right.sramBlock := by
  funext entry
  rw [MatcherThread.sramBlock, MatcherThread.sramBlock, same.procId]

theorem tcamBlock (same : SameTable left right) : left.tcamBlock = right.tcamBlock := by
  funext entry
  rw [MatcherThread.tcamBlock, MatcherThread.tcamBlock, same.procId]

theorem sliceIdx (same : SameTable left right) (key : List UInt8) :
    left.sliceIdx key = right.sliceIdx key := by
  rw [MatcherThread.sliceIdx, MatcherThread.sliceIdx, same.depth]

theorem sramKeySeq (same : SameTable left right) {slice : Nat} (inSlice : slice < left.depth) :
    left.sramKeySeq slice = right.sramKeySeq slice := by
  have entries := same.keyEntries
  unfold MatcherThread.keyEntries at entries
  unfold MatcherThread.sramKeySeq
  rw [← same.sramBlock, ← same.keyWidth, ← same.depth] at *
  exact blockSeq_congr entries inSlice

theorem sramValueSeq (same : SameTable left right) {slice : Nat} (inSlice : slice < left.depth) :
    left.sramValueSeq slice = right.sramValueSeq slice := by
  have entries := same.valueEntries
  unfold MatcherThread.valueEntries at entries
  unfold MatcherThread.sramValueSeq
  rw [← same.sramBlock, ← same.valueWidth, ← same.depth] at *
  exact blockSeq_congr entries inSlice

theorem tcamEntries (same : SameTable left right) : left.tcamEntries = right.tcamEntries := by
  have entries := congrArg (List.take tcamNumPerCluster) same.keyEntries
  unfold MatcherThread.keyEntries at entries
  unfold MatcherThread.tcamEntries
  rwa [List.take_take, List.take_take, Nat.min_comm, ← List.take_take, Nat.min_comm,
    ← List.take_take] at entries

theorem tcamKeySeq (same : SameTable left right) {slice : Nat} (inSlice : slice < left.depth) :
    left.tcamKeySeq slice = right.tcamKeySeq slice := by
  have entries := same.tcamEntries
  unfold MatcherThread.tcamEntries at entries
  unfold MatcherThread.tcamKeySeq
  rw [← same.tcamBlock, ← same.keyWidth, ← same.depth] at *
  exact blockSeq_congr entries inSlice

theorem srams (same : SameTable left right) : left.srams = right.srams := by
  have address : left.sramAddress = right.sramAddress := by
    funext entry
    rw [MatcherThread.sramAddress, MatcherThread.sramAddress, same.procId]
  rw [MatcherThread.srams, MatcherThread.srams, same.matchType, same.keyEntries, same.valueEntries, address]

theorem tcams (same : SameTable left right) : left.tcams = right.tcams := by
  have address : left.tcamAddress = right.tcamAddress := by
    funext entry
    rw [MatcherThread.tcamAddress, MatcherThread.tcamAddress, same.procId]
  rw [MatcherThread.tcams, MatcherThread.tcams, same.matchType, same.tcamEntries, address]

theorem matchResult (same : SameTable left right) (memory : Memory) (scratch : Nat → UInt8)
    (outKey outValue key : List UInt8) :
    left.matchResult memory scratch outKey outValue key =
      right.matchResult memory scratch outKey outValue key := by
  unfold MatcherThread.matchResult
  rw [← same.matchType, ← same.sliceIdx key]
  cases left.matchType with
  | exact =>
      refine Option.bind_congr fun slice isSlice => ?_
      have inSlice := MatcherThread.sliceIdx_lt isSlice
      rw [same.sramKeySeq inSlice, same.sramValueSeq inSlice]
  | ternary | lpm =>
      refine Option.bind_congr fun slice isSlice => ?_
      have inSlice := MatcherThread.sliceIdx_lt isSlice
      rw [same.tcamKeySeq inSlice, same.sramValueSeq inSlice]

theorem getMatchRes (same : SameTable left right) (memory : Memory) (scratch : Nat → UInt8)
    (key : List UInt8) :
    left.getMatchRes memory scratch key = right.getMatchRes memory scratch key := by
  unfold MatcherThread.getMatchRes
  rw [← same.matchType, ← same.sliceIdx key]
  cases left.matchType with
  | exact =>
      refine Option.bind_congr fun slice isSlice => ?_
      have inSlice := MatcherThread.sliceIdx_lt isSlice
      rw [same.sramKeySeq inSlice, same.sramValueSeq inSlice]
  | ternary | lpm =>
      refine Option.bind_congr fun slice isSlice => ?_
      have inSlice := MatcherThread.sliceIdx_lt isSlice
      rw [same.tcamKeySeq inSlice, same.sramValueSeq inSlice]

private theorem configured_congr {select : UInt8 → Option Nat} {config other : List UInt8} {count : Nat}
    (same : config.take count = other.take count) :
    MatcherThread.configured select config count = MatcherThread.configured select other count := by
  unfold MatcherThread.configured
  apply mapM_congr
  intro index member
  have below := List.mem_range.mp member
  rw [← List.getElem?_take_of_lt below, same, List.getElem?_take_of_lt below]

/-- Clearing reaches the configured blocks only. -/
theorem clearOldConfig (same : SameTable left right) {memory after : Memory} {next : MatcherThread}
    (done : right.clearOldConfig memory = some (after, next)) :
    ∃ other, left.clearOldConfig memory = some (after, other) := by
  have keyEntries := same.keyEntries
  have valueEntries := same.valueEntries
  have tcamEntries := same.tcamEntries
  unfold MatcherThread.keyEntries at keyEntries
  unfold MatcherThread.valueEntries at valueEntries
  unfold MatcherThread.tcamEntries at tcamEntries
  rw [← same.keyWidth, ← same.depth] at keyEntries tcamEntries
  rw [← same.valueWidth, ← same.depth] at valueEntries
  rcases MatcherThread.clearOldConfig_some done with
    ⟨exact, keys, values, isKeys, isValues, rfl, _⟩ | ⟨ternary, keys, values, isKeys, isValues, rfl, _⟩
  · rw [← same.sramBlock, ← same.keyWidth, ← same.depth, ← configured_congr keyEntries] at isKeys
    rw [← same.sramBlock, ← same.valueWidth, ← same.depth, ← configured_congr valueEntries] at isValues
    unfold MatcherThread.clearOldConfig
    rw [same.matchType, exact]
    exact ⟨_, Option.bind_eq_some_iff.mpr ⟨keys, isKeys, Option.bind_eq_some_iff.mpr ⟨values, isValues, rfl⟩⟩⟩
  · rw [← same.tcamBlock, ← same.keyWidth, ← same.depth, ← configured_congr tcamEntries] at isKeys
    rw [← same.sramBlock, ← same.valueWidth, ← same.depth, ← configured_congr valueEntries] at isValues
    unfold MatcherThread.clearOldConfig
    rw [same.matchType]
    cases type : right.matchType with
    | exact => exact absurd type ternary
    | ternary | lpm =>
        exact ⟨_, Option.bind_eq_some_iff.mpr
          ⟨keys, isKeys, Option.bind_eq_some_iff.mpr ⟨values, isValues, rfl⟩⟩⟩

end SameTable

/-- States with the same table over blocks of the same contents. -/
structure Alike (left right : Memory × MatcherThread) : Prop where
  table : SameTable left.2 right.2
  sram : ∀ block ∈ left.2.srams, ∀ address < physicalSramCapacity / 8,
    left.1.srams block address = right.1.srams block address
  tcam : ∀ block ∈ left.2.tcams, ∀ address < physicalTcamCapacity / 8,
    left.1.tcams block address = right.1.tcams block address
  mask : ∀ block ∈ left.2.tcams, ∀ address < physicalTcamCapacity / 8,
    left.1.masks block address = right.1.masks block address

namespace Alike

variable {left right : Memory × MatcherThread}

theorem symm (alike : Alike left right) : Alike right left where
  table := alike.table.symm
  sram block member address inside := (alike.sram block (alike.table.srams ▸ member) address inside).symm
  tcam block member address inside := (alike.tcam block (alike.table.tcams ▸ member) address inside).symm
  mask block member address inside := (alike.mask block (alike.table.tcams ▸ member) address inside).symm

theorem matchResult (alike : Alike left right) (scratch : Nat → UInt8) (outKey outValue key : List UInt8) :
    left.2.matchResult left.1 scratch outKey outValue key =
      right.2.matchResult right.1 scratch outKey outValue key :=
  (MatcherThread.matchResult_congr alike.sram alike.tcam alike.mask scratch outKey outValue key).trans
    (alike.table.matchResult right.1 scratch outKey outValue key)

theorem insertSramEntry (alike : Alike left right) {key value : List UInt8} {after : Memory}
    (done : left.2.insertSramEntry left.1 key value = some after) :
    ∃ other, right.2.insertSramEntry right.1 key value = some other ∧
      Alike (after, left.2) (other, right.2) := by
  obtain ⟨slice, keySeq, valueSeq, keyWritten, isSlice, keys, values, writesKey, writesValue, others⟩ :=
    MatcherThread.insertSramEntry_some done
  have inSlice := MatcherThread.sliceIdx_lt isSlice
  obtain ⟨otherKey, otherWritesKey, sameKey⟩ := writeSlices_alike writesKey right.1.srams
  obtain ⟨otherValue, otherWritesValue, sameValue⟩ := writeSlices_alike writesValue otherKey
  refine ⟨{ right.1 with srams := otherValue }, ?_, alike.table,
    fun block member address inside => ?_, ?_, ?_⟩
  · rw [alike.table.sliceIdx] at isSlice
    rw [alike.table.sramKeySeq inSlice] at keys
    rw [alike.table.sramValueSeq inSlice] at values
    simp only [MatcherThread.insertSramEntry, isSlice, keys, values, otherWritesKey,
      otherWritesValue, Option.bind_eq_bind, Option.bind_some, Option.pure_def]
  · exact sameValue _ _ (sameKey _ _ (alike.sram block member address inside))
  · rw [others]
    exact alike.tcam
  · rw [others]
    exact alike.mask

theorem insertTcamEntry (alike : Alike left right) {key mask value : List UInt8}
    {after : Memory × MatcherThread} (done : left.2.insertTcamEntry left.1 key mask value = some after) :
    ∃ other, right.2.insertTcamEntry right.1 key mask value = some other ∧ Alike after other := by
  obtain ⟨memory, thread⟩ := after
  obtain ⟨slice, keySeq, valueSeq, isSlice, keys, values, room, fits, writesKey, writesMask,
      writesValue, rfl⟩ :=
    MatcherThread.insertTcamEntry_some done
  have inSlice := MatcherThread.sliceIdx_lt isSlice
  obtain ⟨otherKey, otherWritesKey, sameKey⟩ := writeSlices_alike writesKey right.1.tcams
  obtain ⟨otherMask, otherWritesMask, sameMask⟩ := writeSlices_alike writesMask right.1.masks
  obtain ⟨otherValue, otherWritesValue, sameValue⟩ := writeSlices_alike writesValue right.1.srams
  refine ⟨(⟨otherValue, otherKey, otherMask⟩, { right.2 with tcamIdx := right.2.tcamIdx + 1 }),
    ?_, ?_, ?_, ?_, ?_⟩
  · rw [alike.table.sliceIdx] at isSlice
    rw [alike.table.tcamKeySeq inSlice] at keys
    rw [alike.table.sramValueSeq inSlice] at values
    rw [alike.table.tcamIdx] at room fits otherWritesKey otherWritesMask otherWritesValue
    simp only [MatcherThread.insertTcamEntry, isSlice, keys, values, room, fits, and_self,
      if_true, otherWritesKey, otherWritesMask, otherWritesValue, Option.bind_eq_bind,
      Option.bind_some, Option.pure_def]
  · have table := alike.table
    exact ⟨table.procId, table.matchType, table.keyWidth, table.valueWidth, table.depth,
      congrArg (· + 1) table.tcamIdx, table.keyEntries, table.valueEntries⟩
  · exact fun block member address inside => sameValue _ _ (alike.sram block member address inside)
  · exact fun block member address inside => sameKey _ _ (alike.tcam block member address inside)
  · exact fun block member address inside => sameMask _ _ (alike.mask block member address inside)

end Alike

/-- An insert of either kind. -/
def TableCall.Inserts : TableCall → Prop
  | .insertSramEntry _ _ | .insertTcamEntry _ _ _ => True
  | .setMemConfig _ | .clearOldConfig => False

/-- An insert does the same to states that are alike. -/
theorem Alike.apply {left right : Memory × MatcherThread} (alike : Alike left right)
    {call : TableCall} (inserts : call.Inserts)
    {after : Memory × MatcherThread} (step : call.apply left = some after) :
    ∃ other, call.apply right = some other ∧ Alike after other := by
  cases call with
  | setMemConfig config => cases inserts
  | clearOldConfig => cases inserts
  | insertTcamEntry key mask value => exact alike.insertTcamEntry step
  | insertSramEntry key value =>
      obtain ⟨memory, inserted, done⟩ := Option.bind_eq_some_iff.mp step
      cases done
      obtain ⟨other, otherInserted, alike⟩ := alike.insertSramEntry inserted
      refine ⟨(other, right.2), ?_, alike⟩
      rw [TableCall.apply, otherInserted]
      rfl

theorem Alike.inserts {calls : List TableCall} (inserts : ∀ call ∈ calls, call.Inserts)
    {left right after : Memory × MatcherThread}
    (alike : Alike left right) (run : calls.foldlM TableCall.apply left = some after) :
    ∃ other, calls.foldlM TableCall.apply right = some other ∧ Alike after other := by
  induction calls generalizing left right with
  | nil =>
      cases run
      exact ⟨right, rfl, alike⟩
  | cons call rest ih =>
      rw [List.foldlM_cons] at run
      obtain ⟨middle, step, run⟩ := Option.bind_eq_some_iff.mp run
      obtain ⟨otherMiddle, otherStep, alike⟩ := alike.apply (inserts call List.mem_cons_self) step
      obtain ⟨other, otherRun, alike⟩ :=
        ih (fun later member => inserts later (List.mem_cons_of_mem _ member)) alike run
      refine ⟨other, ?_, alike⟩
      rw [List.foldlM_cons, otherStep]
      exact otherRun

/-- A configuration of a thread, some inserts and a lookup. -/
def reuse (config : Pipeline.MemConfig) (inserts : List TableCall) (scratch : Nat → UInt8)
    (outKey outValue key : List UInt8) (state : Memory × MatcherThread) :
    Option MatcherThread.MatchResult := do
  let state ← Pipeline.setMemConfig config state.1 state.2
  let state ← inserts.foldlM TableCall.apply state
  state.2.matchResult state.1 scratch outKey outValue key

/-- The configuration takes its blocks from some. -/
def Pipeline.MemConfig.Within (config : Pipeline.MemConfig) (state : Memory × MatcherThread)
    (srams tcams : List Nat) : Prop :=
  ∀ configured, Pipeline.setMemConfig config state.1 state.2 = some configured →
    (∀ block ∈ configured.2.srams, block ∈ srams) ∧ ∀ block ∈ configured.2.tcams, block ∈ tcams

namespace MatcherThread.Unused

variable {thread : MatcherThread} {procId : Nat}

/-- Unused threads are configured alike, each over its own memory. -/
theorem setMemConfig {other : MatcherThread} (unused : thread.Unused procId)
    (otherUnused : other.Unused procId) {config : Pipeline.MemConfig} {memory after : Memory}
    {next : MatcherThread} (done : Pipeline.setMemConfig config memory thread = some (after, next))
    (otherMemory : Memory) :
    after = memory ∧ ∃ otherNext, Pipeline.setMemConfig config otherMemory other =
      some (otherMemory, otherNext) ∧ SameTable next otherNext := by
  obtain ⟨fits, cleared, clear, rfl⟩ := setMemConfig_iff.mp done
  obtain ⟨_, clears, idle⟩ := unused.clearOldConfig memory
  cases clear.symm.trans clears
  obtain ⟨otherCleared, otherClears, otherIdle⟩ := otherUnused.clearOldConfig otherMemory
  refine ⟨rfl, config.over otherCleared, setMemConfig_iff.mpr ⟨fits, otherCleared, otherClears, rfl⟩, ?_⟩
  exact {
    procId := idle.procId.trans otherIdle.procId.symm
    matchType := rfl
    keyWidth := rfl
    valueWidth := rfl
    depth := rfl
    tcamIdx := idle.tcamIdx.trans otherIdle.tcamIdx.symm
    keyEntries := (take_copied fits.keyGiven).trans (take_copied fits.keyGiven).symm
    valueEntries := (take_copied fits.valueGiven).trans (take_copied fits.valueGiven).symm }

end MatcherThread.Unused

/-- States of unused threads answer alike over blocks of the same contents. -/
theorem reuse_congr {left right : Memory × MatcherThread} {procId : Nat} (leftUnused : left.2.Unused procId)
    (rightUnused : right.2.Unused procId) {config : Pipeline.MemConfig} {srams tcams : List Nat}
    (within : config.Within left srams tcams)
    (sram : ∀ block ∈ srams, ∀ address < physicalSramCapacity / 8,
      left.1.srams block address = right.1.srams block address)
    (tcam : ∀ block ∈ tcams, ∀ address < physicalTcamCapacity / 8,
      left.1.tcams block address = right.1.tcams block address)
    (mask : ∀ block ∈ tcams, ∀ address < physicalTcamCapacity / 8,
      left.1.masks block address = right.1.masks block address)
    {inserts : List TableCall} (isInsert : ∀ call ∈ inserts, call.Inserts) (scratch : Nat → UInt8)
    (outKey outValue key : List UInt8) :
    reuse config inserts scratch outKey outValue key left =
      reuse config inserts scratch outKey outValue key right := by
  unfold reuse
  cases done : Pipeline.setMemConfig config left.1 left.2 with
  | none =>
      cases other : Pipeline.setMemConfig config right.1 right.2 with
      | none => rfl
      | some configured =>
          obtain ⟨_, _, back, _⟩ := rightUnused.setMemConfig leftUnused other left.1
          rw [done] at back
          cases back
  | some configured =>
      obtain ⟨kept, otherNext, other, table⟩ := leftUnused.setMemConfig rightUnused done right.1
      obtain ⟨inSrams, inTcams⟩ := within configured done
      have alike : Alike configured (right.1, otherNext) := by
        refine ⟨table, ?_, ?_, ?_⟩
        · exact fun block member => kept ▸ sram block (inSrams block member)
        · exact fun block member => kept ▸ tcam block (inTcams block member)
        · exact fun block member => kept ▸ mask block (inTcams block member)
      rw [other]
      change (inserts.foldlM TableCall.apply configured).bind _ =
        (inserts.foldlM TableCall.apply (right.1, otherNext)).bind _
      cases run : inserts.foldlM TableCall.apply configured with
      | none =>
          cases otherRun : inserts.foldlM TableCall.apply (right.1, otherNext) with
          | none => rfl
          | some last =>
              obtain ⟨_, back, _⟩ := alike.symm.inserts isInsert otherRun
              rw [run] at back
              cases back
      | some last =>
          obtain ⟨otherLast, otherRun, alike⟩ := alike.inserts isInsert run
          rw [otherRun]
          exact alike.matchResult scratch outKey outValue key

/-! ### Tables without blocks -/

/-- A thread without blocks for the rows of its inserts. -/
def MatcherThread.Blockless (thread : MatcherThread) : Prop :=
  thread.tcamEntries = [] ∧ thread.valueEntries = []

namespace MatcherThread

variable {thread : MatcherThread} {memory : Memory}

/-- Its inserts only count rows. -/
theorem Blockless.insertTcamEntry (blockless : thread.Blockless) (memory : Memory)
    (key mask value : List UInt8) :
    thread.insertTcamEntry memory key mask value = (thread.sliceIdx key).bind fun slice =>
      (thread.tcamKeySeq slice).bind fun _ => (thread.sramValueSeq slice).map fun _ =>
        (memory, { thread with tcamIdx := thread.tcamIdx + 1 }) := by
  unfold MatcherThread.insertTcamEntry
  refine Option.bind_congr fun slice isSlice => Option.bind_congr fun keySeq keys => ?_
  have inSlice := sliceIdx_lt isSlice
  obtain rfl : keySeq = [] := List.eq_nil_iff_forall_not_mem.mpr fun block member => by
    have listed := tcamKeySeq_mem keys inSlice member
    rw [blockless.1] at listed
    exact List.not_mem_nil listed
  cases values : thread.sramValueSeq slice with
  | none => rfl
  | some valueSeq =>
      obtain rfl : valueSeq = [] := List.eq_nil_iff_forall_not_mem.mpr fun block member => by
        have listed := sramValueSeq_mem values inSlice member
        rw [blockless.2] at listed
        exact List.not_mem_nil listed
      rfl

/-- The rows an exact table counted stay where a configuration is laid over it. -/
theorem setMemConfig_rows (exact : thread.matchType = .exact) (key : thread.keyWidth = 0)
    (value : thread.valueWidth = 0) (rows : Nat) (config : Pipeline.MemConfig) (memory : Memory) :
    Pipeline.setMemConfig config memory { thread with tcamIdx := rows } =
      (Pipeline.setMemConfig config memory thread).map fun state => (state.1,
        { state.2 with tcamIdx := rows }) := by
  have clear := (Exists.of_unused key value).clearOldConfig_exact exact memory
  have clearRows :=
    (@Exists.of_unused { thread with tcamIdx := rows } key value).clearOldConfig_exact exact memory
  by_cases fits : config.Fits
  · rw [setMemConfig_iff.mpr ⟨fits, _, clear, rfl⟩, setMemConfig_iff.mpr ⟨fits, _, clearRows, rfl⟩]
    rfl
  · have none (thread : MatcherThread) : Pipeline.setMemConfig config memory thread = none :=
      Option.eq_none_iff_forall_ne_some.mpr fun _ done => fits (setMemConfig_iff.mp done).1
    rw [none, none]
    rfl

end MatcherThread

/-- States of a thread without blocks that differ in the number of rows taken. -/
structure UpToRows (left right : Memory × MatcherThread) : Prop where
  blockless : left.2.Blockless
  memory : right.1 = left.1
  thread : ∃ rows, right.2 = { left.2 with tcamIdx := rows }

theorem UpToRows.apply {left right : Memory × MatcherThread} (same : UpToRows left right) {call : TableCall}
    (inserts : call.Inserts) : Option.Rel UpToRows (call.apply left) (call.apply right) := by
  obtain ⟨memory, thread⟩ := left
  obtain ⟨other, otherThread⟩ := right
  obtain ⟨blockless, sameMemory, rows, sameThread⟩ := same
  obtain rfl : other = memory := sameMemory
  obtain rfl : otherThread = { thread with tcamIdx := rows } := sameThread
  cases call with
  | setMemConfig config => cases inserts
  | clearOldConfig => cases inserts
  | insertSramEntry key value =>
      change Option.Rel UpToRows ((thread.insertSramEntry other key value).bind _)
        ((thread.insertSramEntry other key value).bind _)
      cases thread.insertSramEntry other key value with
      | none => exact .none
      | some after => exact .some ⟨blockless, rfl, rows, rfl⟩
  | insertTcamEntry key mask value =>
      have others : ({ thread with tcamIdx := rows } : MatcherThread).Blockless := blockless
      rw [TableCall.apply, TableCall.apply, blockless.insertTcamEntry, others.insertTcamEntry]
      change Option.Rel UpToRows _ ((thread.sliceIdx key).bind fun slice =>
        (thread.tcamKeySeq slice).bind fun _ =>
        (thread.sramValueSeq slice).map fun _ => (other, { thread with tcamIdx := rows + 1 }))
      cases thread.sliceIdx key with
      | none => exact .none
      | some slice =>
          rw [Option.bind_some, Option.bind_some]
          cases thread.tcamKeySeq slice with
          | none => exact .none
          | some keySeq =>
              rw [Option.bind_some, Option.bind_some]
              cases thread.sramValueSeq slice with
              | none => exact .none
              | some valueSeq => exact .some ⟨blockless, rfl, rows + 1, rfl⟩

/-- Without blocks, the rows an exact table counted show in no lookup of the next table. -/
theorem reuse_blockless {memory : Memory} {thread : MatcherThread} (exact : thread.matchType = .exact)
    (key : thread.keyWidth = 0) (value : thread.valueWidth = 0) {config : Pipeline.MemConfig}
    (within : config.Within (memory, thread) [] []) (rows : Nat) {inserts : List TableCall}
    (isInsert : ∀ call ∈ inserts, call.Inserts) (scratch : Nat → UInt8)
    (outKey outValue lookup : List UInt8) :
    reuse config inserts scratch outKey outValue lookup (memory, { thread with tcamIdx := rows }) =
      reuse config inserts scratch outKey outValue lookup (memory, thread) := by
  unfold reuse
  simp only [MatcherThread.setMemConfig_rows exact key value rows config memory]
  cases done : Pipeline.setMemConfig config memory thread with
  | none => rfl
  | some configured =>
      obtain ⟨noSram, noTcam⟩ := within configured done
      have srams :=
        List.eq_nil_iff_forall_not_mem.mpr fun block member => List.not_mem_nil (noSram block member)
      have tcams :=
        List.eq_nil_iff_forall_not_mem.mpr fun block member => List.not_mem_nil (noTcam block member)
      have blockless : configured.2.Blockless := by
        by_cases type : configured.2.matchType = .exact
        · rw [MatcherThread.srams_exact type, List.map_eq_nil_iff, List.append_eq_nil_iff] at srams
          refine ⟨?_, srams.2⟩
          have none := srams.1
          rw [MatcherThread.keyEntries, List.take_eq_nil_iff] at none
          rw [MatcherThread.tcamEntries, List.take_eq_nil_iff, List.take_eq_nil_iff]
          exact none.elim .inl fun empty => .inr (.inr empty)
        · rw [MatcherThread.srams_ternary type, List.map_eq_nil_iff] at srams
          rw [MatcherThread.tcams_ternary type, List.map_eq_nil_iff] at tcams
          exact ⟨tcams, srams⟩
      have same : UpToRows configured (configured.1, { configured.2 with tcamIdx := rows }) :=
        ⟨blockless, rfl, rows, rfl⟩
      have pairs : List.Forall₂ (fun call other : TableCall => call = other ∧ call.Inserts) inserts inserts :=
        List.forall₂_same.mpr fun call member => ⟨rfl, isInsert call member⟩
      have runs : Option.Rel UpToRows (inserts.foldlM TableCall.apply configured)
          (inserts.foldlM TableCall.apply (configured.1, { configured.2 with tcamIdx := rows })) := by
        refine rel_foldlM pairs ?_ same
        rintro call _ state other ⟨rfl, inserted⟩ related
        exact related.apply inserted
      change (inserts.foldlM TableCall.apply (configured.1, { configured.2 with tcamIdx := rows })).bind _ =
        (inserts.foldlM TableCall.apply configured).bind _
      generalize inserts.foldlM TableCall.apply configured = first at runs ⊢
      generalize inserts.foldlM TableCall.apply
        (configured.1, { configured.2 with tcamIdx := rows }) = second at runs ⊢
      cases runs with
      | none => rfl
      | some related =>
          obtain ⟨_, memory, rows, thread⟩ := related
          rw [Option.bind_some, Option.bind_some, memory, thread]
          rfl

end Ipbm.Dataplane
