import Ipbm.Dataplane.TableReuse

/-! Clearing a table. What a thread leaves in its blocks shows in the next table that uses them,
so clearing is compared with a switch that was just started. -/

set_option autoImplicit false

namespace Ipbm.Dataplane
open Lib

/-- The blocks of a table are empty and behave as those of a switch that was just started. -/
structure LeavesNothing (before after : Memory × MatcherThread) : Prop where
  sram : ∀ block ∈ before.2.srams, ∀ address < physicalSramCapacity / 8, after.1.srams block address = 0
  tcam : ∀ block ∈ before.2.tcams, ∀ address < physicalTcamCapacity / 8, after.1.tcams block address = 0
  mask : ∀ block ∈ before.2.tcams, ∀ address < physicalTcamCapacity / 8, after.1.masks block address = 0
  others : SameOutside before.2.srams before.2.tcams before.1 after.1
  reused : ∀ config inserts, config.Within after before.2.srams before.2.tcams →
    (∀ call ∈ inserts, call.Inserts) → ∀ scratch outKey outValue key,
      reuse config inserts scratch outKey outValue key after =
        reuse config inserts scratch outKey outValue key (Memory.fresh, { procId := before.2.procId })

def Clears (state : Memory × MatcherThread) : Prop :=
  ∃ after, state.2.clearOldConfig state.1 = some after ∧ LeavesNothing state after

/-- Clearing leaves nothing once the value blocks are empty and the next table finds its rows like a
first one. -/
theorem MatcherThread.Exists.leavesNothing {before after : Memory × MatcherThread} (exist : before.2.Exists)
    (clear : before.2.clearOldConfig before.1 = some after)
    (sram : ∀ block ∈ before.2.srams, ∀ address < physicalSramCapacity / 8, after.1.srams block address = 0)
    (rows : after.2.tcamIdx = 0 ∨ before.2.matchType = .exact ∧ before.2.srams = []) :
    LeavesNothing before after := by
  have empty : ∀ block ∈ before.2.tcams, ∀ address < physicalTcamCapacity / 8,
      after.1.tcams block address = 0 ∧ after.1.masks block address = 0 := by
    intro block member address inside
    by_cases exact : before.2.matchType = .exact
    · rw [tcams_exact exact] at member
      cases member
    · cases (exist.clearOldConfig_ternary exact before.1).symm.trans clear
      exact ⟨wipe_zero inside (.inr member), wipe_zero inside (.inr member)⟩
  have tcam := fun block member address inside => (empty block member address inside).1
  have mask := fun block member address inside => (empty block member address inside).2
  obtain ⟨procId, keyWidth, valueWidth, _⟩ := clearOldConfig_unused clear
  refine ⟨sram, tcam, mask, clearOldConfig_frame clear,
    fun config inserts within isInsert scratch outKey outValue key => ?_⟩
  rcases rows with unused | ⟨exact, none⟩
  · exact reuse_congr ⟨procId, keyWidth, valueWidth, unused⟩
      (unused_fresh before.2.procId) within sram tcam mask isInsert
      scratch outKey outValue key
  · -- A table over no blocks reads and writes none: its rows do not show, and those of `after`
    -- start over as well.
    rw [none, tcams_exact exact] at within
    have type : after.2.matchType = .exact := by
      cases (exist.clearOldConfig_exact exact before.1).symm.trans clear
      exact exact
    have restarted : config.Within (after.1, { after.2 with tcamIdx := 0 }) [] [] := by
      intro configured done
      rw [setMemConfig_rows type keyWidth valueWidth] at done
      obtain ⟨state, isState, rfl⟩ := Option.map_eq_some_iff.mp done
      exact within state isState
    have unused : ({ after.2 with tcamIdx := 0 } : MatcherThread).Unused before.2.procId :=
      ⟨procId, keyWidth, valueWidth, rfl⟩
    refine (reuse_blockless type keyWidth valueWidth within 0 isInsert scratch outKey outValue
      key).symm.trans ?_
    exact @reuse_congr (after.1, { after.2 with tcamIdx := 0 }) _ _ unused
      (unused_fresh before.2.procId) config [] []
      restarted (fun block member => (List.not_mem_nil member).elim) (fun block member =>
        (List.not_mem_nil member).elim)
      (fun block member => (List.not_mem_nil member).elim) inserts isInsert scratch outKey outValue key

/-- A ternary table of one value block, whose inserts write nothing there but take rows. -/
def rowConfig (entry : UInt8) : Pipeline.MemConfig := ⟨0, 1, 1, [], [entry], .ternary, -1⟩

def rowInserts (count : Nat) : List TableCall := List.replicate count (.insertTcamEntry [] [] [])

/-- A thread with this table. -/
structure RowThread (thread : MatcherThread) (entry : UInt8) : Prop where
  key : thread.keyWidth = 0
  value : thread.valueWidth = 1
  depth : thread.depth = 1
  listed : thread.valueConfig[0]? = some entry
  exist : entry.toNat < sramNumPerCluster

private theorem RowThread.sequences {thread : MatcherThread} {entry : UInt8}
    (table : RowThread thread entry) :
    thread.sliceIdx [] = some 0 ∧ thread.tcamKeySeq 0 = some [] ∧
      thread.sramValueSeq 0 = some [thread.sramAddress entry] := by
  have block : thread.sramBlock entry = some (thread.sramAddress entry) := by
    rw [MatcherThread.sramBlock, if_pos table.exist, MatcherThread.sramAddress]
  refine ⟨?_, ?_, ?_⟩
  · simp [MatcherThread.sliceIdx, table.depth, Nat.mod_one]
  · simp [MatcherThread.tcamKeySeq, MatcherThread.blockSeq, table.key]
  · simp [MatcherThread.sramValueSeq, MatcherThread.blockSeq, table.value, table.depth, table.listed, block]

private theorem insertRow_eq (memory : Memory) {thread : MatcherThread} {entry : UInt8}
    (table : RowThread thread entry) : (TableCall.insertTcamEntry [] [] []).apply (memory, thread) =
      if thread.tcamIdx < 2 ^ sramDepth then some (memory,
        { thread with tcamIdx := thread.tcamIdx + 1 }) else none := by
  obtain ⟨slice, keys, values⟩ := table.sequences
  have nothing : writeBytes memory.srams (thread.sramAddress entry)
      (thread.tcamIdx * (sramWidth / 8)) [] = memory.srams := by
    funext bank address
    exact if_neg fun written => Nat.not_lt.mpr written.2.1 written.2.2
  rw [TableCall.apply, MatcherThread.insertTcamEntry, slice, Option.bind_eq_bind, Option.bind_some,
    keys, Option.bind_eq_bind, Option.bind_some, values, Option.bind_eq_bind, Option.bind_some]
  by_cases room : thread.tcamIdx < 2 ^ sramDepth
  · simp [room, writeSlices, nothing]
  · simp [room]

private theorem rowInserts_some (memory : Memory) (count : Nat) {thread : MatcherThread} {entry : UInt8}
    (table : RowThread thread entry) (room : thread.tcamIdx + count ≤ 2 ^ sramDepth) :
    (rowInserts count).foldlM TableCall.apply (memory, thread) =
      some (memory, { thread with tcamIdx := thread.tcamIdx + count }) := by
  induction count generalizing thread with
  | zero => rfl
  | succ count ih =>
      rw [rowInserts, List.replicate_succ, List.foldlM_cons, insertRow_eq memory table, if_pos (by omega)]
      change (rowInserts count).foldlM TableCall.apply _ = _
      rw [@ih { thread with tcamIdx := thread.tcamIdx + 1 }
        ⟨table.key, table.value, table.depth, table.listed, table.exist⟩ (by simp only; omega)]
      simp only [Nat.add_assoc, Nat.add_comm 1]

private theorem rowInserts_none (memory : Memory) (count : Nat) {thread : MatcherThread} {entry : UInt8}
    (table : RowThread thread entry) (some : 0 < count) (full : 2 ^ sramDepth < thread.tcamIdx + count) :
    (rowInserts count).foldlM TableCall.apply (memory, thread) = none := by
  induction count generalizing thread with
  | zero => omega
  | succ count ih =>
      rw [rowInserts, List.replicate_succ, List.foldlM_cons, insertRow_eq memory table]
      split
      case isFalse => rfl
      case isTrue room =>
        change (rowInserts count).foldlM TableCall.apply _ = _
        exact ih ⟨table.key, table.value, table.depth, table.listed, table.exist⟩ (by omega)
          (by simp only; omega)

theorem findRow_isSome {rowMatches : Nat → Option Bool} {rows : List Nat}
    (each : ∀ row ∈ rows, (rowMatches row).isSome) :
    (MatcherThread.findRow rowMatches rows).isSome := by
  induction rows with
  | nil => rfl
  | cons row rest ih =>
      obtain ⟨here, isHere⟩ := Option.isSome_iff_exists.mp (each row List.mem_cons_self)
      rw [MatcherThread.findRow, isHere]
      cases here with
      | true => rfl
      | false => exact ih fun other member => each other (List.mem_cons_of_mem _ member)

private theorem row_lookup (memory : Memory) (scratch : Nat → UInt8) {thread : MatcherThread} {entry : UInt8}
    (ternary : thread.matchType = .ternary) (table : RowThread thread entry) :
    (thread.matchResult memory scratch [] [] []).isSome := by
  obtain ⟨slice, keys, values⟩ := table.sequences
  obtain ⟨row, found⟩ := Option.isSome_iff_exists.mp
    (@findRow_isSome (fun _ => some true) (List.range (2 ^ tcamDepth)) fun _ _ => rfl)
  simp only [MatcherThread.matchResult, ternary, slice, keys, values, Option.bind_eq_bind,
    Option.bind_some, Option.pure_def, MatcherThread.maskedSameKey, found, Option.isSome_some]

private theorem rowConfig_fits (entry : UInt8) : (rowConfig entry).Fits :=
  ⟨Nat.zero_le _, Nat.zero_le _, show 1 ≤ sramNumPerCluster by decide, Nat.le_refl 1⟩

private theorem rowConfig_over {entry : UInt8} (exist : entry.toNat < sramNumPerCluster)
    (cleared : MatcherThread) :
    RowThread ((rowConfig entry).over cleared) entry := ⟨rfl, rfl, rfl, rfl, exist⟩

private theorem rowConfig_within {entry : UInt8} {state : Memory × MatcherThread} {srams : List Nat}
    (listed : state.2.sramAddress entry ∈ srams) (tcams : List Nat) :
    (rowConfig entry).Within state srams tcams := by
  intro configured done
  obtain ⟨_, cleared, clear, same⟩ := MatcherThread.setMemConfig_iff.mp done
  rw [same]
  refine ⟨fun block member => ?_, fun block member => (List.not_mem_nil member).elim⟩
  have only : block = ((rowConfig entry).over cleared).sramAddress entry := List.mem_singleton.mp member
  rw [only, MatcherThread.sramAddress]
  change cleared.procId / _ * _ + _ ∈ srams
  rw [(MatcherThread.clearOldConfig_unused clear).1]
  exact listed

private theorem reuse_rows_fresh {entry : UInt8} (exist : entry.toNat < sramNumPerCluster)
    (procId : Nat) (scratch : Nat → UInt8) :
    (reuse (rowConfig entry) (rowInserts (2 ^ sramDepth)) scratch [] [] [] (Memory.fresh,
      { procId })).isSome := by
  obtain ⟨cleared, clear, idle⟩ := (MatcherThread.unused_fresh procId).clearOldConfig Memory.fresh
  have configured : Pipeline.setMemConfig (rowConfig entry) Memory.fresh { procId } =
      some (Memory.fresh, (rowConfig entry).over cleared) :=
    MatcherThread.setMemConfig_iff.mpr ⟨rowConfig_fits entry, cleared, clear, rfl⟩
  have room : ((rowConfig entry).over cleared).tcamIdx + 2 ^ sramDepth ≤ 2 ^ sramDepth := by
    change cleared.tcamIdx + _ ≤ _
    rw [idle.tcamIdx, Nat.zero_add]
  rw [reuse, configured]
  change ((rowInserts (2 ^ sramDepth)).foldlM TableCall.apply
    (Memory.fresh, (rowConfig entry).over cleared) >>= _).isSome
  rw [rowInserts_some Memory.fresh _ (rowConfig_over exist cleared) room]
  simp only [Option.bind_eq_bind, Option.bind_some]
  have table := rowConfig_over exist cleared
  exact @row_lookup Memory.fresh scratch _ entry rfl ⟨table.key, table.value, table.depth,
    table.listed, table.exist⟩

private theorem reuse_rows_counted {entry : UInt8} (exist : entry.toNat < sramNumPerCluster)
    {state : Memory × MatcherThread} (exact : state.2.matchType = .exact)
    (config : state.2.keyWidth = 0 ∧ state.2.valueWidth = 0)
    (counted : state.2.tcamIdx ≠ 0) (scratch : Nat → UInt8) :
    reuse (rowConfig entry) (rowInserts (2 ^ sramDepth)) scratch [] [] [] state = none := by
  obtain ⟨after, clear, counts⟩ : ∃ after, state.2.clearOldConfig state.1 = some after ∧
      after.2.tcamIdx = state.2.tcamIdx :=
    ⟨_, (MatcherThread.Exists.of_unused config.1 config.2).clearOldConfig_exact exact state.1, rfl⟩
  have configured : Pipeline.setMemConfig (rowConfig entry) state.1 state.2 =
      some (after.1, (rowConfig entry).over after.2) :=
    MatcherThread.setMemConfig_iff.mpr ⟨rowConfig_fits entry, after.2, clear, rfl⟩
  have full : 2 ^ sramDepth < ((rowConfig entry).over after.2).tcamIdx + 2 ^ sramDepth := by
    change _ < after.2.tcamIdx + _
    omega
  rw [reuse, configured, Option.bind_eq_bind, Option.bind_some,
    rowInserts_none _ _ (rowConfig_over exist after.2) (by decide) full]
  rfl

/-- The value blocks of a ternary table hold nothing from the size of a TCAM block on. -/
def HighRowsEmpty (state : Memory × MatcherThread) : Prop :=
  ∀ block ∈ state.2.srams, ∀ address, physicalTcamCapacity / 8 ≤ address →
    address < physicalSramCapacity / 8 → state.1.srams block address = 0

/-- The blocks of an exact table that counted rows are enough for a next table to run out of rows. -/
theorem MatcherThread.Exists.clears_exact {state : Memory × MatcherThread} (exist : state.2.Exists)
    (exact : state.2.matchType = .exact) : Clears state ↔ state.2.tcamIdx = 0 ∨ state.2.srams = [] := by
  have clear := exist.clearOldConfig_exact exact state.1
  constructor
  · intro ⟨after, cleared, nothing⟩
    by_contra counted
    obtain ⟨counted, blocks⟩ := not_or.mp counted
    have type : after.2.matchType = .exact := by
      rw [← Option.some.inj (clear.symm.trans cleared)]
      exact exact
    obtain ⟨procId, keyWidth, valueWidth, counts⟩ := clearOldConfig_unused cleared
    rw [if_pos exact] at counts
    obtain ⟨block, member⟩ := List.exists_mem_of_ne_nil _ blocks
    have listed := member
    rw [srams_exact exact] at listed
    obtain ⟨entry, isEntry, rfl⟩ := List.mem_map.mp listed
    have inCluster : entry.toNat < sramNumPerCluster :=
      (List.mem_append.mp isEntry).elim (exist.keyExact exact entry) (exist.value entry)
    have own : after.2.sramAddress entry ∈ state.2.srams := by
      rw [sramAddress, procId]
      exact member
    have same := nothing.reused (rowConfig entry) (rowInserts (2 ^ sramDepth)) (rowConfig_within own _)
      (fun call member => (List.eq_of_mem_replicate member).symm ▸ trivial) (fun _ => 0) [] [] []
    rw [reuse_rows_counted inCluster type ⟨keyWidth, valueWidth⟩ (counts ▸ counted)] at same
    have some := reuse_rows_fresh inCluster state.2.procId fun _ => 0
    rw [← same] at some
    cases some
  · intro rows
    refine ⟨_, clear, exist.leavesNothing clear (fun block member address inside => ?_)
      (rows.imp_right fun none => ⟨exact, none⟩)⟩
    exact wipe_zero inside (.inr member)

theorem MatcherThread.Exists.clears_ternary {state : Memory × MatcherThread} (exist : state.2.Exists)
    (ternary : state.2.matchType ≠ .exact) : Clears state ↔ HighRowsEmpty state := by
  have clear := exist.clearOldConfig_ternary ternary state.1
  constructor
  · intro ⟨after, cleared, nothing⟩ block member address high inside
    cases clear.symm.trans cleared
    rw [← nothing.sram block member address inside]
    exact (wipe_beyond high).symm
  · intro empty
    refine ⟨_, clear, exist.leavesNothing clear (fun block member address inside => ?_) (.inl rfl)⟩
    by_cases high : physicalTcamCapacity / 8 ≤ address
    · exact (wipe_beyond high).trans (empty block member address high inside)
    · exact wipe_zero (by omega) (.inr member)

/-- An insert of the table's own kind, for a ternary table into a row that clearing reaches. -/
def TableCall.Low (thread : MatcherThread) : TableCall → Prop
  | .setMemConfig _ | .clearOldConfig => True
  | .insertSramEntry _ _ => thread.matchType = .exact
  | .insertTcamEntry _ _
    _ => thread.matchType ≠ .exact ∧ (thread.tcamIdx + 1) * (sramWidth / 8) ≤ physicalTcamCapacity / 8

/-- The states of a thread that has the memory for itself. -/
inductive LowReached (procId : Nat) : Memory × MatcherThread → Prop
  | fresh : LowReached procId (Memory.fresh, { procId })
  | call {before after : Memory × MatcherThread} {call : TableCall} (reached : LowReached procId before)
      (exist : call.Exists) (low : call.Low before.2)
      (step : call.apply before = some after) : LowReached procId after

/-- Only the blocks of an exact table hold anything that clearing a ternary one leaves. -/
structure OnlyExactHigh (state : Memory × MatcherThread) : Prop where
  rows : state.2.matchType = .exact → state.2.tcamIdx = 0
  empty : ∀ block address, physicalTcamCapacity / 8 ≤ address → address < physicalSramCapacity / 8 →
    (state.2.matchType = .exact → block ∉ state.2.srams) → state.1.srams block address = 0

theorem OnlyExactHigh.cleared {before after : Memory × MatcherThread} (only : OnlyExactHigh before)
    (exist : before.2.Exists) (clear : before.2.clearOldConfig before.1 = some after) :
    after.2.tcamIdx = 0 ∧ ∀ block address, physicalTcamCapacity / 8 ≤ address →
      address < physicalSramCapacity / 8 → after.1.srams block address = 0 := by
  by_cases exact : before.2.matchType = .exact
  · cases (exist.clearOldConfig_exact exact before.1).symm.trans clear
    refine ⟨only.rows exact, fun block address high inside => MatcherThread.wipe_zero inside ?_⟩
    by_cases member : block ∈ before.2.srams
    · exact .inr member
    · exact .inl (only.empty block address high inside fun _ => member)
  · cases (exist.clearOldConfig_ternary exact before.1).symm.trans clear
    refine ⟨rfl, fun block address high inside => (MatcherThread.wipe_beyond high).trans ?_⟩
    exact only.empty block address high inside fun type => absurd type exact

theorem LowReached.reached {procId : Nat} {state : Memory × MatcherThread} (low : LowReached procId state) :
    Reached procId state := by
  induction low with
  | fresh => exact .fresh
  | call _ exist _ step ih => exact .call ih exist step

theorem OnlyExactHigh.apply {before after : Memory × MatcherThread} {call : TableCall}
    (only : OnlyExactHigh before) (exist : before.2.Exists) (low : call.Low before.2)
    (step : call.apply before = some after) : OnlyExactHigh after := by
  cases call with
  | clearOldConfig =>
      obtain ⟨rows, empty⟩ := only.cleared exist step
      exact ⟨fun _ => rows, fun block address high inside _ => empty block address high inside⟩
  | setMemConfig config =>
      obtain ⟨_, cleared, clear, same⟩ := MatcherThread.setMemConfig_iff.mp step
      obtain ⟨rows, empty⟩ := only.cleared exist clear
      refine ⟨fun _ => ?_, fun block address high inside _ => empty block address high inside⟩
      rw [same]
      exact rows
  | insertSramEntry key value =>
      obtain ⟨final, inserted, done⟩ := Option.bind_eq_some_iff.mp step
      cases done
      refine ⟨only.rows, fun block address high inside outside => ?_⟩
      have absent := outside low
      rw [MatcherThread.srams_exact low] at absent
      rw [(MatcherThread.insertSramEntry_frame inserted).sram block absent]
      exact only.empty block address high inside outside
  | insertTcamEntry key mask value =>
      obtain ⟨slice, keySeq, valueSeq, _, _, _, _, _, _, _, writesValue, same⟩ :=
        MatcherThread.insertTcamEntry_some step
      have ternary : after.2.matchType ≠ .exact := by
        rw [same]
        exact low.1
      refine ⟨fun exact => absurd exact ternary, fun block address high inside _ => ?_⟩
      have below : before.2.tcamIdx * (sramWidth / 8) + sramWidth / 8 ≤ address := by
        have room := low.2
        rw [Nat.succ_mul] at room
        omega
      rw [writeSlices_frame writesValue (.inr (.inr below))]
      exact only.empty block address high inside fun exact => absurd exact low.1

theorem LowReached.only {procId : Nat} {state : Memory × MatcherThread}
    (low : LowReached procId state) : OnlyExactHigh state := by
  induction low with
  | fresh => exact ⟨fun _ => rfl, fun _ _ _ _ _ => rfl⟩
  | call reached _ low step ih => exact ih.apply reached.reached.exist.1 low step

/-- Runs that fill no more rows than clearing reaches leave nothing. -/
theorem LowReached.clears {procId : Nat} {state : Memory × MatcherThread}
    (low : LowReached procId state) : Clears state := by
  have exist := low.reached.exist.1
  by_cases exact : state.2.matchType = .exact
  · exact (exist.clears_exact exact).mpr (.inl (low.only.rows exact))
  · exact (exist.clears_ternary exact).mpr fun block _ address high inside =>
      low.only.empty block address high inside fun type => absurd type exact

/-- Clearing leaves nothing of an exact table that counted no rows or has no blocks, and nothing of a
ternary one whose values all lie in the part of their blocks that is cleared. -/
theorem clears_iff {procId : Nat} {state : Memory × MatcherThread} (reached : Reached procId state) :
    Clears state ↔
      (state.2.matchType = .exact ∧ (state.2.tcamIdx = 0 ∨ state.2.srams = [])) ∨
        (state.2.matchType ≠ .exact ∧ HighRowsEmpty state) := by
  have exist := reached.exist.1
  by_cases exact : state.2.matchType = .exact
  · simp [exist.clears_exact exact, exact]
  · simp [exist.clears_ternary exact, exact]

/-- An exact table of one entry. -/
def shortCalls : List TableCall := [.setMemConfig ⟨1, 1, 1, [0], [1], .exact, -1⟩, .insertSramEntry [1] [7]]

theorem clears_short : ∃ state, Reached 0 state ∧
      shortCalls.foldlM TableCall.apply (Memory.fresh, { procId := 0 }) = some state ∧
    Clears state := by
  obtain ⟨state, run, checked⟩ := (Option.any_eq_true _ _).mp
    (show ((shortCalls.foldlM TableCall.apply (Memory.fresh, { procId := 0 })).any fun state =>
      decide (state.2.matchType = .exact ∧ state.2.tcamIdx = 0)) = true by decide +kernel)
  have reached := Reached.run .fresh (by decide +kernel) run
  exact ⟨state, reached, run, (clears_iff reached).mpr (.inl ((of_decide_eq_true checked).imp_right .inl))⟩

/-- A ternary table of 513 entries. -/
def longCalls : List TableCall :=
  .setMemConfig ⟨1, 1, 1, [0], [0], .ternary, -1⟩ :: List.replicate 513 (.insertTcamEntry [1] [255] [7])

/-- The value of the last entry survives. -/
theorem not_clears_long : ∃ state, Reached 0 state ∧
      longCalls.foldlM TableCall.apply (Memory.fresh, { procId := 0 }) = some state ∧
    ¬ Clears state := by
  obtain ⟨state, run, checked⟩ := (Option.any_eq_true _ _).mp
    (show ((longCalls.foldlM TableCall.apply (Memory.fresh, { procId := 0 })).any fun state =>
      decide (state.2.matchType ≠ .exact ∧ 0 ∈ state.2.srams ∧ state.1.srams 0 (512 * 16) ≠
        0)) = true by decide +kernel)
  obtain ⟨ternary, member, kept⟩ := of_decide_eq_true checked
  have reached := Reached.run .fresh (by decide +kernel) run
  refine ⟨state, reached, run, fun clears => kept ?_⟩
  exact (reached.exist.1.clears_ternary ternary).mp clears 0 member (512 * 16) (by decide) (by decide)

end Ipbm.Dataplane
