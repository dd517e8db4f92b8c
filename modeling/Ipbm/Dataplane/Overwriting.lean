import Ipbm.Dataplane.GatewayProperties
import Ipbm.Dataplane.ProcessorCalls
import Ipbm.Dataplane.StoredEntries
import Ipbm.Dataplane.TableReuse

/-! A push behind another one. No request of a push clears a parser, and a cleared gateway keeps
its capacity. -/

set_option autoImplicit false

namespace Ipbm.Dataplane
open Lib

/-! ### Parser levels -/

namespace Parser

/-- The entries of one level, as they are written. -/
def levelEntries (level : Nat) (entries : List (Nat × ParserEntry)) : List ParserEntry :=
  (entries.filter fun pair => pair.1 = level).map fun pair => { pair.2 with hdrLen := pair.2.hdrLen % 2 ^ 8 }

theorem enter_isSome {parser : Parser} {entries : List (Nat × ParserEntry)} :
    (∃ after, parser.enter entries = some after) ↔
    ∀ pair ∈ entries, pair.1 < parser.parserLevels.length ∧ pair.2.Fits := by
  induction entries generalizing parser with
  | nil => simp [enter]
  | cons pair rest ih =>
      rw [List.forall_mem_cons]
      constructor
      · rintro ⟨after, run⟩
        rw [enter, List.foldlM_cons] at run
        obtain ⟨middle, first, run⟩ := Option.bind_eq_some_iff.mp run
        have later := ih.mp ⟨after, run⟩
        obtain ⟨stage, found, first⟩ := Option.bind_eq_some_iff.mp first
        obtain ⟨next, modified, first⟩ := Option.bind_eq_some_iff.mp first
        cases first
        have fits := (@ParserStage.modifyTransEntry_isSome stage _).mp ⟨next, modified⟩
        exact ⟨⟨(List.getElem?_eq_some_iff.mp found).1, fits⟩,
          fun other member => by simpa using later other member⟩
      · rintro ⟨⟨inside, fits⟩, later⟩
        obtain ⟨next, modified⟩ := (@ParserStage.modifyTransEntry_isSome parser.parserLevels[pair.1]
          { pair.2 with hdrLen := pair.2.hdrLen % 2 ^ 8 }).mpr fits
        have first : parser.modifyParserEntryDirect pair.1 pair.2 =
            some { parser with parserLevels := parser.parserLevels.set pair.1 next } := by
          rw [modifyParserEntryDirect, List.getElem?_eq_getElem inside, Option.bind_eq_bind,
            Option.bind_some, modified]
          rfl
        obtain ⟨after, run⟩ := (@ih { parser with parserLevels := parser.parserLevels.set pair.1 next }).mpr
          fun other member => by simpa using later other member
        refine ⟨after, ?_⟩
        rw [enter, List.foldlM_cons, first]
        exact run

theorem enter_rest {parser after : Parser} {entries : List (Nat × ParserEntry)}
    (done : parser.enter entries = some after) :
    after.neededParserLevel = parser.neededParserLevel ∧ after.ifWork = parser.ifWork ∧
      after.parserLevels.length = parser.parserLevels.length := by
  refine foldlM_preserves (fun state => state.neededParserLevel = parser.neededParserLevel ∧
    state.ifWork = parser.ifWork ∧
    state.parserLevels.length = parser.parserLevels.length) ?_ done ⟨rfl, rfl, rfl⟩
  intro state pair next _ same step
  obtain ⟨stage, found, step⟩ := Option.bind_eq_some_iff.mp step
  obtain ⟨changed, _, step⟩ := Option.bind_eq_some_iff.mp step
  cases step
  simpa using same

/-- Each level takes its own entries. -/
theorem enter_level {parser after : Parser} {entries : List (Nat × ParserEntry)}
    (done : parser.enter entries = some after)
    {level : Nat} {stage : ParserStage} (found : parser.parserLevels[level]? = some stage) :
    ∃ next, after.parserLevels[level]? = some next ∧
      stage.insertAll (levelEntries level entries) = some next := by
  induction entries generalizing parser stage with
  | nil =>
      cases done
      exact ⟨stage, found, rfl⟩
  | cons pair rest ih =>
      rw [enter, List.foldlM_cons] at done
      obtain ⟨middle, first, done⟩ := Option.bind_eq_some_iff.mp done
      obtain ⟨own, isOwn, first⟩ := Option.bind_eq_some_iff.mp first
      obtain ⟨changed, modified, first⟩ := Option.bind_eq_some_iff.mp first
      cases first
      by_cases here : pair.1 = level
      · subst here
        cases found.symm.trans isOwn
        have inside := (List.getElem?_eq_some_iff.mp found).1
        obtain ⟨next, isNext, inserted⟩ := ih done (List.getElem?_set_self inside)
        refine ⟨next, isNext, ?_⟩
        simp only [levelEntries, decide_true, List.filter_cons_of_pos, List.map_cons,
          ParserStage.insertAll, List.foldlM_cons, modified, Option.bind_eq_bind, Option.bind_some]
        exact inserted
      · obtain ⟨next, isNext, inserted⟩ := ih done ((List.getElem?_set_ne here).trans found)
        refine ⟨next, isNext, ?_⟩
        simpa [levelEntries, here] using inserted

/-- What an earlier push leaves in the levels of the next one, no key takes, or it is overwritten. -/
def Overwritten (parserLevel : Nat) (old new : List (Nat × ParserEntry)) : Prop :=
  ∀ level < parserLevel, ∀ slot left, lastWhere (fun entry : ParserEntry => entry.slot = slot)
    (levelEntries level old) = some left →
    left.tcam.Idle ∨ ∃ entry ∈ levelEntries level new, entry.slot = slot

/-- A level with entries of two pushes has the same entries as the one with those of the second. -/
theorem sameEntries_behind {old new : List ParserEntry} {middle used alone : ParserStage}
    (before : ({} : ParserStage).insertAll old = some middle) (behind : middle.insertAll new = some used)
    (fresh : ({} : ParserStage).insertAll new = some alone)
    (overwritten : ∀ slot left, lastWhere (fun entry : ParserEntry => entry.slot = slot) old = some left →
      left.tcam.Idle ∨ ∃ entry ∈ new, entry.slot = slot) : SameEntries used alone := by
  intro slot _
  have usedSlot := ParserStage.insertAll_slot behind slot
  have newSlot := ParserStage.insertAll_slot fresh slot
  have middleSlot := ParserStage.insertAll_slot before slot
  cases written : lastWhere (fun entry : ParserEntry => entry.slot = slot) new with
  | some entry =>
      rw [written] at usedSlot newSlot
      exact .written entry usedSlot.1 newSlot.1 usedSlot.2 newSlot.2
  | none =>
      rw [written] at usedSlot newSlot
      refine .unused ?_ newSlot.1 (by rw [newSlot.2])
      rw [usedSlot.1]
      cases remains : lastWhere (fun entry : ParserEntry => entry.slot = slot) old with
      | none =>
          rw [remains] at middleSlot
          exact .inl middleSlot.1
      | some left =>
          rw [remains] at middleSlot
          rw [middleSlot.1]
          refine (overwritten slot left remains).resolve_right fun ⟨entry, member, here⟩ => ?_
          obtain ⟨last, found⟩ := @lastWhere_isSome _ (fun entry : ParserEntry =>
            entry.slot = slot) _ _ member (decide_eq_true here)
          cases written.symm.trans found

/-- A push behind another one parses as it does alone, if it overwrites what the other leaves. -/
theorem enter_behind {oldLevel parserLevel : Nat} {old new : List (Nat × ParserEntry)} {middle alone : Parser}
    (before : (Parser.fresh.initParserLevel oldLevel).enter old = some middle)
    (fresh : (Parser.fresh.initParserLevel parserLevel).enter new = some alone) :
    ∃ used, (middle.initParserLevel parserLevel).enter new = some used ∧ (Overwritten parserLevel old new →
      ∀ phv after, alone.parse phv = some after → used.parse phv = some after) := by
  obtain ⟨_, _, middleLength⟩ := enter_rest before
  obtain ⟨aloneNeeded, aloneWorks, aloneLength⟩ := enter_rest fresh
  have allowed := enter_isSome.mp ⟨alone, fresh⟩
  obtain ⟨used, behind⟩ := (@enter_isSome (middle.initParserLevel parserLevel) new).mpr fun pair member =>
    ⟨(allowed pair member).1.trans_eq middleLength.symm, (allowed pair member).2⟩
  obtain ⟨usedNeeded, usedWorks, usedLength⟩ := enter_rest behind
  refine ⟨used, behind, fun overwritten phv after run => ?_⟩
  have four : used.parserLevels.length = alone.parserLevels.length :=
    (usedLength.trans middleLength).trans aloneLength.symm
  have levels : List.Forall₂ SameEntries (used.parserLevels.take parserLevel)
      (alone.parserLevels.take parserLevel) := by
    rw [List.forall₂_iff_get]
    refine ⟨by simp [four], fun level inside newInside => ?_⟩
    rw [List.length_take] at inside newInside
    obtain ⟨few, low⟩ := Nat.lt_min.mp inside
    have start : ∀ count, (Parser.fresh.initParserLevel count).parserLevels[level]? = some {} := by
      intro count
      refine List.getElem?_replicate_of_lt ?_
      have length : Parser.fresh.parserLevels.length = 4 := rfl
      exact (low.trans_eq (usedLength.trans middleLength)).trans_eq length
    obtain ⟨middleStage, isMiddle, first⟩ := enter_level before (start oldLevel)
    obtain ⟨aloneStage, isAlone, second⟩ := enter_level fresh (start parserLevel)
    obtain ⟨usedStage, isUsed, third⟩ :=
      @enter_level (middle.initParserLevel parserLevel) _ _ behind _ _ isMiddle
    have same := sameEntries_behind first third second (overwritten level few)
    rw [List.getElem?_eq_some_iff] at isUsed isAlone
    simpa [isUsed.2, isAlone.2] using same
  have works : used.ifWork = true ∧ alone.ifWork = true := ⟨usedWorks, aloneWorks⟩
  simp only [parse, works.1, works.2, if_true, usedNeeded, aloneNeeded, initParserLevel, four] at run ⊢
  by_cases few : parserLevel ≤ alone.parserLevels.length
  · rw [if_pos few] at run ⊢
    exact parseLevels_same levels run
  · rw [if_neg few] at run ⊢
    rw [List.take_of_length_le (by omega), List.take_of_length_le (by omega)] at levels
    obtain ⟨parsed, parses, ended⟩ := Option.bind_eq_some_iff.mp run
    exact Option.bind_eq_some_iff.mpr ⟨parsed, parseLevels_same levels parses, ended⟩

end Parser

/-! ### Gateway -/

namespace Gateway

variable {exps oldExps : List RelationExp} {default oldDefault : GateEntry} {rows oldRows :
  List (Int × GateEntry)} {phv after : Phv}

private theorem refilled_clear (gateway : Gateway) (valid : gateway.StorageValid) (exps : List RelationExp) :
    (exps.foldl insertExp gateway.clear).StorageValid ∧
      Refilled gateway.capacity (exps.foldl insertExp gateway.clear) ∧
      (exps.foldl insertExp gateway.clear).exps = exps ∧
      (exps.foldl insertExp gateway.clear).resNext = fun _ => none := by
  have cleared : Refilled gateway.capacity gateway.clear :=
    ⟨le_rfl, fun _ => rfl, fun absurdity => absurd absurdity (Nat.not_lt_zero _)⟩
  obtain ⟨filled, refilled⟩ := insertAll_refilled (apply_storage valid .clearRelationExp) cleared exps
  exact ⟨filled, refilled, insertAll_exps _ exps, insertAll_resNext _ exps⟩

private theorem sizes {gateway : Gateway} (valid : gateway.StorageValid) (small : gateway.capacity < 16) :
    gateway.capacity ∈ [0, 1, 2, 4, 8] := by
  obtain empty | ⟨exponent, power⟩ := valid.doubled
  · simp [empty]
  · rw [power] at small ⊢
    exact List.mem_cons_of_mem _ (small_power small)

/-- The vector of a pushed gateway that decides a packet is full. -/
theorem execute_full {history : List GatewayRequest}
    (run : (configured (history ++ push exps default rows)).execute phv = some after) :
    exps.length ∈ [0, 1, 2, 4, 8] ∧
      (exps.foldl insertExp (configured history).clear).capacity = exps.length := by
  obtain ⟨bits, read, _⟩ := Option.bind_eq_some_iff.mp run
  obtain ⟨valid, _, all, _⟩ := refilled_clear (configured history) (configured_storage history) exps
  rw [configured_push] at read
  generalize exps.foldl insertExp (configured history).clear = filled at read valid all ⊢
  obtain ⟨sameExps, sameCapacity, _⟩ := modifyAll_rest (filled.setDefaultEntry default) rows
  generalize rows.foldl _ _ = final at read sameExps sameCapacity
  have few : ¬8 < final.capacity := fun many => by
    rw [bitmap_many phv many] at read
    cases read
  have noSpare : ¬final.exps.length < final.capacity := fun spare => by
    rw [bitmap_overrun phv spare] at read
    cases read
  rw [sameExps, sameCapacity] at noSpare
  rw [sameCapacity] at few
  simp only [setDefaultEntry, all] at noSpare few
  have holdsAll := valid.holdsAll
  rw [all] at holdsAll
  have full : filled.capacity = exps.length := by omega
  exact ⟨full ▸ sizes valid (by omega), full⟩

/-- A push behind one of no more expressions decides every packet as it does alone. -/
theorem execute_behind (fewer : exps.length ∈ [0, 1, 2, 4, 8] → oldExps.length ≤ exps.length)
    (run : (configured (push exps default rows)).execute phv = some after) :
    (configured (push oldExps oldDefault oldRows ++ push exps default rows)).execute phv = some after := by
  obtain ⟨size, full⟩ := @execute_full exps default rows phv after [] run
  have fewer := fewer size
  obtain ⟨oldValid, oldRefilled, oldAll, _⟩ := refilled_clear (configured []) (configured_storage []) oldExps
  obtain ⟨aloneValid, _, aloneAll, aloneRows⟩ := refilled_clear (configured []) (configured_storage []) exps
  have oldCapacity : (configured (push oldExps oldDefault oldRows)).capacity =
      (oldExps.foldl insertExp (configured []).clear).capacity := by
    rw [show push oldExps oldDefault oldRows = [] ++ push oldExps oldDefault oldRows from rfl,
      configured_push]
    exact (modifyAll_rest _ oldRows).2.1
  obtain ⟨valid, refilled, all, noRows⟩ :=
    refilled_clear _ (configured_storage (push oldExps oldDefault oldRows)) exps
  rw [oldCapacity] at refilled
  have room : (oldExps.foldl insertExp (configured []).clear).capacity ≤ exps.length := by
    have kept := oldRefilled.kept
    have tight := oldRefilled.tight
    have none : (configured []).capacity = 0 := rfl
    rw [oldAll, none] at kept tight
    have few : (oldExps.foldl insertExp (configured []).clear).capacity < 16 := by
      simp only [List.mem_cons, List.not_mem_nil, or_false] at size
      omega
    have sizes := sizes oldValid few
    simp only [List.mem_cons, List.not_mem_nil, or_false] at size sizes
    omega
  have usedFull : (exps.foldl insertExp
      (configured (push oldExps oldDefault oldRows)).clear).capacity = exps.length := by
    have grows := refilled.grows
    have kept := refilled.kept
    have tight := refilled.tight
    have holdsAll := valid.holdsAll
    rw [all] at kept tight holdsAll
    have few : (exps.foldl insertExp (configured (push oldExps oldDefault oldRows)).clear).capacity < 16 := by
      simp only [List.mem_cons, List.not_mem_nil, or_false] at size
      omega
    have sizes := sizes valid few
    simp only [List.mem_cons, List.not_mem_nil, or_false] at size sizes
    omega
  have same : ∀ left right : Gateway, left.exps = right.exps → left.capacity = right.capacity →
    left.resNext = right.resNext →
      left.setDefaultEntry default = right.setDefaultEntry default := by
    rintro ⟨⟩ ⟨⟩ rfl rfl rfl
    rfl
  rw [configured_push, same _ _ (all.trans aloneAll.symm) (usedFull.trans full.symm)
    (noRows.trans aloneRows.symm), ← configured_push]
  exact run

end Gateway

/-! ### Tables -/

/-- Threads that look up a packet alike and send it to the same processor. -/
structure SameThread (used alone : MatcherThread) : Prop extends SameTable used alone where
  noTable : used.noTable = alone.noTable
  missActId : used.missActId = alone.missActId
  fdInfos : used.fdInfos = alone.fdInfos
  actionProcMap : used.actionProcMap = alone.actionProcMap

/-- A thread that was configured before, and the same one without that: both are configured again, or
the second is not in use. -/
inductive ThreadFollows (later : Prop) (used alone : MatcherThread) : Prop
  | same (thread : SameThread used alone)
  | unused (noTable : alone.noTable = true) (missActId : alone.missActId < 0)
      (procId : used.procId = alone.procId)
      (tcamIdx : used.tcamIdx = 0 ∧ alone.tcamIdx = 0) (exist : later → used.Exists)

namespace MatcherThread

variable {used alone next : MatcherThread}

theorem Exists.clearOldConfig (exist : used.Exists) (memory : Memory) :
    ∃ after cleared, used.clearOldConfig memory = some (after, cleared) := by
  by_cases exact : used.matchType = .exact
  · exact ⟨_, _, exist.clearOldConfig_exact exact memory⟩
  · exact ⟨_, _, exist.clearOldConfig_ternary exact memory⟩

theorem clearOldConfig_rest {memory after : Memory} (done : used.clearOldConfig memory = some (after, next)) :
    next.fdInfos = [] ∧ next.actionProcMap = fun _ => none := by
  rcases clearOldConfig_some done with ⟨_, _, _, _, _, _, rfl⟩ | ⟨_, _, _, _, _, _, rfl⟩
  · exact ⟨rfl, rfl⟩
  · exact ⟨rfl, rfl⟩

/-- Nothing is left of a thread that is configured again. -/
theorem over_same {config : Pipeline.MemConfig} (fits : config.Fits) (procId : used.procId = alone.procId)
    (tcamIdx : used.tcamIdx = alone.tcamIdx) (fdInfos : used.fdInfos = alone.fdInfos)
    (actionProcMap : used.actionProcMap = alone.actionProcMap) :
    SameThread (config.over used) (config.over alone) where
  procId := procId
  matchType := rfl
  keyWidth := rfl
  valueWidth := rfl
  depth := rfl
  tcamIdx := tcamIdx
  keyEntries := (take_copied fits.keyGiven).trans (take_copied fits.keyGiven).symm
  valueEntries := (take_copied fits.valueGiven).trans (take_copied fits.valueGiven).symm
  noTable := rfl
  missActId := rfl
  fdInfos := fdInfos
  actionProcMap := actionProcMap

/-- What a configuration reads depends on nothing that was there before. -/
theorem over_reads {config : Pipeline.MemConfig} {thread : MatcherThread} {procId : Nat}
    {cell : Cell} (fits : config.Fits) (isProc : thread.procId = procId) :
    (config.over thread).Reads cell ↔ (config.over { procId }).Reads cell := by
  have table : SameTable (config.over { thread with tcamIdx := 0 }) (config.over { procId }) :=
    ⟨isProc, rfl, rfl, rfl, rfl, rfl, (take_copied fits.keyGiven).trans (take_copied fits.keyGiven).symm,
      (take_copied fits.valueGiven).trans (take_copied fits.valueGiven).symm⟩
  cases cell with
  | sram block address =>
      change block ∈ (config.over { thread with tcamIdx := 0 }).srams ∧ _ ↔ _
      rw [table.srams]
      rfl
  | mask block address =>
      change block ∈ (config.over { thread with tcamIdx := 0 }).tcams ∧ _ ↔ _
      rw [table.tcams]
      rfl

end MatcherThread

namespace ThreadFollows

variable {later : Prop} {used alone next : MatcherThread}

theorem setMemConfig (follows : ThreadFollows later used alone) (isLater : later)
    {config : Pipeline.MemConfig}
    (done : Pipeline.setMemConfig config Memory.fresh alone = some (Memory.fresh, next)) :
    ∃ after, Pipeline.setMemConfig config Memory.fresh used = some (Memory.fresh, after) ∧
      SameThread after next := by
  obtain ⟨fits, cleared, clear, rfl⟩ := MatcherThread.setMemConfig_iff.mp done
  obtain ⟨memory, usedCleared, usedClear⟩ : ∃ memory usedCleared,
      used.clearOldConfig Memory.fresh = some (memory, usedCleared) := by
    cases follows with
    | same thread => exact ⟨_, thread.clearOldConfig clear⟩
    | unused _ _ _ _ exist => exact (exist isLater).clearOldConfig _
  rw [MatcherThread.clearOldConfig_fresh usedClear] at usedClear
  obtain ⟨procId, _, _, tcamIdx⟩ := MatcherThread.clearOldConfig_unused clear
  obtain ⟨usedProcId, _, _, usedTcamIdx⟩ := MatcherThread.clearOldConfig_unused usedClear
  obtain ⟨fdInfos, actionProcMap⟩ := MatcherThread.clearOldConfig_rest clear
  obtain ⟨usedFdInfos, usedActionProcMap⟩ := MatcherThread.clearOldConfig_rest usedClear
  refine ⟨config.over usedCleared, MatcherThread.setMemConfig_iff.mpr ⟨fits, usedCleared, usedClear, rfl⟩, ?_⟩
  refine MatcherThread.over_same fits ?_ ?_ (usedFdInfos.trans fdInfos.symm)
    (usedActionProcMap.trans actionProcMap.symm)
  · cases follows with
    | same thread => rw [procId, usedProcId, thread.procId]
    | unused _ _ same => rw [procId, usedProcId, same]
  · rw [tcamIdx, usedTcamIdx]
    cases follows with
    | same thread => rw [thread.matchType, thread.tcamIdx]
    | unused _ _ _ zero => rw [zero.1, zero.2, ite_self, ite_self]

theorem apply (follows : ThreadFollows later used alone) (isLater : later) {request : ThreadRequest}
    (step : request.apply alone = some next) :
    ∃ after, request.apply used = some after ∧ ThreadFollows later after next := by
  cases request with
  | setMemConfig config =>
      obtain ⟨⟨memory, configured⟩, done, rfl⟩ := Option.map_eq_some_iff.mp step
      obtain rfl := setMemConfig_fresh done
      obtain ⟨after, usedDone, same⟩ := follows.setMemConfig isLater done
      exact ⟨after, Option.map_eq_some_iff.mpr ⟨_, usedDone, rfl⟩, .same same⟩
  | setActionProc actionProcs =>
      cases step
      refine ⟨_, rfl, ?_⟩
      cases follows with
      | same thread =>
          refine .same { thread with actionProcMap := ?_ }
          simp only [MatcherThread.setActionProcMap, thread.actionProcMap]
      | unused noTable missActId procId tcamIdx exist =>
          refine .unused noTable missActId procId tcamIdx fun isLater => ?_
          exact { exist isLater with }
  | setFieldInfo fdInfos =>
      cases step
      refine ⟨_, rfl, ?_⟩
      cases follows with
      | same thread => exact .same { thread with fdInfos := rfl }
      | unused noTable missActId procId tcamIdx exist =>
          refine .unused noTable missActId procId tcamIdx fun isLater => ?_
          exact { exist isLater with }

end ThreadFollows

namespace Matcher

variable {later : Int → Prop} {used alone next : Matcher}

/-- Thread by thread; those that are configured later have blocks that exist. -/
structure Follows (later : Int → Prop) (used alone : Matcher) : Prop where
  length : used.length = alone.length
  threads : ∀ (index : Nat) usedThread thread, used[index]? = some usedThread → alone[index]? = some thread →
    ThreadFollows (later index) usedThread thread

theorem apply_iff {matcher : Matcher} {pair : Int × ThreadRequest} : matcher.apply pair = some next ↔
    ∃ (index : Nat) (thread changed : MatcherThread), pair.1 = index ∧ matcher[index]? = some thread ∧
      pair.2.apply thread = some changed ∧ next = matcher.set index changed := by
  unfold Matcher.apply
  constructor
  · intro step
    obtain ⟨nonneg, step⟩ := Option.ite_none_left_eq_some.mp step
    obtain ⟨thread, found, step⟩ := Option.bind_eq_some_iff.mp step
    obtain ⟨changed, applied, step⟩ := Option.bind_eq_some_iff.mp step
    cases step
    exact ⟨pair.1.toNat, thread, changed, (Int.toNat_of_nonneg (Int.not_lt.mp nonneg)).symm,
      found, applied, rfl⟩
  · rintro ⟨index, thread, changed, same, found, applied, rfl⟩
    rw [same, if_neg (by omega), Int.toNat_natCast, found, Option.bind_eq_bind, Option.bind_some, applied]
    rfl

theorem Follows.apply (follows : Follows later used alone) {pair : Int × ThreadRequest}
    (isLater : later pair.1) (step : alone.apply pair = some next) :
    ∃ after, used.apply pair = some after ∧ Follows later after next := by
  obtain ⟨index, thread, changed, same, found, applied, rfl⟩ := apply_iff.mp step
  rw [same] at isLater
  have inside : index < used.length := follows.length ▸ (List.getElem?_eq_some_iff.mp found).1
  have own := follows.threads index _ thread (List.getElem?_eq_getElem inside) found
  obtain ⟨after, usedApplied, changedFollows⟩ := own.apply isLater applied
  refine ⟨used.set index after,
    apply_iff.mpr ⟨index, _, after, same, List.getElem?_eq_getElem inside, usedApplied,
      rfl⟩, by simp [follows.length], fun other usedThread thread usedHere here => ?_⟩
  by_cases own : index = other
  · subst own
    rw [List.getElem?_set_self inside] at usedHere
    rw [List.getElem?_set_self (follows.length ▸ inside)] at here
    cases usedHere
    cases here
    exact changedFollows
  · rw [List.getElem?_set_ne own] at usedHere here
    exact follows.threads other usedThread thread usedHere here

/-- What a push leaves in a thread. -/
structure Pushed (later : Int → Prop) (procId : Nat) (matcher : Matcher) : Prop where
  length : matcher.length = matcherThreadNum
  threads : ∀ (index : Nat) thread, matcher[index]? = some thread →
    thread.procId = procId ∧ thread.tcamIdx = 0 ∧ (later index → thread.Exists)

theorem pushed_fresh (later : Int → Prop) (procId : Nat) : Pushed later procId (.fresh procId) := by
  refine ⟨List.length_replicate, fun index thread found => ?_⟩
  rw [List.eq_of_mem_replicate (List.mem_of_getElem? found)]
  exact ⟨rfl, rfl, fun _ => .of_unused rfl rfl⟩

theorem Pushed.apply {procId : Nat} {matcher : Matcher} (pushed : Pushed later procId matcher)
    {pair : Int × ThreadRequest} (exist : later pair.1 → ∀ config, pair.2 = .setMemConfig config →
      config.Exists)
    (step : matcher.apply pair = some next) : Pushed later procId next := by
  obtain ⟨index, thread, changed, same, found, applied, rfl⟩ := apply_iff.mp step
  rw [same] at exist
  have inside := (List.getElem?_eq_some_iff.mp found).1
  obtain ⟨isProc, rows, exists_⟩ := pushed.threads index thread found
  have own : changed.procId = procId ∧ changed.tcamIdx = 0 ∧ (later index → changed.Exists) := by
    cases request : pair.2 <;> rw [request] at applied exist
    case setMemConfig config =>
      obtain ⟨⟨memory, configured⟩, done, rfl⟩ := Option.map_eq_some_iff.mp applied
      obtain ⟨fits, cleared, clear, rfl⟩ := MatcherThread.setMemConfig_iff.mp done
      obtain ⟨clearedProc, _, _, clearedRows⟩ := MatcherThread.clearOldConfig_unused clear
      refine ⟨clearedProc.trans isProc, clearedRows.trans (by rw [rows, ite_self]), fun isLater => ?_⟩
      exact MatcherThread.over_exists fits (exist isLater config rfl)
    case setActionProc actionProcs =>
      cases applied
      exact ⟨isProc, rows, fun isLater => { exists_ isLater with }⟩
    case setFieldInfo fdInfos =>
      cases applied
      exact ⟨isProc, rows, fun isLater => { exists_ isLater with }⟩
  refine ⟨by simp [pushed.length], fun other thread here => ?_⟩
  by_cases isOwn : index = other
  · subst isOwn
    rw [List.getElem?_set_self inside] at here
    cases here
    exact own
  · rw [List.getElem?_set_ne isOwn] at here
    exact pushed.threads other thread here

theorem Pushed.run {procId : Nat} {matcher : Matcher} {pairs : List (Int × ThreadRequest)}
    (exist : ∀ pair ∈ pairs, later pair.1 → ∀ config, pair.2 = .setMemConfig config → config.Exists)
    (run : pairs.foldlM Matcher.apply (.fresh procId) = some matcher) : Pushed later procId matcher :=
  foldlM_preserves (Pushed later procId) (fun _ pair _ member pushed step =>
    pushed.apply (exist pair member) step) run
    (pushed_fresh later procId)

theorem Pushed.follows {procId : Nat} {matcher : Matcher} (pushed : Pushed later procId matcher) :
    Follows later matcher (.fresh procId) := by
  refine ⟨pushed.length.trans List.length_replicate.symm, fun index usedThread thread usedHere here => ?_⟩
  obtain ⟨isProc, rows, exist⟩ := pushed.threads index usedThread usedHere
  rw [List.eq_of_mem_replicate (List.mem_of_getElem? here)]
  exact .unused rfl (by decide : (-1 : Int) < 0) isProc ⟨rows, rfl⟩ exist

/-- A table in use reads what its configuration names. -/
theorem reads_configured {procId : Nat} {matcher : Matcher} {pairs : List (Int × ThreadRequest)}
    (run : pairs.foldlM Matcher.apply (.fresh procId) = some matcher) {index : Nat} {thread : MatcherThread}
    (here : matcher[index]? = some thread) (inUse : thread.noTable = false) :
    ∃ config, ((index : Int), .setMemConfig config) ∈ pairs ∧
      ∀ cell, thread.Reads cell → (config.over { procId }).Reads cell := by
  have configured : ∀ (index : Nat) thread, matcher[index]? = some thread → thread.procId = procId ∧
      (thread.noTable = false → ∃ config, ((index : Int), ThreadRequest.setMemConfig config) ∈ pairs ∧
        ∀ cell, thread.Reads cell → (config.over { procId }).Reads cell) := by
    refine foldlM_preserves (fun state : Matcher => ∀ (index : Nat) thread, state[index]? = some thread →
      thread.procId = procId ∧ (thread.noTable = false → ∃ config,
        ((index : Int), ThreadRequest.setMemConfig config) ∈ pairs ∧
          ∀ cell, thread.Reads cell → (config.over { procId }).Reads cell)) ?_ run ?_
    · intro state pair next member configured step
      obtain ⟨own, thread, changed, same, found, applied, rfl⟩ := apply_iff.mp step
      obtain ⟨isProc, reads⟩ := configured own thread found
      intro other here isHere
      by_cases isOwn : own = other
      · subst isOwn
        rw [List.getElem?_set_self (List.getElem?_eq_some_iff.mp found).1] at isHere
        cases isHere
        cases request : pair.2 <;> rw [request] at applied
        case setMemConfig config =>
          obtain ⟨⟨memory, _⟩, done, rfl⟩ := Option.map_eq_some_iff.mp applied
          obtain ⟨fits, cleared, clear, rfl⟩ := MatcherThread.setMemConfig_iff.mp done
          have isCleared := (MatcherThread.clearOldConfig_unused clear).1.trans isProc
          refine ⟨isCleared, fun _ => ⟨config, ?_, fun cell => (MatcherThread.over_reads fits isCleared).mp⟩⟩
          rw [← same, ← request]
          exact member
        case setActionProc actionProcs =>
          cases applied
          exact ⟨isProc, reads⟩
        case setFieldInfo fdInfos =>
          cases applied
          exact ⟨isProc, reads⟩
      · rw [List.getElem?_set_ne isOwn] at isHere
        exact configured other here isHere
    · intro index thread found
      rw [List.eq_of_mem_replicate (List.mem_of_getElem? found)]
      exact ⟨rfl, fun inUse => by cases inUse⟩
  exact (configured index thread here).2 inUse

theorem push_behind {procId : Nat} {old new : List (Int × ThreadRequest)} {middle alone : Matcher}
    (before : old.foldlM Matcher.apply (.fresh procId) = some middle)
    (fresh : new.foldlM Matcher.apply (.fresh procId) = some alone)
    (exist : ∀ pair ∈ old, (∃ request, (pair.1, request) ∈ new) → ∀ config,
      pair.2 = .setMemConfig config → config.Exists) :
    ∃ used, new.foldlM Matcher.apply middle = some used ∧
      Follows (fun matcherId => ∃ request, (matcherId, request) ∈ new) used alone :=
  foldlM_follows _ (fun pair member _ _ _ follows step => follows.apply ⟨pair.2, member⟩ step)
    (Pushed.run exist before).follows fresh

end Matcher

/-! ### Actions -/

namespace Executor

/-- The actions of one executor are those of another, which may have more. -/
structure Follows (used alone : Executor) : Prop where
  length : used.length = alone.length
  actions : ∀ (index : Nat) action, alone[index]? = some (some action) → used[index]? = some (some action)

theorem Follows.insertAction {used alone next : Executor} (follows : Follows used alone)
    {action : Action} {actionId : Int} (step : alone.insertAction action actionId = some next) :
    ∃ after, used.insertAction action actionId = some after ∧ Follows after next := by
  obtain ⟨nonneg, step⟩ := Option.ite_none_left_eq_some.mp step
  obtain ⟨inside, rfl⟩ := setAt_eq_some_iff.mp step
  have usedInside : actionId.toNat < used.length := follows.length ▸ inside
  refine ⟨_, by rw [Executor.insertAction, if_neg nonneg]; exact setAt_eq_some_iff.mpr ⟨usedInside, rfl⟩,
    by simp [follows.length], fun index other found => ?_⟩
  by_cases own : actionId.toNat = index
  · subst own
    rw [List.getElem?_set_self inside] at found
    rw [List.getElem?_set_self usedInside, found]
  · rw [List.getElem?_set_ne own] at found ⊢
    exact follows.actions index other found

theorem follows_fresh {executor : Executor} (length : executor.length = executorActionNum) :
    Follows executor .fresh :=
  ⟨length.trans List.length_replicate.symm, fun index action found => by
    cases List.eq_of_mem_replicate (List.mem_of_getElem? found)⟩

theorem push_behind {old new : List (Int × Action)} {middle alone : Executor}
    (before : old.foldlM (fun exe pair => Executor.insertAction exe pair.2 pair.1) .fresh = some middle)
    (fresh : new.foldlM (fun exe pair => Executor.insertAction exe pair.2 pair.1) .fresh = some alone) :
    ∃ used, new.foldlM (fun exe pair => Executor.insertAction exe pair.2 pair.1) middle = some used ∧
      Follows used alone := by
  have length : middle.length = executorActionNum := by
    refine foldlM_preserves (fun state : Executor =>
      state.length = executorActionNum) ?_ before List.length_replicate
    intro state pair next _ same step
    obtain ⟨_, step⟩ := Option.ite_none_left_eq_some.mp step
    obtain ⟨_, rfl⟩ := setAt_eq_some_iff.mp step
    rw [List.length_set, same]
  exact foldlM_follows _ (fun _ _ _ _ _ follows step => follows.insertAction step)
    (follows_fresh length) fresh

theorem Follows.execute {used alone : Executor} (follows : Follows used alone) {phv after : Phv}
    (run : alone.execute phv = some after) : used.execute phv = some after := by
  unfold Executor.execute at run ⊢
  obtain ⟨nonneg, run⟩ := Option.ite_none_left_eq_some.mp run
  obtain ⟨action, found, run⟩ := Option.bind_eq_some_iff.mp run
  have here := follows.actions _ action (Option.join_eq_some_iff.mp found)
  rw [if_neg nonneg, here]
  exact run

end Executor

/-! ### One processor -/

/-- Wherever the second processor is defined the first does the same. -/
structure Processor.Follows (later : Int → Prop) (used alone : Processor) : Prop where
  parser : ∀ phv after, alone.parser.parse phv = some after → used.parser.parse phv = some after
  gateway : ∀ phv after, alone.gateway.execute phv = some after → used.gateway.execute phv = some after
  matcher : Matcher.Follows later used.matcher alone.matcher
  exe : Executor.Follows used.exe alone.exe

theorem SameThread.matches {used alone : MatcherThread} (same : SameThread used alone) (memory : Memory)
    (scratch : Nat → UInt8) (phv : Phv) :
    used.generateMatchKeyAndMatch memory scratch phv = alone.generateMatchKeyAndMatch memory scratch phv := by
  have lookup : used.getMatchRes memory scratch = alone.getMatchRes memory scratch := by
    funext key
    exact same.toSameTable.getMatchRes memory scratch key
  simp only [MatcherThread.generateMatchKeyAndMatch, MatcherThread.matchKey, same.fdInfos,
    same.missActId, lookup]

/-- The memory holds nothing in the bytes that a table in use reads. -/
def Processor.ReadsNothing (memory : Memory) (processor : Processor) : Prop :=
  ∀ thread ∈ processor.matcher, thread.noTable = false → ∀ cell, thread.Reads cell → memory.byte cell = 0

/-- Where a table reads nothing, it is looked up as in a memory without entries. -/
theorem MatcherThread.matches_fresh {thread : MatcherThread} {memory : Memory}
    (nothing : ∀ cell, thread.Reads cell → memory.byte cell = 0) (scratch : Nat → UInt8) (phv : Phv) :
    thread.generateMatchKeyAndMatch memory scratch phv =
      thread.generateMatchKeyAndMatch Memory.fresh scratch phv := by
  have lookup (key : List UInt8) : thread.getMatchRes memory scratch key =
      thread.getMatchRes Memory.fresh scratch key := by
    refine getMatchRes_congr (fun block member address inside => ?_)
      (fun block member address inside => ?_) scratch key
    · exact nothing (.sram block address) ⟨member, inside⟩
    · exact nothing (.mask block address) ⟨member, inside⟩
  simp only [generateMatchKeyAndMatch, lookup]

namespace Processor.Follows

variable {later : Int → Prop} {used alone : Processor}

theorem refl (later : Int → Prop) (processor : Processor) : processor.Follows later processor where
  parser _ _ run := run
  gateway _ _ run := run
  matcher := ⟨rfl, fun _ usedThread thread usedHere here => by
    cases usedHere.symm.trans here
    exact .same
      { toSameTable := ⟨rfl, rfl, rfl, rfl, rfl, rfl, rfl, rfl⟩, noTable := rfl, missActId := rfl,
        fdInfos := rfl, actionProcMap := rfl }⟩
  exe := ⟨rfl, fun _ _ found => found⟩

private theorem executes (follows : Follows later used alone) {memory : Memory}
    (nothing : alone.ReadsNothing memory) {scratch : Nat → UInt8} {matcherId : Int}
    {phv matched after : Phv} {thread : MatcherThread}
    (look : alone.matcher.execute Memory.fresh scratch matcherId phv = some matched)
    (found : alone.matcher.thread matcherId = some thread)
    (run : alone.exe.execute { matched with nextProcId := thread.nextProc matched.nextActionId } =
      some after) :
    used.matcher.execute memory scratch matcherId phv = some matched ∧ ∃ usedThread,
      used.matcher.thread matcherId = some usedThread ∧
        usedThread.nextProc matched.nextActionId = thread.nextProc matched.nextActionId := by
  obtain ⟨nonneg, here⟩ := Option.ite_none_left_eq_some.mp found
  have inside : matcherId.toNat < used.matcher.length :=
    follows.matcher.length ▸ (List.getElem?_eq_some_iff.mp here).1
  have usedHere := List.getElem?_eq_getElem inside
  have usedFound : used.matcher.thread matcherId = some used.matcher[matcherId.toNat] := by
    rw [Matcher.thread, if_neg nonneg, usedHere]
  obtain ⟨other, isOther, look⟩ := Option.bind_eq_some_iff.mp look
  cases found.symm.trans isOther
  cases follows.matcher.threads _ _ _ usedHere here with
  | same same =>
      refine ⟨?_, _, usedFound, by rw [MatcherThread.nextProc, MatcherThread.nextProc, same.actionProcMap]⟩
      rw [Matcher.execute, usedFound, Option.bind_eq_bind, Option.bind_some, same.noTable,
        same.missActId, same.matches]
      split at look
      case isTrue idle => rwa [if_pos idle]
      case isFalse inUse =>
        rw [if_neg inUse, MatcherThread.matches_fresh
          (nothing thread (List.mem_of_getElem? here) (by simpa using inUse))]
        exact look
  | unused noTable missActId =>
      rw [if_pos noTable] at look
      cases look
      obtain ⟨hasAction, _⟩ := Option.ite_none_left_eq_some.mp run
      exact absurd missActId hasAction

/-- Entries that no table in use reads do not matter. -/
theorem processPacket (follows : Follows later used alone) {memory : Memory}
    (nothing : alone.ReadsNothing memory) {scratch : Nat → UInt8} {phv after : Phv}
    (run : alone.processPacket Memory.fresh scratch phv = some after) :
    used.processPacket memory scratch phv = some after := by
  unfold Processor.processPacket at run ⊢
  obtain ⟨parsed, parse, run⟩ := Option.bind_eq_some_iff.mp run
  rw [follows.parser phv parsed parse, Option.bind_eq_bind, Option.bind_some]
  by_cases ended : parsed.nextProcId = -1
  · rw [if_pos ended] at run ⊢
    exact run
  · rw [if_neg ended] at run ⊢
    obtain ⟨gated, gate, run⟩ := Option.bind_eq_some_iff.mp run
    rw [follows.gateway parsed gated gate, Option.bind_eq_bind, Option.bind_some]
    cases type : gated.nextOp.type <;> rw [type] at run
    case stage => exact run
    case table =>
      obtain ⟨matched, look, run⟩ := Option.bind_eq_some_iff.mp run
      obtain ⟨thread, found, run⟩ := Option.bind_eq_some_iff.mp run
      have kept : matched.nextOp = gated.nextOp := by
        obtain ⟨_, _, _, _, rfl⟩ := Matcher.execute_eq look
        rfl
      rw [kept] at found
      obtain ⟨usedLook, usedThread, usedFound, same⟩ := follows.executes nothing look found run
      rw [← kept] at usedFound
      simp only [usedLook, usedFound, Option.bind_some, same]
      exact follows.exe.execute run

end Processor.Follows

theorem ProcessorCalls.parser_push (calls : ProcessorCalls) (parser : Parser) :
    calls.parser.foldlM ParserCall.apply parser =
      (parser.initParserLevel calls.parserLevel).enter calls.entries := by
  rw [ProcessorCalls.parser, List.foldlM_cons, ParserCall.apply, Option.bind_eq_bind,
    Option.bind_some, Parser.enter, List.foldlM_map]
  rfl

/-- A push of one processor behind another one. -/
theorem ProcessorCalls.push_behind {old new : ProcessorCalls} {procId : Nat} {middle alone : Processor}
    {exps oldExps : List RelationExp} {default oldDefault : GateEntry} {rows oldRows : List (Int × GateEntry)}
    (oldGateway : old.gateway = Gateway.push oldExps oldDefault oldRows)
    (gateway : new.gateway = Gateway.push exps default rows)
    (before : old.push (.fresh procId) = some middle) (fresh : new.push (.fresh procId) = some alone)
    (exist : ∀ pair ∈ old.matcher, (∃ request, (pair.1, request) ∈ new.matcher) → ∀ config,
      pair.2 = .setMemConfig config → config.Exists) :
    ∃ used, new.push middle = some used ∧ (Parser.Overwritten new.parserLevel old.entries new.entries →
      (exps.length ∈ [0, 1, 2, 4, 8] → oldExps.length ≤ exps.length) →
      used.Follows (fun matcherId => ∃ request, (matcherId, request) ∈ new.matcher) alone) := by
  obtain ⟨oldParser, oldEnter, before⟩ := Option.bind_eq_some_iff.mp before
  obtain ⟨oldMatcher, oldThreads, before⟩ := Option.bind_eq_some_iff.mp before
  obtain ⟨oldExe, oldActions, before⟩ := Option.bind_eq_some_iff.mp before
  obtain ⟨newParser, newEnter, fresh⟩ := Option.bind_eq_some_iff.mp fresh
  obtain ⟨newMatcher, newThreads, fresh⟩ := Option.bind_eq_some_iff.mp fresh
  obtain ⟨newExe, newActions, fresh⟩ := Option.bind_eq_some_iff.mp fresh
  cases before
  cases fresh
  rw [parser_push] at oldEnter newEnter
  obtain ⟨usedParser, enters, parses⟩ := Parser.enter_behind oldEnter newEnter
  obtain ⟨usedMatcher, threads, matcher⟩ := Matcher.push_behind oldThreads newThreads exist
  obtain ⟨usedExe, actions, exe⟩ := Executor.push_behind oldActions newActions
  rw [← parser_push] at enters
  refine ⟨_, Option.bind_eq_some_iff.mpr ⟨usedParser, enters,
    Option.bind_eq_some_iff.mpr ⟨usedMatcher, threads, Option.bind_eq_some_iff.mpr
      ⟨usedExe, actions, rfl⟩⟩⟩, fun overwritten fewer => ?_⟩
  refine ⟨parses overwritten, fun phv after run => ?_, matcher, exe⟩
  rw [gateway] at run
  rw [oldGateway, gateway]
  have decided := @Gateway.execute_behind exps oldExps default oldDefault rows oldRows phv after fewer run
  rw [Gateway.configured, List.foldl_append] at decided
  exact decided

end Ipbm.Dataplane
