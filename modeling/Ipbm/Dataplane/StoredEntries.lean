import Ipbm.Dataplane.PipelineProperties
import Ipbm.Dataplane.ThreadStates
import Ipbm.Lib.Pointwise

/-! Entries that are there when a push begins. A push writes none, so it changes the threads of a
pipeline with entries as it does those of one without; of the memory it only clears the blocks of
tables that it configures again. -/

set_option autoImplicit false

namespace Ipbm.Dataplane
open Lib

/-- Requests that write an entry. -/
def Request.Inserts : Request → Prop
  | .insertSramEntry _ _ _ _ | .insertTcamEntry _ _ _ _ _ => True
  | _ => False

/-! ### Pipelines that differ in their entries -/

/-- Threads that differ in the number of rows that were written. -/
def SameButRows (used ideal : MatcherThread) : Prop := used = { ideal with tcamIdx := used.tcamIdx }

structure Processor.SameButRows (used ideal : Processor) : Prop where
  parser : used.parser = ideal.parser
  gateway : used.gateway = ideal.gateway
  matcher : List.Forall₂ Dataplane.SameButRows used.matcher ideal.matcher
  exe : used.exe = ideal.exe

/-- Pipelines with one configuration, each with its own entries. -/
structure Pipeline.SameButEntries (used ideal : Pipeline) : Prop where
  procs : List.Forall₂ Processor.SameButRows used.procs ideal.procs
  metaInfos : used.metaInfos = ideal.metaInfos

namespace MatcherThread

/-- Whether clearing is defined, and what it makes of the thread, depends on the configuration alone. -/
theorem clearOldConfig_sameButRows {used ideal next : MatcherThread} {memory idealMemory after : Memory}
    (same : SameButRows used ideal) (done : ideal.clearOldConfig idealMemory = some (after, next)) :
    ∃ cleared other, used.clearOldConfig memory = some (cleared, other) ∧ SameButRows other next := by
  rw [same]
  rcases clearOldConfig_some done with ⟨exact, keys, values, isKeys, isValues, _, rfl⟩ | ⟨ternary,
    keys, values, isKeys, isValues, _, rfl⟩
  · simp only [clearOldConfig, exact]
    exact ⟨_, _, Option.bind_eq_some_iff.mpr
      ⟨keys, isKeys, Option.bind_eq_some_iff.mpr ⟨values, isValues, rfl⟩⟩, by
      simp [SameButRows, reset, exact]⟩
  · cases type : ideal.matchType with
    | exact => exact absurd type ternary
    | ternary | lpm =>
        simp only [clearOldConfig]
        exact ⟨_, _, Option.bind_eq_some_iff.mpr
          ⟨keys, isKeys, Option.bind_eq_some_iff.mpr ⟨values, isValues, rfl⟩⟩, by
          simp [SameButRows, reset, type]⟩

end MatcherThread

theorem setMemConfig_sameButRows {config : Pipeline.MemConfig} {used ideal next : MatcherThread}
    {memory idealMemory after : Memory} (same : SameButRows used ideal)
    (done : Pipeline.setMemConfig config idealMemory ideal = some (after, next)) :
    ∃ cleared other, Pipeline.setMemConfig config memory used = some (cleared, other) ∧
      SameButRows other next := by
  obtain ⟨fits, idealCleared, clear, rfl⟩ := MatcherThread.setMemConfig_iff.mp done
  obtain ⟨cleared, other, usedClear, isSame⟩ :=
    @MatcherThread.clearOldConfig_sameButRows _ _ _ memory _ _ same clear
  refine ⟨cleared, config.over other, MatcherThread.setMemConfig_iff.mpr ⟨fits, other, usedClear, rfl⟩, ?_⟩
  rw [SameButRows, Pipeline.MemConfig.over, Pipeline.MemConfig.over, isSame]

namespace Pipeline.SameButEntries

variable {used ideal next : Pipeline}

theorem refl (pipeline : Pipeline) : pipeline.SameButEntries pipeline :=
  ⟨List.forall₂_same.mpr fun _ _ => ⟨rfl, rfl, List.forall₂_same.mpr fun _ _ => rfl, rfl⟩, rfl⟩

theorem atProc (same : used.SameButEntries ideal) {procId : Int} {change : Processor → Option Processor}
    (changes : ∀ usedProc idealProc changed, usedProc.SameButRows idealProc →
      change idealProc = some changed →
      ∃ after, change usedProc = some after ∧ after.SameButRows changed)
    (step : ideal.atProc procId change = some next) :
    ∃ after, used.atProc procId change = some after ∧ after.SameButEntries next := by
  obtain ⟨idealProc, changed, nonneg, found, changeIdeal, rfl⟩ := atProc_cases step
  obtain ⟨usedProc, usedFound, isSame⟩ := forall₂_left same.procs found
  obtain ⟨after, changeUsed, isAfter⟩ := changes usedProc idealProc changed isSame changeIdeal
  refine ⟨{ used with procs := used.procs.set procId.toNat after }, ?_, ?_, same.metaInfos⟩
  · rw [Pipeline.atProc, if_neg (by omega), usedFound, Option.bind_eq_bind, Option.bind_some, changeUsed]
    rfl
  · exact forall₂_set same.procs procId.toNat isAfter

theorem atThread (same : used.SameButEntries ideal) {procId matcherId : Int}
    {change : Memory → MatcherThread → Option (Memory × MatcherThread)}
    (changes : ∀ usedThread idealThread changed memory, Dataplane.SameButRows usedThread idealThread →
      change ideal.memory idealThread = some (memory, changed) →
        ∃ cleared after, change used.memory usedThread = some (cleared, after) ∧
          Dataplane.SameButRows after changed)
    (step : ideal.atThread procId matcherId change = some next) :
    ∃ after, used.atThread procId matcherId change = some after ∧ after.SameButEntries next := by
  obtain ⟨idealProc, idealThread, memory, changed, procNonneg, matcherNonneg, found, there,
      changeIdeal, rfl⟩ :=
    atThread_cases step
  obtain ⟨usedProc, usedFound, isSame⟩ := forall₂_left same.procs found
  obtain ⟨usedThread, usedThere, sameThread⟩ := forall₂_left isSame.matcher there
  obtain ⟨cleared, after, changeUsed, isAfter⟩ :=
    changes usedThread idealThread changed memory sameThread changeIdeal
  refine ⟨{ used with
    memory := cleared
    procs :=
      used.procs.set procId.toNat { usedProc with matcher := usedProc.matcher.set matcherId.toNat after } },
    ?_, forall₂_set same.procs procId.toNat ⟨isSame.parser, isSame.gateway, ?_, isSame.exe⟩, same.metaInfos⟩
  · simp only [Pipeline.atThread,
      show ¬(procId < 0 ∨ matcherId <
        0) by omega, if_false, usedFound, usedThere, changeUsed, Option.bind_eq_bind,
          Option.bind_some, Option.pure_def]
  · exact forall₂_set isSame.matcher matcherId.toNat isAfter

/-- A request that writes no entry does the same to both. -/
theorem apply (same : used.SameButEntries ideal) {request : Request} (silent : ¬request.Inserts)
    (step : ideal.apply request = some next) :
    ∃ after, used.apply request = some after ∧ after.SameButEntries next := by
  cases request with
  | setMetadata headerInfos =>
      cases step
      exact ⟨_, rfl, same.procs, rfl⟩
  | initParserLevel procId parserLevel =>
      refine same.atProc (fun usedProc idealProc changed isSame change => ?_) step
      cases change
      exact ⟨_, rfl, by rw [isSame.parser], isSame.gateway, isSame.matcher, isSame.exe⟩
  | modParserEntry procId parserLevel entry =>
      refine same.atProc (fun usedProc idealProc changed isSame change => ?_) step
      obtain ⟨parser, modified, change⟩ := Option.bind_eq_some_iff.mp change
      cases change
      exact ⟨{ usedProc with parser }, by rw [isSame.parser, modified]; rfl, rfl, isSame.gateway,
        isSame.matcher, isSame.exe⟩
  | clearParser procId =>
      refine same.atProc (fun usedProc idealProc changed isSame change => ?_) step
      obtain ⟨parser, modified, change⟩ := Option.bind_eq_some_iff.mp change
      cases change
      exact ⟨{ usedProc with parser }, by rw [isSame.parser, modified]; rfl, rfl, isSame.gateway,
        isSame.matcher, isSame.exe⟩
  | gateway procId request =>
      refine same.atProc (fun usedProc idealProc changed isSame change => ?_) step
      cases change
      exact ⟨_, rfl, isSame.parser, by rw [isSame.gateway], isSame.matcher, isSame.exe⟩
  | setMemConfig procId matcherId config =>
      simp only [Pipeline.apply] at step
      exact same.atThread (fun _ _ _ _ isSame change => setMemConfig_sameButRows isSame change) step
  | setActionProc procId matcherId actionProcs =>
      simp only [Pipeline.apply] at step
      refine same.atThread (fun usedThread idealThread changed memory isSame change => ?_) step
      cases change
      exact ⟨_, _, rfl, by rw [isSame, SameButRows]; rfl⟩
  | setFieldInfo procId matcherId fdInfos =>
      simp only [Pipeline.apply] at step
      refine same.atThread (fun usedThread idealThread changed memory isSame change => ?_) step
      cases change
      exact ⟨_, _, rfl, by rw [isSame, SameButRows]; rfl⟩
  | setNoTable procId matcherId noTable =>
      simp only [Pipeline.apply] at step
      refine same.atThread (fun usedThread idealThread changed memory isSame change => ?_) step
      cases change
      exact ⟨_, _, rfl, by rw [isSame, SameButRows]; rfl⟩
  | insertSramEntry => exact absurd trivial silent
  | insertTcamEntry => exact absurd trivial silent
  | insertAction procId actionId action =>
      refine same.atProc (fun usedProc idealProc changed isSame change => ?_) step
      obtain ⟨exe, inserted, change⟩ := Option.bind_eq_some_iff.mp change
      cases change
      exact ⟨{ usedProc with exe }, by rw [isSame.exe, inserted]; rfl, isSame.parser,
        isSame.gateway, isSame.matcher, rfl⟩

theorem configure (same : used.SameButEntries ideal) {requests : List Request}
    (silent : ∀ request ∈ requests, ¬request.Inserts)
    (run : ideal.configure requests = some next) :
    ∃ after, used.configure requests = some after ∧ after.SameButEntries next :=
  foldlM_follows SameButEntries (fun request member _ _ _ isSame step =>
    isSame.apply (silent request member) step) same run

private theorem set_self {α : Type} {items : List α} {index : Nat} {item : α}
    (here : items[index]? = some item) :
    items.set index item = items := by
  obtain ⟨inside, rfl⟩ := List.getElem?_eq_some_iff.mp here
  exact List.set_getElem_self inside

/-- An entry that is written changes no configuration. -/
theorem insert {request : Request} (inserts : request.Inserts) (same : used.SameButEntries ideal)
    (step : used.apply request = some next) : next.SameButEntries ideal := by
  have atThread {procId matcherId : Int} {change : Memory → MatcherThread → Option (Memory × MatcherThread)}
      (keeps : ∀ memory thread written after, change memory thread = some (written, after) →
        after = { thread with tcamIdx := after.tcamIdx })
      (step : used.atThread procId matcherId change = some next) : next.SameButEntries ideal := by
    obtain ⟨usedProc, usedThread, memory, after, _, _, found, there, change, rfl⟩ := atThread_cases step
    obtain ⟨idealProc, idealFound, isSame⟩ := forall₂_right same.procs found
    obtain ⟨idealThread, idealThere, sameThread⟩ := forall₂_right isSame.matcher there
    have kept : Dataplane.SameButRows after idealThread := by
      have own := keeps _ _ _ _ change
      rwa [sameThread] at own
    have threads := forall₂_set isSame.matcher matcherId.toNat kept
    rw [set_self idealThere] at threads
    have procs := forall₂_set same.procs procId.toNat (show Processor.SameButRows
      { usedProc with matcher := usedProc.matcher.set matcherId.toNat after } idealProc from
        ⟨isSame.parser, isSame.gateway, threads, isSame.exe⟩)
    rw [set_self idealFound] at procs
    exact ⟨procs, same.metaInfos⟩
  cases request with
  | insertSramEntry procId matcherId key value =>
      simp only [Pipeline.apply] at step
      refine atThread (fun memory thread written after change => ?_) step
      obtain ⟨final, _, change⟩ := Option.bind_eq_some_iff.mp change
      cases change
      rfl
  | insertTcamEntry procId matcherId key mask value =>
      simp only [Pipeline.apply] at step
      refine atThread (fun memory thread written after change => ?_) step
      obtain ⟨_, _, _, _, _, _, _, _, _, _, _, rfl⟩ := MatcherThread.insertTcamEntry_some change
      rfl
  | _ => cases inserts

theorem inserts {requests : List Request} (inserts : ∀ request ∈ requests, request.Inserts)
    (run : ideal.configure requests = some next) : next.SameButEntries ideal :=
  foldlM_preserves (fun state => Pipeline.SameButEntries state ideal)
    (fun _ request _ member isSame step => insert (inserts request member) isSame step) run (refl ideal)

end Pipeline.SameButEntries

/-- The rows that were written do not matter to a packet, only the memory. -/
theorem Processor.SameButRows.processPacket {used ideal : Processor} (same : used.SameButRows ideal)
    (memory : Memory) (scratch : Nat → UInt8) (phv : Phv) :
    used.processPacket memory scratch phv = ideal.processPacket memory scratch phv := by
  have threads (matcherId : Int) :
      (used.matcher.thread matcherId = none ∧ ideal.matcher.thread matcherId = none) ∨
      ∃ rows idealThread, used.matcher.thread matcherId = some { idealThread with tcamIdx := rows } ∧
        ideal.matcher.thread matcherId = some idealThread := by
    unfold Matcher.thread
    by_cases negative : matcherId < 0
    · rw [if_pos negative, if_pos negative]
      exact .inl ⟨rfl, rfl⟩
    · rw [if_neg negative, if_neg negative]
      cases found : ideal.matcher[matcherId.toNat]? with
      | none =>
          have length := same.matcher.length_eq
          rw [List.getElem?_eq_none_iff, ← length, ← List.getElem?_eq_none_iff] at found
          exact .inl ⟨found, rfl⟩
      | some idealThread =>
          obtain ⟨usedThread, usedFound, isSame⟩ := forall₂_left same.matcher found
          exact .inr ⟨usedThread.tcamIdx, idealThread, by rw [usedFound, ← isSame], rfl⟩
  have lookups (matcherId : Int) (phv : Phv) :
      used.matcher.execute memory scratch matcherId phv =
          ideal.matcher.execute memory scratch matcherId phv := by
    unfold Matcher.execute
    rcases threads matcherId with ⟨usedNone, idealNone⟩ | ⟨rows, idealThread, usedFound, idealFound⟩
    · rw [usedNone, idealNone]
    · rw [usedFound, idealFound]
      rfl
  unfold Processor.processPacket
  rw [same.parser, same.gateway, same.exe]
  simp only [lookups]
  refine Option.bind_congr fun parsed _ => ?_
  split
  · rfl
  · refine Option.bind_congr fun gated _ => ?_
    split
    · rfl
    · refine Option.bind_congr fun matched _ => ?_
      rcases threads matched.nextOp.val with ⟨usedNone, idealNone⟩ | ⟨rows, idealThread,
        usedFound, idealFound⟩
      · rw [usedNone, idealNone]
      · rw [usedFound, idealFound]
        rfl

/-! ### Bytes that are read and bytes that are cleared -/

/-- A byte that lookups read: of an SRAM block, or of the masks of a TCAM block. -/
inductive Cell where
  | sram (block address : Nat)
  | mask (block address : Nat)

def Memory.byte (memory : Memory) : Cell → UInt8
  | .sram block address => memory.srams block address
  | .mask block address => memory.masks block address

namespace MatcherThread

def Reads (thread : MatcherThread) : Cell → Prop
  | .sram block address => block ∈ thread.srams ∧ address < physicalSramCapacity / 8
  | .mask block address => block ∈ thread.tcams ∧ address < physicalTcamCapacity / 8

/-- The bytes that clearing the table reaches; the value blocks of a ternary one are not cleared whole. -/
def Empties (thread : MatcherThread) : Cell → Prop
  | .sram block address => block ∈ thread.srams ∧
      address < (if thread.matchType = .exact then physicalSramCapacity else physicalTcamCapacity) / 8
  | .mask block address => block ∈ thread.tcams ∧ address < physicalTcamCapacity / 8

variable {thread next : MatcherThread} {memory after : Memory} {cell : Cell}

private theorem configured_all {select : UInt8 → Option Nat} {address : UInt8 → Nat}
    {config : List UInt8} {count : Nat} {blocks : List Nat}
    (selects : ∀ entry block, select entry = some block → block = address entry)
    (done : configured select config count = some blocks) {block : Nat}
    (member : block ∈ (config.take count).map address) :
    block ∈ blocks := by
  obtain ⟨entry, listed, rfl⟩ := List.mem_map.mp member
  obtain ⟨index, here⟩ := List.mem_iff_getElem?.mp listed
  have inside : index < count := by
    have bound := (List.getElem?_eq_some_iff.mp here).1
    rw [List.length_take] at bound
    omega
  obtain ⟨found, isIn, step⟩ := mem_mapM_some done (List.mem_range.mpr inside)
  rw [List.getElem?_take_of_lt inside] at here
  rw [here] at step
  exact selects entry found step ▸ isIn

theorem clearOldConfig_clears (done : thread.clearOldConfig memory = some (after, next))
    (reached : thread.Empties cell ∨ memory.byte cell = 0) : after.byte cell = 0 := by
  rcases clearOldConfig_some done with
    ⟨exact, keys, values, isKeys, isValues, rfl, -⟩ | ⟨ternary, keys, values, isKeys, isValues, rfl, -⟩
  · cases cell with
    | mask block address =>
        refine reached.resolve_left fun clears => ?_
        rw [Empties, tcams_exact exact] at clears
        exact List.not_mem_nil clears.1
    | sram block address =>
        by_cases inside : address < physicalSramCapacity / 8
        · refine wipe_zero inside (reached.symm.imp_right fun clears => ?_)
          have member := clears.1
          rw [srams_exact exact, List.map_append, List.mem_append] at member
          exact List.mem_append.mpr (member.imp (configured_all (fun _ _ => sramBlock_some) isKeys)
            (configured_all (fun _ _ => sramBlock_some) isValues))
        · refine (wipe_beyond (Nat.le_of_not_lt inside)).trans (reached.resolve_left fun clears => ?_)
          rw [Empties, if_pos exact] at clears
          exact inside clears.2
  · cases cell with
    | mask block address =>
        by_cases inside : address < physicalTcamCapacity / 8
        · refine wipe_zero inside (reached.symm.imp_right fun clears => ?_)
          have member := clears.1
          rw [tcams_ternary ternary] at member
          exact configured_all (fun _ _ => tcamBlock_some) isKeys member
        · exact (wipe_beyond (Nat.le_of_not_lt inside)).trans (reached.resolve_left fun clears =>
            inside clears.2)
    | sram block address =>
        by_cases inside : address < physicalTcamCapacity / 8
        · refine wipe_zero inside (reached.symm.imp_right fun clears => ?_)
          have member := clears.1
          rw [srams_ternary ternary] at member
          exact configured_all (fun _ _ => sramBlock_some) isValues member
        · refine (wipe_beyond (Nat.le_of_not_lt inside)).trans (reached.resolve_left fun clears => ?_)
          rw [Empties, if_neg ternary] at clears
          exact inside clears.2

end MatcherThread

namespace Pipeline

variable {pipeline after : Pipeline} {cell : Cell}

/-- A byte that holds nothing, or that a table holds that some request still configures again. -/
def Clean (pipeline : Pipeline) (requests : List Request) (cell : Cell) : Prop :=
  pipeline.memory.byte cell = 0 ∨
    ∃ procId matcherId thread config, pipeline.threadAt procId matcherId = some thread ∧
    thread.Empties cell ∧ .setMemConfig procId matcherId config ∈ requests

private theorem atProc_memory {procId : Int} {change : Processor → Option Processor}
    (changed : pipeline.atProc procId change = some after) : after.memory = pipeline.memory := by
  obtain ⟨_, _, _, _, _, rfl⟩ := atProc_cases changed
  rfl

/-- A request that writes no entry keeps the bytes that hold nothing. -/
theorem apply_zero {request : Request} (silent : ¬request.Inserts)
    (step : pipeline.apply request = some after)
    (zero : pipeline.memory.byte cell = 0) : after.memory.byte cell = 0 := by
  cases request with
  | setMetadata headerInfos =>
      cases step
      exact zero
  | initParserLevel | modParserEntry | clearParser | gateway | insertAction => rw [atProc_memory step, zero]
  | insertSramEntry | insertTcamEntry => exact absurd trivial silent
  | setMemConfig procId matcherId config =>
      obtain ⟨_, thread, memory, next, _, _, _, _, change, rfl⟩ := atThread_cases step
      obtain ⟨_, cleared, clear, _⟩ := MatcherThread.setMemConfig_iff.mp change
      exact MatcherThread.clearOldConfig_clears clear (.inr zero)
  | setActionProc | setFieldInfo | setNoTable =>
      simp only [Pipeline.apply] at step
      obtain ⟨_, thread, memory, next, _, _, _, _, change, rfl⟩ := atThread_cases step
      cases change
      exact zero

theorem Clean.apply {request : Request} {rest : List Request} (clean : pipeline.Clean (request :: rest) cell)
    (silent : ¬request.Inserts) (step : pipeline.apply request = some after) : after.Clean rest cell := by
  rcases clean with zero | ⟨procId, matcherId, thread, config, found, clears, asked⟩
  · exact .inl (apply_zero silent step zero)
  · have later (other : ∀ config, request ≠ .setMemConfig procId matcherId config) :
        .setMemConfig procId matcherId config ∈ rest :=
      (List.mem_cons.mp asked).resolve_left fun same => other config same.symm
    have same {change : Memory → MatcherThread → Option (Memory × MatcherThread)}
        (keeps : ∀ memory thread written next,
          change memory thread = some (written, next) → thread.Empties cell → next.Empties cell)
        (changed : pipeline.atThread procId matcherId change = some after) : ∃ next,
          after.threadAt procId matcherId = some next ∧ next.Empties cell := by
      obtain ⟨before, memory, next, isThread, change, isNext⟩ := threadAt_atThread changed
      cases found.symm.trans isThread
      exact ⟨next, isNext, keeps _ _ _ _ change clears⟩
    by_cases addresses : request.Addresses procId matcherId
    · cases request with
      | setMetadata | initParserLevel | modParserEntry | clearParser | gateway | insertAction =>
          cases addresses
      | insertSramEntry | insertTcamEntry => exact absurd trivial silent
      | setMemConfig proc matcher own =>
          obtain ⟨rfl, rfl⟩ := addresses
          simp only [Pipeline.apply] at step
          obtain ⟨processor, own, memory, next, procNonneg, matcherNonneg, here, there, change, rfl⟩ :=
            atThread_cases step
          have isOwn : pipeline.threadAt proc matcher = some own := by
            simp [threadAt, Pipeline.proc, Matcher.thread,
              show ¬proc < 0 by omega, show ¬matcher < 0 by omega, here, there]
          cases found.symm.trans isOwn
          obtain ⟨_, cleared, clear, _⟩ := MatcherThread.setMemConfig_iff.mp change
          exact .inl (MatcherThread.clearOldConfig_clears clear (.inl clears))
      | setActionProc proc matcher actionProcs =>
          obtain ⟨rfl, rfl⟩ := addresses
          simp only [Pipeline.apply] at step
          obtain ⟨next, isNext, kept⟩ := same (fun memory thread written next change clears => by
            cases change
            exact clears) step
          exact .inr ⟨_, _, next, config, isNext, kept, later fun _ equal => by cases equal⟩
      | setFieldInfo proc matcher fdInfos =>
          obtain ⟨rfl, rfl⟩ := addresses
          simp only [Pipeline.apply] at step
          obtain ⟨next, isNext, kept⟩ := same (fun memory thread written next change clears => by
            cases change
            exact clears) step
          exact .inr ⟨_, _, next, config, isNext, kept, later fun _ equal => by cases equal⟩
      | setNoTable proc matcher noTable =>
          obtain ⟨rfl, rfl⟩ := addresses
          simp only [Pipeline.apply] at step
          obtain ⟨next, isNext, kept⟩ := same (fun memory thread written next change clears => by
            cases change
            exact clears) step
          exact .inr ⟨_, _, next, config, isNext, kept, later fun _ equal => by cases equal⟩
    · refine .inr ⟨procId, matcherId, thread, config, (threadAt_apply addresses step).trans found,
        clears, later ?_⟩
      rintro other rfl
      exact addresses ⟨rfl, rfl⟩

theorem Clean.configure {requests : List Request} (clean : pipeline.Clean requests cell)
    (silent : ∀ request ∈ requests, ¬request.Inserts) (run : pipeline.configure requests = some after) :
    after.memory.byte cell = 0 := by
  induction requests generalizing pipeline with
  | nil =>
      cases run
      exact clean.resolve_right fun ⟨_, _, _, _, _, _, asked⟩ => List.not_mem_nil asked
  | cons request rest ih =>
      rw [Pipeline.configure, List.foldlM_cons] at run
      obtain ⟨middle, first, run⟩ := Option.bind_eq_some_iff.mp run
      exact ih (clean.apply (silent request List.mem_cons_self) first)
        (fun other member => silent other (List.mem_cons_of_mem _ member)) run

end Pipeline

end Ipbm.Dataplane
