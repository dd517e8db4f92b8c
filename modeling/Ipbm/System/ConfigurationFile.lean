import Ipbm.Compiler.AllocationProperties
import Ipbm.Compiler.RuntimeRuns
import Ipbm.Controller.DesignReading

/-! The file between the compiler and the controller. What a session of the compiler writes
is read by the controller as the configuration of the task that the session holds. -/

set_option autoImplicit false

namespace Ipbm.System
open Lib Compiler Builder
open Controller (InitDataplane.extract DesignFile.extract)

/-! ### A task has all processors -/

theorem length_placeChunks (physicalProcId : List Int) (own : Nat) (stageId : Int) (runs : List (List Level))
    (state : Processors × Int) :
    (placeChunks physicalProcId own stageId runs state).1.length = state.1.length := by
  induction runs generalizing state with
  | nil => rfl
  | cons run rest ih =>
      obtain ⟨processors, extraId⟩ := state
      cases rest with
      | nil => simp [placeChunks, pushLevels]
      | cons next rest =>
          rw [placeChunks]
          split
          · simp [ih, pushLevels]
          · simp [ih]

theorem length_buildProcessor {program : Program} {distributedLevels : IdTable} {physicalProcId : List Int}
    {state after : Processors × Int} {index : Nat}
    (step : buildProcessor program distributedLevels physicalProcId state index = some after) :
    after.1.length = state.1.length := by
  obtain ⟨stageId, _, step⟩ := Option.bind_eq_some_iff.mp step
  split at step
  · cases step
    rfl
  · obtain ⟨stage, _, step⟩ := Option.bind_eq_some_iff.mp step
    obtain ⟨levels, _, step⟩ := Option.bind_eq_some_iff.mp step
    cases step
    simp [length_placeChunks]

theorem length_allocateProcessors {program : Program} {distribution : DistributionResult}
    {memory : MemoryResult} {ipsa : Ipsa}
    (done : allocateProcessors program distribution memory = some ipsa) :
    ipsa.processors.length = IpsaConfiguration.procCount := by
  obtain ⟨processors, build, done⟩ := Option.bind_eq_some_iff.mp done
  obtain ⟨⟨_, extraId⟩, loop, same⟩ := Option.bind_eq_some_iff.mp build
  cases same
  have length := foldlM_preserves (fun state => state.1.length = IpsaConfiguration.procCount)
    (fun state index after _ holds step => (length_buildProcessor step).trans holds) loop (by simp)
  cases done
  rw [renameDefaults_processors, List.length_map]
  exact length

theorem Rp4Task.length_processors {sort : (Int → Int → Bool) → List Int → List Int} {prev : Option Rp4Task}
    {builder : IpsaBuilder} {task : Rp4Task} (done : Rp4Task.allocate sort prev builder = some task) :
    task.ipsa.processors.length = IpsaConfiguration.procCount := by
  obtain ⟨distribution, _, done⟩ := Option.bind_eq_some_iff.mp done
  obtain ⟨⟨memory, isIncremental⟩, _, done⟩ := Option.bind_eq_some_iff.mp done
  obtain ⟨ipsa, allocated, same⟩ := Option.bind_eq_some_iff.mp done
  cases same
  exact length_allocateProcessors allocated

/-! ### The file -/

variable {Scanner : Type} {parse : Scanner → String → Option Rp4Tree × Scanner}
  {sort : (Int → Int → Bool) → List Int → List Int}

namespace Rp4Runtime
open Compiler.Rp4Runtime

/-- A compile of any kind keeps the task that it writes. -/
theorem emitTask_task {runtime next : Rp4Runtime Scanner} {file : Option String} {document : Document}
    (run : emitTask parse sort runtime file = some (next, .document document)) :
    ∃ builder task, Rp4Task.allocate sort runtime.nowTask builder = some task ∧ next.nowTask = some task ∧
      task.document = some document := by
  have finish {scanner : Scanner} {builder : IpsaBuilder}
      (run : (do
        let task ← Rp4Task.allocate sort runtime.nowTask builder
        let document ← task.document
        return (⟨scanner, some task⟩, Output.document document)) = some (next, .document document)) :
      ∃ task, Rp4Task.allocate sort runtime.nowTask builder = some task ∧ next.nowTask = some task ∧
        task.document = some document := by
    obtain ⟨task, allocated, run⟩ := Option.bind_eq_some_iff.mp run
    obtain ⟨emitted, isEmitted, same⟩ := Option.bind_eq_some_iff.mp run
    cases same
    exact ⟨task, allocated, rfl, isEmitted⟩
  cases file with
  | none => cases run
  | some text =>
      cases tree : (parse runtime.scanner text).1 with
      | none =>
          simp only [emitTask, tree] at run
          exact ⟨_, finish run⟩
      | some tree' =>
          simp only [emitTask, tree] at run
          obtain ⟨builder, _, run⟩ := Option.bind_eq_some_iff.mp run
          exact ⟨_, finish run⟩

/-- At any point of a session, and whether a compile is the first, an update or starts anew. -/
theorem extract_configuration_file {runtime next : Rp4Runtime Scanner} {file : Option String}
    {document : Document} (run : emitTask parse sort runtime file = some (next, .document document))
    {task : Rp4Task} (kept : next.nowTask = some task) {value : IpsaValue}
    (written : task.ipsa.document task.isIncremental task.metadata = some value) (fits : value.Fits) :
    Json.parse (IpsaOutput.emit 0 value) = some value.toJson ∧
      DesignFile.extract (IpsaOutput.emit 0 value) =
        InitDataplane.extract document.processors document.metadata := by
  obtain ⟨builder, made, allocated, isTask, isDocument⟩ := emitTask_task run
  rw [kept] at isTask
  cases isTask
  obtain ⟨docs, isDocs, same⟩ := Option.bind_eq_some_iff.mp isDocument
  cases same
  obtain ⟨read, isRead, extracted⟩ :=
    Controller.DesignFile.extract_emit (Rp4Task.length_processors allocated) written fits
  cases isRead.symm.trans isDocs
  exact ⟨IpsaOutput.parse_emit (plain_document written) fits 0, extracted⟩

/-- The file of a program with one stage and one table. -/
theorem extract_sample_file :
    ∃ next task document value requests,
      emitTask sampleParse (fun _ items => items) ⟨"", none⟩ (some sampleText) = some (next,
        .document document) ∧
      next.nowTask = some task ∧ task.ipsa.document task.isIncremental task.metadata = some value ∧
      DesignFile.extract (IpsaOutput.emit 0 value) = some requests ∧ 4 < requests.length := by
  have facts : ((emitTask sampleParse (fun _ items => items) ⟨"", none⟩ (some sampleText)).bind fun result =>
      match result.2 with
      | .document document => result.1.nowTask.bind fun task =>
          (task.ipsa.document task.isIncremental task.metadata).bind fun value =>
            (InitDataplane.extract document.processors document.metadata).map fun requests =>
              (decide value.Fits, decide (4 < requests.length))
      | _ => none) = some (true, true) := by
    decide +kernel
  obtain ⟨⟨next, output⟩, run, facts⟩ := Option.bind_eq_some_iff.mp facts
  cases output with
  | document document =>
      obtain ⟨task, kept, facts⟩ := Option.bind_eq_some_iff.mp facts
      obtain ⟨value, written, facts⟩ := Option.bind_eq_some_iff.mp facts
      obtain ⟨requests, extracted, facts⟩ := Option.map_eq_some_iff.mp facts
      obtain ⟨fits, many⟩ := Prod.mk.inj facts
      obtain ⟨_, read⟩ := extract_configuration_file run kept written (of_decide_eq_true fits)
      exact ⟨next, task, document, value, requests, run, kept, written, read.trans extracted,
        of_decide_eq_true many⟩
  | update updater => cases facts
  | empty => cases facts

end Rp4Runtime

end Ipbm.System
