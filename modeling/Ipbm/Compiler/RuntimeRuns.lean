import Ipbm.Compiler.BuilderProperties
import Ipbm.Compiler.HeaderManager
import Ipbm.Compiler.Incremental
import Ipbm.Compiler.Runtime
import Ipbm.Lib.Omission

/-! Runs of the compiler's runtime (`rp4_runtime.h`, `rp4c.cpp`): compiles replace the
task that later compiles and table commands are based on, and a compile that fails
does so as well. -/

set_option autoImplicit false

namespace Ipbm.Compiler
open Lib Dataplane IpsaConfiguration

/-- What `yyparse` leaves of an accepted text. -/
structure Rp4Tree where
  headerDefs : List HeaderDef
  structDefs : List StructDef
  states : List StateDef
  ast : Ast

/-- A builder before its allocations. -/
structure IpsaBuilder where
  headers : HeaderManager
  metadata : List MetadataEntry
  program : Program

namespace IpsaBuilder

def empty : IpsaBuilder := ⟨{}, [], ⟨[], [], [], ⟨[], []⟩, []⟩⟩

def load (tree : Rp4Tree) : Option IpsaBuilder := do
  let headers := HeaderManager.load tree.headerDefs tree.structDefs
  let levels ← LevelManager.load headers tree.states
  let program ← Compiler.load headers.lookup levels tree.ast
  return ⟨headers, headers.metadata, program⟩

def getHeader (builder : IpsaBuilder) (name : String) : Option Int :=
  (builder.headers.getHeader name).map Header.headerId

end IpsaBuilder

structure Rp4Task where
  distribution : DistributionResult
  memory : MemoryResult
  ipsa : Ipsa
  isIncremental : Nat
  metadata : List MetadataEntry

structure Document where
  isIncremental : Nat
  metadata : List MetadataEntry
  processors : List (Option ProcessorDoc)

namespace Rp4Task

/-- Both overloads of `allocateMemory`. A processor that the incremental one does not write is read
as zero afterwards. -/
def allocateMemory (prev : Option Rp4Task) (program : Program) (distribution : DistributionResult) :
    Option (MemoryResult × Nat) :=
  let full := (Compiler.allocateMemory program.tables program.stages.logicalStages
    distribution.topoSequence).map (·, 0)
  match prev with
  | none => full
  | some task =>
      match Incremental.allocateMemory task.ipsa.tables program.tables program.stages.logicalStages
        distribution.topoSequence with
      | .ok result => some (⟨result.tables, result.physicalProcId.map (·.getD 0)⟩, 1)
      | .error .refused => full
      | .error .undefined => none

def allocate (sort : (Int → Int → Bool) → List Int → List Int) (prev : Option Rp4Task)
    (builder : IpsaBuilder) :
    Option Rp4Task := do
  let distribution ← distributeParsers sort builder.getHeader builder.program.levels
    builder.program.stages.logicalStages
  let (memory, isIncremental) ← allocateMemory prev builder.program distribution
  let ipsa ← allocateProcessors builder.program distribution memory
  return { distribution, memory, ipsa, isIncremental, metadata := builder.metadata }

/-- No allocation prints an error: every stage has its place, and every run of levels a processor. -/
def allocated (task : Rp4Task) : Bool :=
  task.distribution.topoSequence.all (fun stageId => task.memory.physicalProcId.contains stageId) &&
    task.ipsa.processors.all fun processor =>
      processor.all fun processor => decide (processor.levels.length ≤ maxLevel)

def document (task : Rp4Task) : Option Document := do
  return ⟨task.isIncremental, task.metadata, ← task.ipsa.toIpsaValue⟩

end Rp4Task

/-- A file that cannot be read has no text. -/
inductive Command where
  | compile (file : Option String)
  | update (params : List String)
  deriving DecidableEq, Repr

inductive Output where
  | document (document : Document)
  | update (updater : TableUpdater)
  | empty

/-- The scanner keeps a buffer and a start condition from one text to the next. -/
structure Rp4Runtime (Scanner : Type) where
  scanner : Scanner
  nowTask : Option Rp4Task

namespace Rp4Runtime

variable {Scanner : Type} (parse : Scanner → String → Option Rp4Tree × Scanner)
  (sort : (Int → Int → Bool) → List Int → List Int)

/-- What `load` returns is not looked at. A file that cannot be read is closed all the same, which
ends the process. -/
def emitTask (runtime : Rp4Runtime Scanner) : Option String → Option (Rp4Runtime Scanner × Output)
  | none => none
  | some text => do
      let (tree, scanner) := parse runtime.scanner text
      let builder ← match tree with
        | none => some .empty
        | some tree => IpsaBuilder.load tree
      let task ← Rp4Task.allocate sort runtime.nowTask builder
      let document ← task.document
      return (⟨scanner, some task⟩, .document document)

/-- Without a task the file of the update is left empty. -/
def update (runtime : Rp4Runtime Scanner) (params : List String) : Option Output :=
  match runtime.nowTask with
  | none => some .empty
  | some task => (emitUpdate task.ipsa params).map .update

def step (runtime : Rp4Runtime Scanner) : Command → Option (Rp4Runtime Scanner × Output)
  | .compile file => emitTask parse sort runtime file
  | .update params => (runtime.update params).map (runtime, ·)

/-- A compile that cannot read its file, that meets a syntax error, or whose allocation leaves
something out. -/
def fails (runtime : Rp4Runtime Scanner) : Command → Bool
  | .update _ => false
  | .compile none => true
  | .compile (some text) =>
      match (parse runtime.scanner text).1 with
      | none => true
      | some tree =>
          match (IpsaBuilder.load tree).bind (Rp4Task.allocate sort runtime.nowTask) with
          | none => false
          | some task => !task.allocated

end Rp4Runtime

/-! ### Compiles that are no update of a task -/

/-- The incremental allocation against the task returns false. -/
def NoIncremental (sort : (Int → Int → Bool) → List Int → List Int) (prev : Option Rp4Task)
    (builder : IpsaBuilder) : Prop :=
  ∀ task distribution, prev = some task →
    distributeParsers sort builder.getHeader builder.program.levels builder.program.stages.logicalStages =
      some distribution →
    Incremental.allocateMemory task.ipsa.tables builder.program.tables builder.program.stages.logicalStages
      distribution.topoSequence = .error .refused

theorem NoIncremental.allocate {sort : (Int → Int → Bool) → List Int → List Int} {prev : Option Rp4Task}
    {builder : IpsaBuilder} (refused : NoIncremental sort prev builder) :
    Rp4Task.allocate sort prev builder = Rp4Task.allocate sort none builder := by
  cases prev with
  | none => rfl
  | some task =>
      unfold Rp4Task.allocate
      refine Option.bind_congr fun distribution distributed => ?_
      simp only [Rp4Task.allocateMemory, refused task distribution rfl distributed]

/-- Without old tables every stage is placed anew, which is refused. -/
theorem Incremental.refused_without_tables {tables : TableManager} {stages : List Stage} {first : Int}
    {topoSequence : List Int} (known : (Memory.tableSpace tables).isSome) :
    Incremental.allocateMemory [] tables stages (first :: topoSequence) = .error .refused := by
  obtain ⟨space, spaces⟩ := Option.isSome_iff_exists.mp known
  have clusters : ∀ (entries : TableManager) (procCluster : Int → Int),
      entries.foldlM (fixCluster []) procCluster = .ok procCluster := by
    intro entries
    induction entries with
    | nil => exact fun _ => rfl
    | cons entry rest ih => exact fun procCluster => ih procCluster
  have places : ∀ (ids : List Int) (placement : Placement), (∀ id ∈ ids, id ∈ first :: topoSequence) →
      ids.foldlM (placeFixed (Memory.procSpace space stages)
        (initialCluster (first :: topoSequence))) placement =
        .ok placement := by
    intro ids
    induction ids with
    | nil => exact fun _ _ => rfl
    | cons id rest ih =>
        intro placement listed
        have open_ : initialCluster (first :: topoSequence) id < 0 := by simp [initialCluster, listed id]
        have step : placeFixed (Memory.procSpace space stages)
          (initialCluster (first :: topoSequence)) placement id =
            .ok placement := if_pos open_
        rw [List.foldlM_cons, step]
        exact ih placement fun other member => listed other (List.mem_cons_of_mem _ member)
  have refused : (first :: topoSequence).forM (placeDynamic (initialCluster (first :: topoSequence))) =
      .error .refused := by
    have step : placeDynamic (initialCluster (first :: topoSequence)) first = .error .refused :=
      if_pos (by simp [initialCluster])
    change (do placeDynamic _ first; topoSequence.forM (placeDynamic _)) = _
    rw [step]
    rfl
  have next : ∀ {α β : Type} (value : α) (rest : α → Except Failure β), (.ok value >>= rest) = rest value :=
    fun _ _ => rfl
  unfold Incremental.allocateMemory
  rw [spaces]
  simp only [clusters, next, places _ _ fun _ member => member, refused]
  rfl

namespace Rp4Runtime

variable {Scanner : Type} {parse : Scanner → String → Option Rp4Tree × Scanner}
  {sort : (Int → Int → Bool) → List Int → List Int}

/-- The task of a first compile with a syntax error. -/
def emptyTask : Rp4Task where
  distribution := ⟨[], []⟩
  memory := ⟨[], List.replicate procCount (-1)⟩
  ipsa := ⟨List.replicate procCount none, [], [], [], []⟩
  isIncremental := 0
  metadata := []

/-- With a task, an empty program passes as an update of it, and stage 0 is looked up in vain. -/
theorem emitTask_syntaxError {runtime : Rp4Runtime Scanner} {text : String}
    (syntaxError : (parse runtime.scanner text).1 = none) :
    emitTask parse sort runtime (some text) =
      if runtime.nowTask.isNone then
        some (⟨(parse runtime.scanner text).2, some emptyTask⟩,
          .document ⟨0, [], List.replicate procCount none⟩)
      else none := by
  have same : emitTask parse sort runtime (some text) =
      (Rp4Task.allocate sort runtime.nowTask .empty).bind fun task => task.document.map fun document =>
        (⟨(parse runtime.scanner text).2, some task⟩, .document document) := by
    simp only [emitTask, syntaxError, Option.map_eq_bind]
    rfl
  rw [same]
  cases runtime.nowTask with
  | none => rfl
  | some task => rfl

/-- The next program is no update of it, if it has a stage. -/
theorem noIncremental_emptyTask {tree : Rp4Tree} {builder : IpsaBuilder}
    (done : IpsaBuilder.load tree = some builder)
    (known : (Memory.tableSpace builder.program.tables).isSome) {stage : Stage}
    (live : stage ∈ Distribution.liveStages builder.program.stages.logicalStages) :
    NoIncremental sort (some emptyTask) builder := by
  rintro task distribution ⟨⟩ distributed
  obtain ⟨levels, _, done⟩ := Option.bind_eq_some_iff.mp done
  obtain ⟨program, loaded, done⟩ := Option.bind_eq_some_iff.mp done
  cases done
  obtain ⟨-, -, order⟩ := distributeParsers_order (load_loaded loaded) distributed
  have listed := (order stage.stageId).mpr (List.mem_map_of_mem live)
  cases sequence : distribution.topoSequence with
  | nil =>
      rw [sequence] at listed
      cases listed
  | cons first rest => exact Incremental.refused_without_tables known

variable (parse) (sort)

/-- What the parser makes of texts that come one after the other. -/
def readings : Scanner → List String → List (Option Rp4Tree)
  | _, [] => []
  | scanner, text :: rest => (parse scanner text).1 :: readings (parse scanner text).2 rest

/-- Nothing left in the scanners tells them apart. -/
def SameReadings (first second : Scanner) : Prop :=
  ∀ texts, readings parse first texts = readings parse second texts

/-- A compile that is no update, neither of the one task nor of the other. -/
def ComesAnew (kept : Option Rp4Task) (runtime : Rp4Runtime Scanner) (command : Command) : Prop :=
  ∃ text, command = .compile (some text) ∧ ∀ tree builder, (parse runtime.scanner text).1 = some tree →
    IpsaBuilder.load tree = some builder → NoIncremental sort kept builder ∧
      NoIncremental sort runtime.nowTask builder

/-- A compile that fails is the last command, or it leaves nothing in the scanner and the process
alive. The next command that does not fail is then a compile that is no update of the task it left,
nor of the one that was kept before. -/
inductive Undisturbed : Option Rp4Task → Bool → Rp4Runtime Scanner → List Command → Prop where
  | nil (kept : Option Rp4Task) (failed : Bool) (runtime : Rp4Runtime Scanner) :
      Undisturbed kept failed runtime []
  | last {kept : Option Rp4Task} {failed : Bool} {runtime : Rp4Runtime Scanner} {command : Command}
      (leave : fails parse sort runtime command = true) : Undisturbed kept failed runtime [command]
  | failing {kept : Option Rp4Task} {failed : Bool} {runtime next : Rp4Runtime Scanner} {command : Command}
      {rest : List Command} {output : Output} (leave : fails parse sort runtime command = true)
      (done : step parse sort runtime command = some (next, output))
      (unread : SameReadings parse next.scanner runtime.scanner) (later : Undisturbed kept true next rest) :
      Undisturbed kept failed runtime (command :: rest)
  | other {kept : Option Rp4Task} {failed : Bool} {runtime : Rp4Runtime Scanner} {command : Command}
      {rest : List Command} (stay : fails parse sort runtime command = false)
      (anew : failed = true → ComesAnew parse sort kept runtime command)
      (later : ∀ next output, step parse sort runtime command = some (next, output) →
        Undisturbed next.nowTask false next rest) : Undisturbed kept failed runtime (command :: rest)

/-- The run next to the one without the compiles that fail. -/
structure Alongside (commands : List Command) (full short : Rp4Runtime Scanner) : Prop where
  scanner : SameReadings parse full.scanner short.scanner
  task : ∃ failed, Undisturbed parse sort short.nowTask failed full commands ∧
    (failed = false → full.nowTask = short.nowTask)

variable {parse sort}

theorem SameReadings.tree {first second : Scanner} (same : SameReadings parse first second) (text : String) :
    (parse first text).1 = (parse second text).1 := (List.cons.inj (same [text])).1

theorem SameReadings.next {first second : Scanner} (same : SameReadings parse first second) (text : String) :
    SameReadings parse (parse first text).2 (parse second text).2 :=
  fun texts => (List.cons.inj (same (text :: texts))).2

/-- A text that is accepted. -/
theorem emitTask_accepted {runtime : Rp4Runtime Scanner} {text : String} {tree : Rp4Tree}
    (accepted : (parse runtime.scanner text).1 = some tree) :
    emitTask parse sort runtime (some text) =
      ((IpsaBuilder.load tree).bind (Rp4Task.allocate sort runtime.nowTask)).bind fun task =>
        task.document.map fun document => (⟨(parse runtime.scanner text).2, some task⟩,
          .document document) := by
  simp only [emitTask, accepted, Option.map_eq_bind, Option.bind_assoc]
  rfl

section Together

variable {full short : Rp4Runtime Scanner} {rest : List Command}

private theorem update_together (scanner : SameReadings parse full.scanner short.scanner)
    (tasks : full.nowTask = short.nowTask) (params : List String)
    (later : ∀ next output, step parse sort full (.update params) = some (next, output) →
      Undisturbed parse sort next.nowTask false next rest) :
    Option.Rel (fun one two => one.2 = two.2 ∧ Alongside parse sort rest one.1 two.1)
      (step parse sort full (.update params)) (step parse sort short (.update params)) := by
  have outcome : full.update params = short.update params := by simp only [update, tasks]
  cases result : full.update params with
  | none => simp [step, ← outcome, result]
  | some output =>
      have done : step parse sort full (.update params) = some (full, output) := by simp [step, result]
      have shortDone : step parse sort short (.update params) = some (short, output) := by
        simp [step, ← outcome, result]
      rw [done, shortDone]
      exact .some ⟨rfl, scanner, false, tasks ▸ later full output done, fun _ => tasks⟩

/-- A text that is accepted leads to one task, where both tasks before it are the same or it is an
update of neither. -/
private theorem allocate_together {failed : Bool} {text : String} {tree : Rp4Tree}
    (same : failed = false → full.nowTask = short.nowTask)
    (anew : failed = true → ComesAnew parse sort short.nowTask full (.compile (some text)))
    (accepted : (parse full.scanner text).1 = some tree) :
    (IpsaBuilder.load tree).bind (Rp4Task.allocate sort full.nowTask) =
      (IpsaBuilder.load tree).bind (Rp4Task.allocate sort short.nowTask) := by
  refine Option.bind_congr fun builder loaded => ?_
  cases failed with
  | false => rw [same rfl]
  | true =>
      obtain ⟨_, here, refused⟩ := anew rfl
      cases here
      obtain ⟨ofShort, ofFull⟩ := refused tree builder accepted loaded
      exact ofFull.allocate.trans ofShort.allocate.symm

private theorem compile_together (scanner : SameReadings parse full.scanner short.scanner)
    {text : String} {tree : Rp4Tree} (accepted : (parse full.scanner text).1 = some tree)
    (allocated : (IpsaBuilder.load tree).bind (Rp4Task.allocate sort full.nowTask) =
      (IpsaBuilder.load tree).bind (Rp4Task.allocate sort short.nowTask))
    (later : ∀ next output, step parse sort full (.compile (some text)) = some (next, output) →
      Undisturbed parse sort next.nowTask false next rest) :
    Option.Rel (fun one two => one.2 = two.2 ∧ Alongside parse sort rest one.1 two.1)
      (step parse sort full (.compile (some text))) (step parse sort short (.compile (some text))) := by
  have done : step parse sort full (.compile (some text)) = _ := emitTask_accepted accepted
  have shortDone : step parse sort short (.compile (some text)) = _ :=
    emitTask_accepted ((scanner.tree text).symm.trans accepted)
  rw [← allocated] at shortDone
  cases compiled : (IpsaBuilder.load tree).bind (Rp4Task.allocate sort full.nowTask) with
  | none =>
      rw [done, shortDone, compiled]
      exact .none
  | some task =>
      rw [compiled] at done shortDone
      cases written : task.document with
      | none =>
          rw [done, shortDone, Option.bind_some, Option.bind_some, written]
          exact .none
      | some document =>
          rw [Option.bind_some, written] at done shortDone
          rw [done, shortDone]
          exact .some ⟨rfl, scanner.next text, false, later _ _ done, fun _ => rfl⟩

end Together

theorem unwinds : Unwinds (step parse sort) (fails parse sort) (Alongside parse sort) where
  left command rest full short related leave := by
    obtain ⟨failed, undisturbed, -⟩ := related.task
    cases undisturbed with
    | last _ => exact .inl rfl
    | @failing _ _ _ next _ _ output _ done unread later =>
        refine .inr ⟨next, output, done, fun texts => (unread texts).trans (related.scanner texts),
          true, later, ?_⟩
        intro impossible
        cases impossible
    | other stay _ _ => cases leave.symm.trans stay
  kept command rest full short related leave := by
    obtain ⟨failed, undisturbed, same⟩ := related.task
    obtain ⟨anew, later⟩ : (failed = true → ComesAnew parse sort short.nowTask full command) ∧
        ∀ next output, step parse sort full command = some (next, output) →
          Undisturbed parse sort next.nowTask false next rest := by
      cases undisturbed with
      | last fault => cases fault.symm.trans leave
      | failing fault _ _ _ => cases fault.symm.trans leave
      | other _ anew later => exact ⟨anew, later⟩
    cases command with
    | update params =>
        have clean : failed = false := by
          cases failed with
          | false => rfl
          | true =>
              obtain ⟨_, impossible, _⟩ := anew rfl
              cases impossible
        exact update_together related.scanner (same clean) params later
    | compile file =>
        cases file with
        | none => cases leave
        | some text =>
            cases accepted : (parse full.scanner text).1 with
            | none => simp [fails, accepted] at leave
            | some tree =>
                exact compile_together related.scanner accepted (allocate_together same anew accepted) later

variable (parse sort)

/-- Compiles that fail leave the other commands as they are, in every run whose failing compiles leave
nothing behind. -/
theorem failing_compiles_omitted (start : Scanner) (commands : List Command)
    (undisturbed : Undisturbed parse sort none false ⟨start, none⟩ commands) :
    observed (step parse sort) (fails parse sort) (some ⟨start, none⟩) commands =
      outputs (step parse sort) (some ⟨start, none⟩)
        (remaining (step parse sort) (fails parse sort) (some ⟨start, none⟩) commands) :=
  unwinds.observed_eq ⟨fun _ => rfl, false, undisturbed, fun _ => rfl⟩

def sampleText : String :=
  "header h_t \x7b bit<8> f; \x7d struct headers \x7b h_t h; \x7d hdr; " ++
  "parser P(packet_in packet) \x7b \x7d actions \x7b action act() \x7b \x7d \x7d " ++
  "tables \x7b table t \x7b key = \x7b hdr.h.f : exact; \x7d size = 1024; value_width = 16; \x7d \x7d " ++
  "control ingress \x7b stage a \x7b parser \x7b \x7d; " ++
  "matcher \x7b switch(1) \x7b default : table(t); \x7d \x7d; executor \x7b \x7d; \x7d \x7d " ++
  "control egress \x7b \x7d"

def sampleTree : Rp4Tree where
  headerDefs := [⟨"h_t", [⟨.bit 8, "f"⟩]⟩]
  structDefs := [{ fields := [⟨.named "h_t", "h"⟩], name := "hdr", isHeader := true }]
  states := []
  ast := {
    actions := [⟨"act", [], []⟩]
    tables :=
      [{ name := "t", keys := [(.field "hdr" "h" "f", .exact)],
         optionalStmts := [.size 1024, .valueWidth 16] }]
    ingress :=
      [{ name := "a", parser := [], matcher := ⟨[.literal 1], [⟨.default, .table "t"⟩]⟩, executor := [] }]
    egress := [] }

/-- The parser on the program above and on a line with a lone brace, where the line's end stays
unread. -/
def sampleParse (_ : String) (text : String) : Option Rp4Tree × String :=
  if text = sampleText then (some sampleTree, "") else (none, "\n")

/-- A first compile with a syntax error. -/
theorem failing_compiles_omitted_first :
    let commands : List Command := [.compile (some "\x7d\n"), .compile (some sampleText)]
    let step := step sampleParse fun _ items => items
    let fails := fails sampleParse fun _ items => items
    observed step fails (some ⟨"", none⟩) commands =
        outputs step (some ⟨"", none⟩) (remaining step fails (some ⟨"", none⟩) commands) ∧
      (observed step fails (some ⟨"", none⟩) commands).map Option.isSome = [true] := by
  have first : fails sampleParse (fun _ items => items) ⟨"", none⟩ (.compile (some "\x7d\n")) =
    true := by decide
  have step : step sampleParse (fun _ items => items) ⟨"", none⟩ (.compile (some "\x7d\n")) =
      some (⟨"\n", some emptyTask⟩, .document ⟨0, [], List.replicate procCount none⟩) := rfl
  have second : fails sampleParse (fun _ items => items) ⟨"\n", some emptyTask⟩
      (.compile (some sampleText)) = false := by
    decide +kernel
  have isTree : (sampleParse "\n" sampleText).1 = some sampleTree := by simp [sampleParse]
  have anew : ComesAnew sampleParse (fun _ items => items) none ⟨"\n", some emptyTask⟩
      (.compile (some sampleText)) := by
    refine ⟨sampleText, rfl, fun tree builder accepted loaded => ?_⟩
    rw [isTree] at accepted
    cases accepted
    have facts : ((IpsaBuilder.load sampleTree).map fun builder =>
        ((Memory.tableSpace builder.program.tables).isSome,
          (Distribution.liveStages builder.program.stages.logicalStages).map
            Stage.stageId)) = some (true, [0]) := by
      decide
    rw [loaded] at facts
    obtain ⟨known, ids⟩ := Prod.mk.inj (Option.some.inj facts)
    obtain ⟨stage, live, -⟩ := List.mem_map.mp (ids ▸ List.mem_singleton_self (0 : Int))
    refine ⟨?_, noIncremental_emptyTask loaded known live⟩
    intro task distribution impossible
    cases impossible
  have unread : SameReadings sampleParse "\n" "" := by
    intro texts
    cases texts <;> rfl
  have later : Undisturbed sampleParse (fun _ items => items) none true ⟨"\n", some emptyTask⟩
      [.compile (some sampleText)] := .other second (fun _ => anew) fun _ _ _ => .nil _ _ _
  exact ⟨failing_compiles_omitted _ _ _ _ (.failing first step unread later), by decide +kernel⟩

/-- A syntax error after a program was compiled ends the process, and the table command with it. -/
theorem not_failing_compiles_omitted :
    let commands : List Command :=
      [.compile (some sampleText), .compile (some "\x7d\n"), .update ["table_add", "t", "act", "7", "=>"]]
    let step := step sampleParse fun _ items => items
    let fails := fails sampleParse fun _ items => items
    observed step fails (some ⟨"", none⟩) commands ≠
      outputs step (some ⟨"", none⟩) (remaining step fails (some ⟨"", none⟩) commands) := by
  intro commands step fails same
  have full : (observed step fails (some ⟨"", none⟩) commands).map Option.isSome =
    [true, false] := by decide +kernel
  have short : (outputs step (some ⟨"", none⟩)
    (remaining step fails (some ⟨"", none⟩) commands)).map Option.isSome =
      [true, true] := by decide +kernel
  rw [same, short] at full
  cases full

end Rp4Runtime

end Ipbm.Compiler
