import Ipbm.Compiler.Compilation
import Ipbm.Controller.ExtractProperties

/-! Tables without keys, from their declaration to the matcher. The compiler marks
such a table and leaves the sizes of its memories without a value; the controller
reads the mark but sends the sizes only, as for any other table. -/

set_option autoImplicit false

namespace Ipbm.System
open Lib Dataplane Compiler Controller

/-- What the members `width` and `depth` of a table's memories hold if nothing is written to them. -/
structure Leftover where
  keyWidth : Nat
  keyDepth : Nat
  valueWidth : Nat
  valueDepth : Nat

def settleMemory (memory : TableMemory) (width depth : Nat) : TableMemory :=
  { memory with width := some (memory.width.getD width), depth := some (memory.depth.getD depth) }

def settleTable (leftover : Leftover) (table : Table) : Table :=
  { table with
    keyMemory := settleMemory table.keyMemory leftover.keyWidth leftover.keyDepth
    valueMemory := settleMemory table.valueMemory leftover.valueWidth leftover.valueDepth }

/-- The program the later passes of the compiler see. -/
def settle (leftover : Int → Leftover) (program : Program) : Program :=
  { program with
      tables := program.tables.map fun entry => (entry.1, settleTable (leftover entry.2.tableId) entry.2) }

/-- The passes behind `load`. -/
def emitProgram (sort : (Int → Int → Bool) → List Int → List Int) (getHeader : String → Option Int)
    (program : Program) : Option (List (Option ProcessorDoc)) := do
  let distribution ← distributeParsers sort getHeader program.levels program.stages.logicalStages
  let memory ← allocateMemory program.tables program.stages.logicalStages distribution.topoSequence
  (← allocateProcessors program distribution memory).toIpsaValue

/-- A matcher misses on every packet, whatever the memory holds, and selects the given action. -/
def AlwaysMisses (pipeline : Pipeline) (procId matcherId missActionId : Int) : Prop :=
  ∃ processor, pipeline.proc procId = some processor ∧ ∀ memory scratch phv, ∃ after,
    processor.matcher.execute memory scratch matcherId phv = some after ∧ after.hit = false ∧
      after.nextActionId = missActionId

/-! ### In the data plane -/

private theorem hit_of_keyless {memory : Memory} {scratch : Nat → UInt8} {thread : MatcherThread}
    {phv after : Phv} (fields : thread.fdInfos = []) (type : thread.matchType = .exact)
    (run : thread.generateMatchKeyAndMatch memory scratch phv = some after) : after.hit = true := by
  have key : thread.matchKey phv = some [] := by
    simp only [MatcherThread.matchKey, fields]
    rfl
  simp only [MatcherThread.generateMatchKeyAndMatch, key, Option.bind_eq_bind, Option.bind_some] at run
  obtain ⟨found, looked, run⟩ := Option.bind_eq_some_iff.mp run
  rw [MatcherThread.getMatchRes, type] at looked
  obtain ⟨slice, _, looked⟩ := Option.bind_eq_some_iff.mp looked
  obtain ⟨keySeq, _, looked⟩ := Option.bind_eq_some_iff.mp looked
  obtain ⟨valueSeq, _, looked⟩ := Option.bind_eq_some_iff.mp looked
  simp only [MatcherThread.sameKey, Option.bind_eq_bind, Option.bind_some, if_pos, Option.pure_def] at looked
  cases looked
  obtain ⟨high, _, run⟩ := Option.bind_eq_some_iff.mp run
  obtain ⟨low, _, run⟩ := Option.bind_eq_some_iff.mp run
  cases run
  rfl

private theorem not_alwaysMisses {pipeline : Pipeline} {procId matcherId missActionId : Int}
    {thread : MatcherThread} (found : pipeline.threadAt procId matcherId = some thread)
    (table : thread.noTable = false) (fields : thread.fdInfos = []) (type : thread.matchType = .exact) :
    ¬AlwaysMisses pipeline procId matcherId missActionId := by
  rintro ⟨processor, here, misses⟩
  obtain ⟨after, run, miss, -⟩ := misses .fresh (fun _ => 0) .fresh
  rw [Pipeline.threadAt, here] at found
  simp only [Option.bind_eq_bind, Option.bind_some] at found
  simp only [Matcher.execute, found, table, Option.bind_eq_bind, Option.bind_some,
    Bool.false_eq_true, if_false] at run
  rw [hit_of_keyless fields type run] at miss
  cases miss

private theorem threadAt_extractThread {pipeline after : Pipeline} {procId : Int} {table : Table}
    {requests : List Request} (sent : extractThread procId table = some requests)
    (run : pipeline.configure requests = some after) :
    ∃ thread, after.threadAt procId table.id = some thread ∧ thread.noTable = false ∧
      thread.fdInfos = table.fieldInfos.map sentField ∧ thread.matchType = table.matchType := by
  obtain ⟨depth, _, sent⟩ := Option.bind_eq_some_iff.mp sent
  obtain ⟨keyWidth, _, sent⟩ := Option.bind_eq_some_iff.mp sent
  obtain ⟨keyConfig, _, sent⟩ := Option.bind_eq_some_iff.mp sent
  obtain ⟨valueWidth, _, sent⟩ := Option.bind_eq_some_iff.mp sent
  obtain ⟨valueConfig, _, sent⟩ := Option.bind_eq_some_iff.mp sent
  cases sent
  simp only [Pipeline.configure, List.foldlM_cons, List.foldlM_nil, Pipeline.apply, Option.bind_eq_bind,
    Option.bind_eq_some_iff, Option.pure_def, Option.some.injEq] at run
  obtain ⟨first, config, second, actions, third, fields, rfl⟩ := run
  obtain ⟨_, _, configured, _, step, there⟩ := Pipeline.threadAt_atThread config
  obtain ⟨_, _, mapped, same, actionStep, there'⟩ := Pipeline.threadAt_atThread actions
  obtain ⟨_, _, final, same', fieldStep, there''⟩ := Pipeline.threadAt_atThread fields
  cases there.symm.trans same
  cases actionStep
  cases there'.symm.trans same'
  cases fieldStep
  obtain ⟨isTable, type, -⟩ := Pipeline.setMemConfig_thread step
  exact ⟨_, there'', isTable, rfl, type⟩

/-! ### In the compiler -/

private theorem declared_settle (leftover : Int → Leftover) (program : Program) :
    (settle leftover program).tables.map declaredEntry = program.tables.map declaredEntry := by
  rw [settle, List.map_map]
  rfl

private theorem declared_emitProgram {sort : (Int → Int → Bool) → List Int → List Int}
    {getHeader : String → Option Int} {program : Program} {docs : List (Option ProcessorDoc)}
    (nodup : (program.tables.map fun entry => entry.2.tableId).Nodup)
    (emitted : emitProgram sort getHeader program = some docs) {index : Nat} {doc : ProcessorDoc}
    (here : docs[index]? = some (some doc)) {table : Table} (member : table ∈ doc.matcher) :
    ∃ entry ∈ program.tables, entry.2.declared = table.declared := by
  obtain ⟨distribution, _, emitted⟩ := Option.bind_eq_some_iff.mp emitted
  obtain ⟨memory, allocated, emitted⟩ := Option.bind_eq_some_iff.mp emitted
  obtain ⟨ipsa, processors, emitted⟩ := Option.bind_eq_some_iff.mp emitted
  obtain ⟨built, _, processors⟩ := Option.bind_eq_some_iff.mp processors
  cases processors
  obtain ⟨name, inside⟩ := mem_tables_of_doc emitted here member
  have same := (TableManager.declared_reorderStages memory.tables (Builder.procProc built)).trans
    (declared_allocateMemory nodup allocated)
  have listed : declaredEntry (name, table) ∈ program.tables.map declaredEntry :=
    same ▸ List.mem_map_of_mem inside
  obtain ⟨entry, found, equal⟩ := List.mem_map.mp listed
  exact ⟨entry, found, congrArg Prod.snd equal⟩

/-- An emitted table is declared as the table of its id was made from the source. -/
theorem emitted_made {headers : HeaderLookup} {levels : List Level} {ast : Ast} {program : Program}
    (done : load headers levels ast = some program) (leftover : Int → Leftover)
    {sort : (Int → Int → Bool) → List Int → List Int} {getHeader : String → Option Int}
    {docs : List (Option ProcessorDoc)}
    (emitted : emitProgram sort getHeader (settle leftover program) = some docs)
    {index : Nat} {doc : ProcessorDoc} (here : docs[index]? = some (some doc)) {table : Table}
    (member : table ∈ doc.matcher) :
    ∃ (actions : ActionManager) (position : Nat) (tableDef : TableDef) (source : Table),
      ast.tables[position]? = some tableDef ∧ table.tableId = position ∧
        TableManager.makeTable headers actions position tableDef = some source ∧
        source.declared = table.declared := by
  have settled := declared_settle leftover program
  have nodup : ((settle leftover program).tables.map fun entry => entry.2.tableId).Nodup :=
    tableIds_of_declared settled ▸ (load_loaded done).tableIds
  obtain ⟨entry, inside, same⟩ := declared_emitProgram nodup emitted here member
  obtain ⟨actions, tables, loaded, kept⟩ := declared_load done
  have listed : declaredEntry entry ∈ tables.map declaredEntry :=
    (settled.trans kept) ▸ List.mem_map_of_mem inside
  obtain ⟨source, found, equal⟩ := List.mem_map.mp listed
  obtain ⟨position, sourceDef, sourceDeclared, -, made⟩ := TableManager.load_made loaded found
  have whole : source.2.declared = table.declared := (congrArg Prod.snd equal).trans same
  have id : source.2.declared.tableId = table.declared.tableId := by rw [whole]
  change source.2.tableId = table.tableId at id
  rw [TableManager.makeTable_tableId made] at id
  exact ⟨actions, position, sourceDef, source.2, sourceDeclared, id.symm, made, whole⟩

private theorem keyless_declared {headers : HeaderLookup} {levels : List Level} {ast : Ast}
    {program : Program} (done : load headers levels ast = some program) (leftover : Int → Leftover)
    {sort : (Int → Int → Bool) → List Int → List Int} {getHeader : String → Option Int}
    {docs : List (Option ProcessorDoc)}
    (emitted : emitProgram sort getHeader (settle leftover program) = some docs)
    {index : Nat} {doc : ProcessorDoc} (here : docs[index]? = some (some doc)) {table : Table}
    (member : table ∈ doc.matcher) {position : Nat} {tableDef : TableDef}
    (declared : ast.tables[position]? = some tableDef) (number : table.tableId = position)
    (keyless : tableDef.keys = []) : table.fieldInfos = [] ∧ table.matchType = .exact := by
  obtain ⟨actions, at_, sourceDef, source, sourceDeclared, id, made, whole⟩ :=
    emitted_made done leftover emitted here member
  obtain rfl : at_ = position := Int.ofNat.inj (id.symm.trans number)
  cases sourceDeclared.symm.trans declared
  rw [TableManager.makeTable, if_pos keyless] at made
  rw [← Option.some.inj made] at whole
  have fields : table.declared.fieldInfos = [] := by rw [← whole]; rfl
  have type : table.declared.matchType = .exact := by rw [← whole]; rfl
  exact ⟨fields, type⟩

/-! ### End to end -/

private theorem keyless_hits {headers : HeaderLookup} {levels : List Level} {ast : Ast} {program : Program}
    (done : load headers levels ast = some program) (leftover : Int → Leftover)
    {sort : (Int → Int → Bool) → List Int → List Int} {getHeader : String → Option Int}
    {docs : List (Option ProcessorDoc)}
    (emitted : emitProgram sort getHeader (settle leftover program) = some docs)
    {metadata : List MetadataEntry} {requests : List Request}
    (sent : InitDataplane.extract docs metadata = some requests) {pipeline after : Pipeline}
    (pushed : pipeline.configure requests = some after) {procId : Nat} {doc : ProcessorDoc}
    (here : docs[procId]? = some (some doc)) {before later : List Table} {table : Table}
    (listed : doc.matcher = before ++ table :: later) (own : ∀ other ∈ later, other.id ≠ table.id)
    {position : Nat} {tableDef : TableDef} (declared : ast.tables[position]? = some tableDef)
    (number : table.tableId = position) (keyless : tableDef.keys = []) :
    ¬AlwaysMisses after procId table.id table.missActionId := by
  have member : table ∈ doc.matcher := listed ▸ List.mem_append_right _ List.mem_cons_self
  obtain ⟨noFields, exact⟩ := keyless_declared done leftover emitted here member declared number keyless
  obtain ⟨front, thread, back, rfl, isThread, others⟩ := InitDataplane.extract_split sent here listed
  obtain ⟨configured, run, last⟩ := Pipeline.configure_append pushed
  obtain ⟨middle, _, run⟩ := Pipeline.configure_append run
  obtain ⟨final, found, isTable, fields, type⟩ := threadAt_extractThread isThread run
  have kept : after.threadAt procId table.id = configured.threadAt procId table.id := by
    refine Pipeline.threadAt_configure (fun request inside addresses => ?_) last
    obtain ⟨other, isLater, same⟩ := others request inside table.id addresses
    exact own other isLater same
  rw [noFields] at fields
  exact not_alwaysMisses (kept.trans found) isTable fields (type.trans exact)

/-- A table without keys never runs its default action for every packet: the thread that its
document sets up either hits or divides by zero, whatever its sizes happen to be. -/
theorem keyless_never {headers : HeaderLookup} {levels : List Level} {ast : Ast} {program : Program}
    (done : load headers levels ast = some program) (leftover : Int → Leftover)
    {sort : (Int → Int → Bool) → List Int → List Int} {getHeader : String → Option Int}
    {docs : List (Option ProcessorDoc)}
    (emitted : emitProgram sort getHeader (settle leftover program) = some docs)
    {metadata : List MetadataEntry} {requests : List Request}
    (sent : InitDataplane.extract docs metadata = some requests) {pipeline after : Pipeline}
    (pushed : pipeline.configure requests = some after) {procId : Nat} {doc : ProcessorDoc}
    (here : docs[procId]? = some (some doc)) {before later : List Table} {table : Table}
    (listed : doc.matcher = before ++ table :: later) (own : ∀ other ∈ later, other.id ≠ table.id)
    {position : Nat} {tableDef : TableDef} (declared : ast.tables[position]? = some tableDef)
    (number : table.tableId = position) (keyless : tableDef.keys = []) :
    ¬AlwaysMisses after procId table.id table.missActionId :=
  keyless_hits done leftover emitted sent pushed here listed own declared number keyless

/-- One table without keys and one stage that names it. -/
def keylessAst : Ast where
  actions := [{ name := "nop", parameters := [], expressions := [] }]
  tables := [{ name := "t", keys := [], optionalStmts := [.defaultAction "nop"] }]
  ingress := [
    { name := "a", parser := [], executor := [⟨"nop", ""⟩, ⟨"nop", ""⟩],
      matcher := ⟨[], [⟨.default, .table "t"⟩]⟩ }]
  egress := []

def keylessProgram : Program := (load (fun _ => none) [] keylessAst).get (by decide)

def keylessLeftover : Int → Leftover := fun _ => ⟨1, 1, 1, 1⟩

def keylessDocs : List (Option ProcessorDoc) :=
  (emitProgram (fun _ items => items) (fun _ => none) (settle keylessLeftover keylessProgram)).get (by decide)

def keylessDoc : ProcessorDoc := ((keylessDocs[0]?).join).get (by decide)

def keylessTable : Table := keylessDoc.matcher.head (by decide)

def keylessRequests : List Request := (InitDataplane.extract keylessDocs [⟨31, 0, 20⟩]).get (by decide)

def keylessPipeline : Pipeline := (Pipeline.fresh.configure keylessRequests).get (by decide)

theorem keyless_never_default : ¬AlwaysMisses keylessPipeline 0 0 0 :=
  @keyless_never (fun _ => none) [] keylessAst keylessProgram rfl keylessLeftover (fun _ items => items)
    (fun _ => none) keylessDocs rfl [⟨31, 0, 20⟩] keylessRequests rfl .fresh keylessPipeline rfl 0
    keylessDoc rfl [] []
    keylessTable rfl (by simp) 0 _ rfl rfl rfl

theorem keyless_runs_other : ¬AlwaysMisses keylessPipeline 0 0 0 :=
  @keyless_hits (fun _ => none) [] keylessAst keylessProgram rfl keylessLeftover (fun _ items => items)
    (fun _ => none) keylessDocs rfl [⟨31, 0, 20⟩] keylessRequests rfl .fresh keylessPipeline rfl 0
    keylessDoc rfl [] []
    keylessTable rfl (by simp) 0 _ rfl rfl rfl

end Ipbm.System
