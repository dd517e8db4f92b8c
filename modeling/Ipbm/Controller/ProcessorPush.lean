import Ipbm.Controller.ExtractProperties
import Ipbm.Dataplane.Overwriting

/-! The requests of `extract`, processor by processor, and the pipeline they leave. -/

set_option autoImplicit false

namespace Ipbm.Controller
open Lib Dataplane Compiler

/-! ### The calls of one document -/

def tableConfig (table : Table) : Option Pipeline.MemConfig := do
  let depth ← table.keyMemory.depth >>= natural
  let keyWidth ← table.keyMemory.width >>= natural
  let keyConfig ← configBytes table.keyMemory depth
  let valueWidth ← table.valueMemory.width >>= natural
  let valueConfig ← configBytes table.valueMemory depth
  return {
    keyWidth, valueWidth, depth, keyConfig, valueConfig
    matchType := table.matchType
    missActId := table.missActionId }

def tableCalls (table : Table) : Option (List (Int × ThreadRequest)) := do
  let config ← tableConfig table
  return [
    (table.id, .setMemConfig config),
    (table.id, .setActionProc table.actionToProc),
    (table.id, .setFieldInfo (table.fieldInfos.map sentField))]

def levelCalls (levels : List Level) : List (Nat × ParserEntry) :=
  levels.zipIdx.flatMap fun pair => pair.1.map fun entry => (pair.2, modParserEntry entry)

def actionCall (action : Compiler.Action) : Option (Int × Dataplane.Action) := do
  return ((action.id : Int), ← extractAction action)

/-- What a document asks of its processor. -/
def processorCalls (doc : ProcessorDoc) : Option ProcessorCalls := do
  let gateway ← extractGateway doc.gateway
  let matcher ← doc.matcher.mapM tableCalls
  let executor ← doc.executor.mapM actionCall
  return { parserLevel := doc.levels.length, entries := levelCalls doc.levels, gateway,
           matcher := matcher.flatten, executor }

theorem extractThread_calls {procId : Int} {table : Table} : extractThread procId table =
    (tableCalls table).map fun calls => calls.map fun pair => pair.2.request procId pair.1 := by
  simp only [extractThread, tableCalls, tableConfig, Option.bind_eq_bind, Option.bind_assoc, Option.map_bind,
    Function.comp_def, Option.pure_def, Option.bind_some, Option.map_some]
  rfl

theorem extractParser_calls (levels : List Level) (procId : Int) : extractParser levels procId =
    (ParserCall.initParserLevel levels.length :: (levelCalls levels).map fun pair =>
      .modifyParserEntryDirect pair.1 pair.2).map (·.request procId) := by
  rw [extractParser, levelCalls, List.map_cons, List.map_map, List.map_flatMap]
  congr 1
  refine List.flatMap_congr fun pair _ => ?_
  rw [List.map_map]
  rfl

private theorem extractMatcher_calls (tables : List Table) (procId : Int) : extractMatcher tables procId =
    (tables.mapM tableCalls).map fun calls => calls.flatten.map fun pair => pair.2.request procId pair.1 := by
  have threads : extractThread procId = fun table =>
      (tableCalls table).map fun calls => calls.map fun pair => pair.2.request procId pair.1 := by
    funext table
    exact extractThread_calls
  rw [extractMatcher, threads, mapM_map]
  cases tables.mapM tableCalls with
  | none => rfl
  | some calls => exact congrArg some List.map_flatten.symm

private theorem extractExecutor_calls (actions : List Compiler.Action) (procId : Int) :
    extractExecutor actions procId =
    (actions.mapM actionCall).map (List.map fun pair => .insertAction procId pair.1 pair.2) := by
  rw [← mapM_map, extractExecutor]
  congr 1
  funext action
  rw [actionCall]
  cases extractAction action <;> rfl

/-- The requests about a processor are those of its document's calls, and the metadata. -/
theorem extractProcessor_calls (metadata : List MetadataEntry) (procId : Int) (doc : ProcessorDoc) :
    extractProcessor metadata procId doc =
      (processorCalls doc).map fun calls => calls.requests procId ++ [extractMetadata metadata] := by
  rw [extractProcessor, processorCalls, extractMatcher_calls, extractExecutor_calls, extractParser_calls]
  cases extractGateway doc.gateway with
  | none => rfl
  | some gateway =>
      cases doc.matcher.mapM tableCalls with
      | none => rfl
      | some matcher => cases doc.executor.mapM actionCall <;> rfl

/-- A push writes no entry. -/
theorem extract_silent {docs : List (Option ProcessorDoc)} {metadata : List MetadataEntry}
    {requests : List Request} (sent : InitDataplane.extract docs metadata = some requests) :
    ∀ request ∈ requests, ¬request.Inserts := by
  obtain ⟨lists, run, sent⟩ := Option.bind_eq_some_iff.mp sent
  cases sent
  intro request member
  obtain ⟨own, isOwn, inOwn⟩ := List.mem_flatten.mp member
  obtain ⟨⟨entry, index⟩, _, here⟩ := mem_of_mapM_some run isOwn
  cases entry with
  | none =>
      cases here
      cases inOwn
  | some doc =>
      have here : extractProcessor metadata index doc = some own := here
      rw [extractProcessor_calls] at here
      obtain ⟨calls, _, rfl⟩ := Option.map_eq_some_iff.mp here
      simp only [ProcessorCalls.requests, List.mem_append, List.mem_map, List.mem_singleton,
        or_assoc] at inOwn
      rcases inOwn with ⟨call, _, rfl⟩ | ⟨gate, _, rfl⟩ | ⟨pair, _, rfl⟩ | ⟨pair, _, rfl⟩ | rfl
      · cases call <;> exact id
      · exact id
      · obtain ⟨matcherId, request⟩ := pair
        cases request <;> exact id
      · exact id
      · exact id

/-- A push configures the memory of every table of its documents. -/
theorem extract_configures {docs : List (Option ProcessorDoc)} {metadata : List MetadataEntry}
    {requests : List Request} (sent : InitDataplane.extract docs metadata = some requests)
    {index : Nat} {doc : ProcessorDoc} (here : docs[index]? = some (some doc)) {table : Table}
    (member : table ∈ doc.matcher) :
    ∃ config, .setMemConfig index table.id config ∈ requests := by
  obtain ⟨lists, run, sent⟩ := Option.bind_eq_some_iff.mp sent
  cases sent
  have listed : (some doc, index) ∈ docs.zipIdx := List.mem_zipIdx_iff_getElem?.mpr here
  obtain ⟨own, isOwn, asked⟩ := mem_mapM_some run listed
  have asked : extractProcessor metadata index doc = some own := asked
  rw [extractProcessor_calls] at asked
  obtain ⟨calls, called, rfl⟩ := Option.map_eq_some_iff.mp asked
  obtain ⟨gateway, _, called⟩ := Option.bind_eq_some_iff.mp called
  obtain ⟨tables, isTables, called⟩ := Option.bind_eq_some_iff.mp called
  obtain ⟨executor, _, called⟩ := Option.bind_eq_some_iff.mp called
  cases called
  obtain ⟨threads, inTables, isThreads⟩ := mem_mapM_some isTables member
  obtain ⟨config, _, isThreads⟩ := Option.bind_eq_some_iff.mp isThreads
  cases isThreads
  refine ⟨config, List.mem_flatten.mpr ⟨_, isOwn, ?_⟩⟩
  have listed : (table.id, ThreadRequest.setMemConfig config) ∈ tables.flatten :=
    List.mem_flatten.mpr ⟨_, inTables, List.mem_cons_self⟩
  have request :=
    List.mem_map_of_mem (f := fun pair : Int × ThreadRequest => pair.2.request index pair.1) listed
  simp only [ProcessorCalls.requests, List.mem_append]
  exact .inl (.inl (.inr request))

/-! ### The pipeline behind a push -/

/-- The metadata headers that a push sets; offset and length change places. -/
def sentMetaInfos (metadata : List MetadataEntry) : List HeaderInfo :=
  metadata.map fun entry =>
    { hdrId := wrap 8 entry.id, hdrOffset := wrap 16 entry.length, hdrLen := wrap 16 entry.offset }

theorem apply_extractMetadata (pipeline : Pipeline) (metadata : List MetadataEntry) :
    pipeline.apply (extractMetadata metadata) =
      some { pipeline with metaInfos := sentMetaInfos metadata } := by
  rw [extractMetadata, Pipeline.apply, Pipeline.setMetadata, List.map_map]
  rfl

variable {docs : List (Option ProcessorDoc)} {metadata : List MetadataEntry} {requests : List Request}
  {pipeline after : Pipeline}

/-- A push changes the processor it is about, and the metadata. -/
theorem configure_processor {procId : Nat} {doc : ProcessorDoc}
    (sent : extractProcessor metadata procId doc = some requests)
    (memory : pipeline.memory = Memory.fresh) : pipeline.configure requests = some after ↔
      ∃ calls processor next, processorCalls doc = some calls ∧ pipeline.procs[procId]? = some processor ∧
        calls.push processor = some next ∧
        after =
          { pipeline with procs := pipeline.procs.set procId next, metaInfos := sentMetaInfos metadata } := by
  rw [extractProcessor_calls] at sent
  obtain ⟨calls, asked, rfl⟩ := Option.map_eq_some_iff.mp sent
  rw [asked]
  cases here : pipeline.procs[procId]? with
  | none =>
      have nothing : pipeline.apply (.initParserLevel procId calls.parserLevel) = none := by
        simp [Pipeline.apply, Pipeline.atProc, here]
      have stuck : pipeline.configure (calls.requests procId ++ [extractMetadata metadata]) = none := by
        rw [Pipeline.configure, ProcessorCalls.requests, ProcessorCalls.parser, List.map_cons,
          ParserCall.request]
        simp only [List.cons_append, List.foldlM_cons, nothing]
        rfl
      simp [stuck]
  | some processor =>
      rw [Pipeline.configure, List.foldlM_append, ← Pipeline.configure,
        Pipeline.configure_calls calls memory here]
      cases pushed : calls.push processor with
      | none => simp [pushed]
      | some next => simp [pushed, apply_extractMetadata, eq_comm]

/-- What a push leaves in a pipeline. -/
structure Pushes (docs : List (Option ProcessorDoc)) (metadata : List MetadataEntry)
    (before after : Pipeline) : Prop where
  memory : after.memory = before.memory
  metaInfos : after.metaInfos = if docs.any Option.isSome then sentMetaInfos metadata else before.metaInfos
  skipped : ∀ index : Nat, docs[index]?.join = none → after.procs[index]? = before.procs[index]?
  pushed : ∀ (index : Nat) doc, docs[index]? = some (some doc) →
    ∃ calls processor next, processorCalls doc = some calls ∧
    before.procs[index]? = some processor ∧ calls.push processor = some next ∧ after.procs[index]? = some next

private theorem extract_concat {entry : Option ProcessorDoc}
    (sent : InitDataplane.extract (docs ++ [entry]) metadata = some requests) :
    ∃ front own, InitDataplane.extract docs metadata = some front ∧
      extractEntry metadata (entry, docs.length) = some own ∧
      requests = front ++ own := by
  obtain ⟨lists, run, sent⟩ := Option.bind_eq_some_iff.mp sent
  cases sent
  have run : (docs ++ [entry]).zipIdx.mapM (extractEntry metadata) = some lists := run
  rw [List.zipIdx_append, List.mapM_append, Nat.zero_add] at run
  obtain ⟨front, before, run⟩ := Option.bind_eq_some_iff.mp run
  obtain ⟨rest, last, same⟩ := Option.bind_eq_some_iff.mp run
  cases same
  obtain ⟨own, others, here, later, rfl⟩ := mapM_cons_some last
  cases later
  refine ⟨front.flatten, own, ?_, here, by simp⟩
  exact Option.bind_eq_some_iff.mpr ⟨front, before, rfl⟩

private theorem pushed_concat {entry : Option ProcessorDoc} {index : Nat} {doc : ProcessorDoc}
    (here : (docs ++ [entry])[index]? = some (some doc)) :
    docs[index]? = some (some doc) ∧ index ≠ docs.length ∨ entry = some doc ∧ index = docs.length := by
  by_cases inside : index < docs.length
  · rw [List.getElem?_append_left inside] at here
    exact .inl ⟨here, inside.ne⟩
  · rw [List.getElem?_append_right (Nat.le_of_not_lt inside), List.getElem?_singleton] at here
    split at here
    · next last => exact .inr ⟨Option.some.inj here, by omega⟩
    · cases here

private theorem behind (docs : List (Option ProcessorDoc)) : docs[docs.length]?.join = none := by
  rw [List.getElem?_eq_none le_rfl]
  rfl

private theorem Pushes.concat {entry : Option ProcessorDoc} {before middle : Pipeline} {own : List Request}
    (pushes : Pushes docs metadata before middle) (memory : before.memory = Memory.fresh)
    (sent : extractEntry metadata (entry, docs.length) = some own) (run : middle.configure own = some after) :
    Pushes (docs ++ [entry]) metadata before after := by
  cases entry with
  | none =>
      cases sent
      cases run
      refine ⟨pushes.memory, by simpa using pushes.metaInfos,
        fun index skipped => pushes.skipped index ?_, ?_⟩
      · by_cases inside : index < docs.length
        · rwa [List.getElem?_append_left inside] at skipped
        · rw [List.getElem?_eq_none (Nat.le_of_not_lt inside)]
          rfl
      · intro index doc here
        rcases pushed_concat here with ⟨listed, _⟩ | ⟨absent, _⟩
        · exact pushes.pushed index doc listed
        · cases absent
  | some doc =>
      obtain ⟨calls, processor, next, asked, found, pushed, rfl⟩ :=
        (configure_processor sent (pushes.memory.trans memory)).mp run
      rw [pushes.skipped _ (behind docs)] at found
      have inside := (List.getElem?_eq_some_iff.mp found).1
      have room : docs.length < middle.procs.length := by
        rw [← pushes.skipped _ (behind docs)] at found
        exact (List.getElem?_eq_some_iff.mp found).1
      have other : ∀ index, index ≠ docs.length →
          (middle.procs.set docs.length next)[index]? = middle.procs[index]? :=
        fun index different => List.getElem?_set_ne (Ne.symm different)
      refine ⟨pushes.memory, by simp, fun index skipped => ?_, fun index found' here => ?_⟩
      · have different : index ≠ docs.length := by
          rintro rfl
          rw [List.getElem?_concat_length] at skipped
          cases skipped
        refine (other index different).trans (pushes.skipped index ?_)
        by_cases inside : index < docs.length
        · rwa [List.getElem?_append_left inside] at skipped
        · rw [List.getElem?_eq_none (Nat.le_of_not_lt inside)]
          rfl
      · rcases pushed_concat here with ⟨listed, different⟩ | ⟨same, rfl⟩
        · obtain ⟨calls, processor, next, asked, found, pushed, isNext⟩ := pushes.pushed index found' listed
          exact ⟨calls, processor, next, asked, found, pushed, (other index different).trans isNext⟩
        · cases same
          exact ⟨calls, processor, next, asked, found, pushed, List.getElem?_set_self room⟩

theorem configure_pushes (sent : InitDataplane.extract docs metadata = some requests)
    (memory : pipeline.memory = Memory.fresh)
    (run : pipeline.configure requests = some after) : Pushes docs metadata pipeline after := by
  induction docs using List.reverseRecOn generalizing requests after with
  | nil =>
      cases sent
      cases run
      exact ⟨rfl, rfl, fun _ _ => rfl, fun index doc here => by cases here⟩
  | append_singleton docs entry ih =>
      obtain ⟨front, own, before, here, rfl⟩ := extract_concat sent
      obtain ⟨middle, first, last⟩ := Pipeline.configure_append run
      exact (ih before first).concat memory here last

/-- Every processor can be pushed on its own, and so they can all. -/
theorem configure_isSome (sent : InitDataplane.extract docs metadata = some requests)
    (memory : pipeline.memory = Memory.fresh)
    (each : ∀ (index : Nat) doc, docs[index]? = some (some doc) → ∃ calls processor next,
      processorCalls doc = some calls ∧
      pipeline.procs[index]? = some processor ∧ calls.push processor = some next) :
    ∃ after, pipeline.configure requests = some after := by
  induction docs using List.reverseRecOn generalizing requests with
  | nil =>
      cases sent
      exact ⟨pipeline, rfl⟩
  | append_singleton docs entry ih =>
      obtain ⟨front, own, before, here, rfl⟩ := extract_concat sent
      obtain ⟨middle, first⟩ := ih before fun index doc listed =>
        each index doc (by rw [List.getElem?_append_left (List.getElem?_eq_some_iff.mp listed).1, listed])
      have pushes := configure_pushes before memory first
      obtain ⟨after, last⟩ : ∃ after, middle.configure own = some after := by
        cases entry with
        | none =>
            cases here
            exact ⟨middle, rfl⟩
        | some doc =>
            obtain ⟨calls, processor, next, asked, found, pushed⟩ :=
              each docs.length doc List.getElem?_concat_length
            rw [← pushes.skipped _ (behind docs)] at found
            exact ⟨_, (configure_processor here (pushes.memory.trans memory)).mpr
              ⟨calls, processor, next, asked, found, pushed, rfl⟩⟩
      refine ⟨after, ?_⟩
      rw [Pipeline.configure, List.foldlM_append, ← Pipeline.configure, first]
      exact last

end Ipbm.Controller
