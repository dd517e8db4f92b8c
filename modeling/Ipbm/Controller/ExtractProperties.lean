import Ipbm.Controller.ExtractConfig
import Ipbm.Dataplane.PipelineProperties
import Ipbm.Lib.Traversal

/-! The requests of `extract`, by the matcher thread they are about. -/

set_option autoImplicit false

namespace Ipbm.Controller
open Lib Dataplane Compiler

theorem addresses_extractThread {procId : Int} {table : Table} {requests : List Request}
    (sent : extractThread procId table = some requests) {request : Request} (member : request ∈ requests)
    {proc matcher : Int} (addresses : request.Addresses proc matcher) :
    procId = proc ∧ table.id = matcher := by
  obtain ⟨depth, _, sent⟩ := Option.bind_eq_some_iff.mp sent
  obtain ⟨keyWidth, _, sent⟩ := Option.bind_eq_some_iff.mp sent
  obtain ⟨keyConfig, _, sent⟩ := Option.bind_eq_some_iff.mp sent
  obtain ⟨valueWidth, _, sent⟩ := Option.bind_eq_some_iff.mp sent
  obtain ⟨valueConfig, _, sent⟩ := Option.bind_eq_some_iff.mp sent
  cases sent
  simp only [List.mem_cons, List.not_mem_nil, or_false] at member
  rcases member with rfl | rfl | rfl <;> exact addresses

/-- A request of a list of tables is about one of them. -/
theorem addresses_extractThreads {procId : Int} {tables : List Table} {requests : List (List Request)}
    (sent : tables.mapM (extractThread procId) = some requests) {request : Request}
    (member : request ∈ requests.flatten) {proc matcher : Int} (addresses : request.Addresses proc matcher) :
    procId = proc ∧ ∃ table ∈ tables, table.id = matcher := by
  induction tables generalizing requests with
  | nil =>
      cases sent
      cases member
  | cons table rest ih =>
      obtain ⟨first, others, here, later, rfl⟩ := mapM_cons_some sent
      rcases List.mem_append.mp (List.flatten_cons ▸ member) with own | other
      · obtain ⟨sameProc, sameMatcher⟩ := addresses_extractThread here own addresses
        exact ⟨sameProc, table, List.mem_cons_self, sameMatcher⟩
      · obtain ⟨sameProc, found, inside, sameMatcher⟩ := ih later other
        exact ⟨sameProc, found, List.mem_cons_of_mem _ inside, sameMatcher⟩

private theorem not_addresses_extractParser {levels : List Level} {procId : Int} {request : Request}
    (member : request ∈ extractParser levels procId) (proc matcher : Int) :
    ¬request.Addresses proc matcher := by
  rcases List.mem_cons.mp member with rfl | listed
  · exact id
  · obtain ⟨level, _, inside⟩ := List.mem_flatMap.mp listed
    obtain ⟨entry, _, rfl⟩ := List.mem_map.mp inside
    exact id

private theorem not_addresses_extractExecutor {actions : List Compiler.Action} {procId : Int}
    {requests : List Request} (sent : extractExecutor actions procId = some requests)
    {request : Request} (member : request ∈ requests)
    (proc matcher : Int) : ¬request.Addresses proc matcher := by
  obtain ⟨position, bound, rfl⟩ := List.mem_iff_getElem.mp member
  have step := getElem_of_mapM_some sent (length_of_mapM_some sent ▸ bound)
  rw [List.getElem?_eq_getElem bound] at step
  obtain ⟨action, _, step⟩ := Option.bind_eq_some_iff.mp step
  rw [← Option.some.inj step]
  exact id

/-- The parts of a processor's requests around those of its tables. -/
theorem extractProcessor_parts {metadata : List MetadataEntry} {procId : Int} {doc : ProcessorDoc}
    {requests : List Request} (sent : extractProcessor metadata procId doc = some requests) :
    ∃ front threads back, doc.matcher.mapM (extractThread procId) = some threads ∧
      requests = front ++ threads.flatten ++ back ∧
      ∀ request ∈ front ++ back, ∀ proc matcher, ¬request.Addresses proc matcher := by
  obtain ⟨gateway, _, sent⟩ := Option.bind_eq_some_iff.mp sent
  obtain ⟨matcher, tables, sent⟩ := Option.bind_eq_some_iff.mp sent
  obtain ⟨executor, actions, sent⟩ := Option.bind_eq_some_iff.mp sent
  obtain ⟨threads, run, tables⟩ := Option.bind_eq_some_iff.mp tables
  cases tables
  cases sent
  refine ⟨extractParser doc.levels procId ++ gateway.map (.gateway procId), threads,
    executor ++ [extractMetadata metadata], run, by simp only [List.append_assoc], ?_⟩
  intro request member proc matcher
  simp only [List.mem_append, List.mem_map, List.mem_singleton] at member
  rcases member with (parser | ⟨inner, _, rfl⟩) | action | rfl
  · exact not_addresses_extractParser parser proc matcher
  · exact id
  · exact not_addresses_extractExecutor actions action proc matcher
  · exact id

/-- A request to a thread of another processor is not among the requests of a processor. -/
theorem addresses_extractProcessor {metadata : List MetadataEntry} {procId : Int} {doc : ProcessorDoc}
    {requests : List Request} (sent : extractProcessor metadata procId doc = some requests)
    {request : Request} (member : request ∈ requests) {proc matcher : Int}
    (addresses : request.Addresses proc matcher) :
    procId = proc := by
  obtain ⟨front, threads, back, run, rfl, others⟩ := extractProcessor_parts sent
  simp only [List.mem_append] at member others
  rcases member with (inFront | own) | inBack
  · exact absurd addresses (others request (.inl inFront) proc matcher)
  · exact (addresses_extractThreads run own addresses).1
  · exact absurd addresses (others request (.inr inBack) proc matcher)

theorem extractThreads_split {procId : Int} {before later : List Table} {table : Table}
    {requests : List (List Request)}
    (sent : (before ++ table :: later).mapM (extractThread procId) = some requests) :
    ∃ front own back, requests = front ++ own :: back ∧ extractThread procId table = some own ∧
      later.mapM (extractThread procId) = some back := by
  rw [List.mapM_append] at sent
  obtain ⟨front, _, sent⟩ := Option.bind_eq_some_iff.mp sent
  obtain ⟨rest, run, sent⟩ := Option.bind_eq_some_iff.mp sent
  cases sent
  obtain ⟨own, back, here, after, rfl⟩ := mapM_cons_some run
  exact ⟨front, own, back, rfl, here, after⟩

/-- The requests of one entry of the document. -/
def extractEntry (metadata : List MetadataEntry) (entry : Option ProcessorDoc × Nat) :
    Option (List Request) :=
  match entry.1 with
  | none => some []
  | some doc => extractProcessor metadata entry.2 doc

private theorem addresses_extractEntries {metadata : List MetadataEntry} {docs : List (Option ProcessorDoc)}
    {start : Nat} {requests : List (List Request)}
    (sent : (docs.zipIdx start).mapM (extractEntry metadata) = some requests) {request : Request}
    (member : request ∈ requests.flatten) {proc matcher : Int} (addresses : request.Addresses proc matcher) :
    start ≤ proc := by
  induction docs generalizing start requests with
  | nil =>
      cases sent
      cases member
  | cons entry rest ih =>
      rw [List.zipIdx_cons] at sent
      obtain ⟨first, others, here, later, rfl⟩ := mapM_cons_some sent
      rcases List.mem_append.mp (List.flatten_cons ▸ member) with own | other
      · cases entry with
        | none =>
            cases here
            cases own
        | some doc => exact (addresses_extractProcessor here own addresses).le
      · have behind := ih later other
        omega

namespace InitDataplane

/-- The requests of one table among all: what follows them and is about a thread of the same
processor belongs to a later table of the processor. -/
theorem extract_split {docs : List (Option ProcessorDoc)} {metadata : List MetadataEntry}
    {requests : List Request} (sent : extract docs metadata = some requests) {procId : Nat}
    {doc : ProcessorDoc} (here : docs[procId]? = some (some doc)) {before later : List Table} {table : Table}
    (listed : doc.matcher = before ++ table :: later) :
    ∃ front own back, requests = front ++ own ++ back ∧ extractThread procId table = some own ∧
      ∀ request ∈ back, ∀ matcher, request.Addresses procId matcher →
        ∃ other ∈ later, other.id = matcher := by
  obtain ⟨lists, run, sent⟩ := Option.bind_eq_some_iff.mp sent
  cases sent
  obtain ⟨inside, isDoc⟩ := List.getElem?_eq_some_iff.mp here
  have run : docs.zipIdx.mapM (extractEntry metadata) = some lists := run
  have parts : docs = docs.take procId ++ some doc :: docs.drop (procId + 1) := by
    rw [← isDoc, List.getElem_cons_drop, List.take_append_drop]
  rw [parts, List.zipIdx_append, List.mapM_append, List.zipIdx_cons, List.length_take_of_le inside.le,
    Nat.zero_add] at run
  obtain ⟨smaller, _, run⟩ := Option.bind_eq_some_iff.mp run
  obtain ⟨rest, ownRun, same⟩ := Option.bind_eq_some_iff.mp run
  cases same
  obtain ⟨own, greater, processor, larger, rfl⟩ := mapM_cons_some ownRun
  obtain ⟨front, threads, back, tables, rfl, others⟩ := extractProcessor_parts processor
  rw [listed] at tables
  obtain ⟨first, thread, last, rfl, isThread, following⟩ := extractThreads_split tables
  refine ⟨smaller.flatten ++ front ++ first.flatten, thread,
    last.flatten ++ back ++ greater.flatten, ?_, isThread, ?_⟩
  · simp only [List.flatten_append, List.flatten_cons, List.append_assoc]
  · intro request member matcher addresses
    simp only [List.mem_append] at member others
    rcases member with (table | inBack) | other
    · exact (addresses_extractThreads following table addresses).2
    · exact absurd addresses (others request (.inr inBack) procId matcher)
    · have behind := addresses_extractEntries larger other addresses
      omega

end InitDataplane

end Ipbm.Controller
