import Ipbm.Controller.ExtractProperties
import Ipbm.Dataplane.Termination

/-! Packets between the requests of a push. A configuration is replaced request by
request, and so a packet can meet targets of both configurations. -/

set_option autoImplicit false

namespace Ipbm.System
open Lib Dataplane Compiler Controller

/-! ### HasTarget of a configuration -/

/-- The processors that a document sends packets to. -/
def docTargets (doc : ProcessorDoc) : List Int :=
  ((doc.gateway.default :: doc.gateway.entries.map Prod.snd).filter fun entry =>
    entry.type = .stage).map GateEntry.val ++
    doc.matcher.flatMap fun table => table.actionToProc.map Prod.snd

/-- Processor `procId` is configured with a target. -/
def HasTarget (docs : List (Option ProcessorDoc)) (procId target : Int) : Prop :=
  ∃ (index : Nat) (doc : ProcessorDoc), procId = index ∧ docs[index]? = some (some doc) ∧
    target ∈ docTargets doc

def Acyclic (rank : Int → Nat) (docs : List (Option ProcessorDoc)) : Prop :=
  ∀ procId target, HasTarget docs procId target → target = -1 ∨ rank procId < rank target

private theorem targets_entry {procId proc target : Int} {entry : GateEntry}
    (stored : (proc, target) ∈ entry.targets procId) :
    proc = procId ∧ entry.type = .stage ∧ entry.val = target := by
  unfold GateEntry.targets at stored
  split at stored
  · next isStage =>
      cases List.mem_singleton.mp stored
      exact ⟨rfl, isStage, rfl⟩
  · cases stored

private theorem targets_extractGateway {doc : GatewayDoc} {requests : List GatewayRequest}
    (sent : extractGateway doc = some requests) {request : GatewayRequest} (member : request ∈ requests)
    {procId proc target : Int} (stored : (proc, target) ∈ (Request.gateway procId request).targets) :
    proc = procId ∧ ∃ entry ∈ doc.default :: doc.entries.map Prod.snd, entry.type = .stage ∧
      entry.val = target := by
  obtain ⟨exps, _, sent⟩ := Option.bind_eq_some_iff.mp sent
  cases sent
  simp only [List.cons_append, List.mem_cons, List.mem_append, List.mem_map] at member
  rcases member with rfl | ⟨exp, _, rfl⟩ | rfl | ⟨row, isRow, rfl⟩
  · cases stored
  · cases stored
  · obtain ⟨same, isStage, value⟩ := targets_entry stored
    exact ⟨same, _, List.mem_cons_self, isStage, value⟩
  · obtain ⟨same, isStage, value⟩ := targets_entry stored
    exact ⟨same, _, List.mem_cons_of_mem _ (List.mem_map_of_mem isRow), isStage, value⟩

private theorem targets_extractThread {procId : Int} {table : Table} {requests : List Request}
    (sent : extractThread procId table = some requests) {request : Request} (member : request ∈ requests)
    {proc target : Int} (stored : (proc, target) ∈ request.targets) :
    proc = procId ∧ target ∈ table.actionToProc.map Prod.snd := by
  obtain ⟨depth, _, sent⟩ := Option.bind_eq_some_iff.mp sent
  obtain ⟨keyWidth, _, sent⟩ := Option.bind_eq_some_iff.mp sent
  obtain ⟨keyConfig, _, sent⟩ := Option.bind_eq_some_iff.mp sent
  obtain ⟨valueWidth, _, sent⟩ := Option.bind_eq_some_iff.mp sent
  obtain ⟨valueConfig, _, sent⟩ := Option.bind_eq_some_iff.mp sent
  cases sent
  simp only [List.mem_cons, List.not_mem_nil, or_false] at member
  rcases member with rfl | rfl | rfl
  · cases stored
  · obtain ⟨pair, isPair, same⟩ := List.mem_map.mp stored
    cases same
    exact ⟨rfl, List.mem_map_of_mem isPair⟩
  · cases stored

private theorem targets_extractProcessor {metadata : List MetadataEntry} {procId : Int} {doc : ProcessorDoc}
    {requests : List Request} (sent : extractProcessor metadata procId doc = some requests)
    {request : Request} (member : request ∈ requests) {proc target : Int}
    (stored : (proc, target) ∈ request.targets) :
    proc = procId ∧ target ∈ docTargets doc := by
  obtain ⟨gateway, gate, sent⟩ := Option.bind_eq_some_iff.mp sent
  obtain ⟨matcher, tables, sent⟩ := Option.bind_eq_some_iff.mp sent
  obtain ⟨executor, actions, sent⟩ := Option.bind_eq_some_iff.mp sent
  obtain ⟨threads, run, tables⟩ := Option.bind_eq_some_iff.mp tables
  cases tables
  cases sent
  simp only [List.mem_append, List.mem_map, List.mem_singleton, or_assoc] at member
  rcases member with parser | ⟨inner, isInner, rfl⟩ | thread | action | rfl
  · rcases List.mem_cons.mp parser with rfl | listed
    · cases stored
    · obtain ⟨level, _, inside⟩ := List.mem_flatMap.mp listed
      obtain ⟨entry, _, rfl⟩ := List.mem_map.mp inside
      cases stored
  · obtain ⟨same, entry, isEntry, isStage, rfl⟩ := targets_extractGateway gate isInner stored
    refine ⟨same, List.mem_append_left _ (List.mem_map_of_mem (List.mem_filter.mpr ⟨isEntry, ?_⟩))⟩
    exact decide_eq_true isStage
  · obtain ⟨own, isOwn, inOwn⟩ := List.mem_flatten.mp thread
    obtain ⟨table, isTable, here⟩ := mem_of_mapM_some run isOwn
    obtain ⟨same, inside⟩ := targets_extractThread here inOwn stored
    exact ⟨same, List.mem_append_right _ (List.mem_flatMap.mpr ⟨table, isTable, inside⟩)⟩
  · obtain ⟨source, _, here⟩ := mem_of_mapM_some actions action
    obtain ⟨converted, _, here⟩ := Option.bind_eq_some_iff.mp here
    cases here
    cases stored
  · cases stored

/-- A push stores the targets of its document. -/
theorem targets_extract {docs : List (Option ProcessorDoc)} {metadata : List MetadataEntry}
    {requests : List Request} (sent : InitDataplane.extract docs metadata = some requests)
    {request : Request} (member : request ∈ requests)
    {proc target : Int} (stored : (proc, target) ∈ request.targets) : HasTarget docs proc target := by
  obtain ⟨parts, run, sent⟩ := Option.bind_eq_some_iff.mp sent
  cases sent
  obtain ⟨own, isOwn, inOwn⟩ := List.mem_flatten.mp member
  obtain ⟨⟨entry, index⟩, isEntry, here⟩ := mem_of_mapM_some run isOwn
  cases entry with
  | none =>
      cases here
      cases inOwn
  | some doc =>
      obtain ⟨same, inside⟩ := targets_extractProcessor here inOwn stored
      exact ⟨index, doc, same, List.mem_zipIdx_iff_getElem?.mp isEntry, inside⟩

/-! ### Between two requests -/

section

variable {oldDocs newDocs : List (Option ProcessorDoc)} {oldMetadata newMetadata : List MetadataEntry}
  {oldRequests newRequests entries sent : List Request} {pipeline : Pipeline}

private theorem leads_configured (oldSent : InitDataplane.extract oldDocs oldMetadata = some oldRequests)
    (newSent : InitDataplane.extract newDocs newMetadata = some newRequests)
    (filled : ∀ request ∈ entries, request.targets = []) (front : sent <+: newRequests)
    (state : Pipeline.fresh.configure (oldRequests ++ entries ++ sent) = some pipeline) {index : Nat}
    {processor : Dataplane.Processor} (here : pipeline.procs[index]? = some processor) {target : Int}
    (leads : processor.Leads target) : HasTarget oldDocs index target ∨ HasTarget newDocs index target := by
  rcases Pipeline.configure_leads state here leads with ⟨old, found, before⟩ | ⟨request, member, stored⟩
  · exact absurd before (Pipeline.not_leads_fresh found target)
  · simp only [List.mem_append] at member
    rcases member with (isOld | isEntry) | isNew
    · exact .inl (targets_extract oldSent isOld stored)
    · rw [filled request isEntry] at stored
      cases stored
    · exact .inr (targets_extract newSent (front.subset isNew) stored)

/-- Between any two requests of a push, if one rank suits both configurations, a packet whose lookups
give listed actions leaves the loop, and goes only to targets of one of the configurations. -/
theorem update_ends (oldSent : InitDataplane.extract oldDocs oldMetadata = some oldRequests)
    (newSent : InitDataplane.extract newDocs newMetadata = some newRequests) {rank : Int → Nat}
    (oldRanked : Acyclic rank oldDocs) (newRanked : Acyclic rank newDocs)
    (filled : ∀ request ∈ entries, request.targets = []) (front : sent <+: newRequests)
    (state : Pipeline.fresh.configure (oldRequests ++ entries ++ sent) = some pipeline) {start : Phv}
    (listed : pipeline.ListedRun start) :
    (∀ scratch, ∃ fuel, ∀ after, pipeline.execute scratch fuel start ≠ .running after) ∧
      ∀ phv scratch next, pipeline.Reaches start phv → phv.nextProcId ≠ -1 →
        pipeline.step scratch phv = some next →
        next.nextProcId = -1 ∨ HasTarget oldDocs phv.nextProcId next.nextProcId ∨
          HasTarget newDocs phv.nextProcId next.nextProcId := by
  have configured := fun {index : Nat} {processor : Dataplane.Processor} =>
    @leads_configured _ _ _ _ _ _ _ _ _ oldSent newSent filled front state index processor
  have ranked : pipeline.Ranked rank := by
    intro index processor here target leads
    rcases configured here leads with old | new
    · exact oldRanked index target old
    · exact newRanked index target new
  refine ⟨Pipeline.leaves_loop ranked listed, ?_⟩
  intro phv scratch next reached goes step
  obtain ⟨index, processor, isIndex, here, target⟩ := Pipeline.step_leads (listed phv reached) step
  rw [isIndex]
  exact target.imp_right (configured here)

end

/-- A processor that sends every packet on. -/
def forwardDoc (id target : Int) : ProcessorDoc where
  id := id
  levels := []
  gateway := { expressions := [], default := ⟨.stage, target⟩, entries := [] }
  matcher := []
  executor := []

def upDocs : List (Option ProcessorDoc) := [some (forwardDoc 0 1), some (forwardDoc 1 (-1))]

def downDocs : List (Option ProcessorDoc) := [some (forwardDoc 0 (-1)), some (forwardDoc 1 0)]

def endDocs : List (Option ProcessorDoc) := [some (forwardDoc 0 (-1))]

private theorem hasTarget_pair {first second procId target : Int}
    (has : HasTarget [some (forwardDoc 0 first), some (forwardDoc 1 second)] procId target) :
    procId = 0 ∧ target = first ∨ procId = 1 ∧ target = second := by
  obtain ⟨index, doc, rfl, here, inside⟩ := has
  match index with
  | 0 =>
      cases here
      exact .inl ⟨rfl, List.mem_singleton.mp inside⟩
  | 1 =>
      cases here
      exact .inr ⟨rfl, List.mem_singleton.mp inside⟩
  | _ + 2 => cases here

private theorem up_acyclic : Acyclic Int.toNat upDocs := by
  intro procId target has
  rcases hasTarget_pair has with ⟨rfl, rfl⟩ | ⟨rfl, rfl⟩
  · exact .inr (by decide)
  · exact .inl rfl

def upRequests : List Request := (InitDataplane.extract upDocs []).get (by decide)

def downRequests : List Request := (InitDataplane.extract downDocs []).get (by decide)

def endRequests : List Request := (InitDataplane.extract endDocs []).get (by decide)

/-- The second processor is not configured yet. -/
def startedPipeline : Pipeline :=
  (Pipeline.fresh.configure (endRequests ++ [] ++ upRequests.take 3)).get (by decide)

def secondPhv : Phv := { Phv.fresh with nextProcId := 1, nextOp := ⟨.stage, 1⟩ }

def endedPhv : Phv := { Phv.fresh with nextProcId := -1, nextOp := ⟨.stage, 1⟩ }

theorem update_ends_started : ∃ fuel, ∀ after,
    startedPipeline.execute (fun _ _ => 0) fuel Phv.fresh ≠ .running after := by
  have first : ∀ scratch, startedPipeline.step scratch Phv.fresh = some secondPhv := fun _ => rfl
  have second : ∀ scratch, startedPipeline.step scratch secondPhv = some endedPhv := fun _ => rfl
  have reached : ∀ phv, startedPipeline.Reaches Phv.fresh phv → phv = Phv.fresh ∨ phv = secondPhv ∨
      phv = endedPhv := by
    intro phv reaches
    induction reaches with
    | start => exact .inl rfl
    | turn before goes step ih =>
        rcases ih with rfl | rfl | rfl
        · exact .inr (.inl (Option.some.inj (step.symm.trans (first _))))
        · exact .inr (.inr (Option.some.inj (step.symm.trans (second _))))
        · exact absurd rfl goes
  have listed : startedPipeline.ListedRun Phv.fresh := by
    intro phv reaches processor scratch thread actionId found look
    have none : (startedPipeline.proc phv.nextProcId).bind (fun processor =>
        processor.lookup startedPipeline.memory scratch phv) = .none := by
      rcases reached phv reaches with rfl | rfl | rfl <;> rfl
    rw [found, Option.bind_some, look] at none
    cases none
  have endAcyclic : Acyclic Int.toNat endDocs := by
    rintro procId target ⟨index, doc, rfl, here, inside⟩
    match index with
    | 0 =>
        cases here
        exact .inl (List.mem_singleton.mp inside)
    | _ + 1 => cases here
  have oldSent : InitDataplane.extract endDocs [] = some endRequests := (Option.some_get _).symm
  have newSent : InitDataplane.extract upDocs [] = some upRequests := (Option.some_get _).symm
  have state : Pipeline.fresh.configure (endRequests ++ [] ++ upRequests.take 3) = some startedPipeline :=
    (Option.some_get _).symm
  exact (update_ends oldSent newSent endAcyclic up_acyclic (by simp)
    (List.take_prefix 3 upRequests) state listed).1 _

/-- Processor 0 has its new target and processor 1 its old one. -/
def mixedPipeline : Pipeline :=
  (Pipeline.fresh.configure (downRequests ++ upRequests.take 3)).get (by decide)

def backPhv : Phv := { Phv.fresh with nextOp := ⟨.stage, 0⟩ }

/-- One configuration goes from processor 1 to 0 and the other from 0 to 1. A packet between two
requests goes round and round. -/
theorem update_loops :
    (∃ rank, Acyclic rank downDocs) ∧ (∃ rank, Acyclic rank upDocs) ∧
      InitDataplane.extract downDocs [] = some downRequests ∧
      InitDataplane.extract upDocs [] = some upRequests ∧
      Pipeline.fresh.configure (downRequests ++ upRequests.take 3) = some mixedPipeline ∧
      ∀ scratch fuel, ∃ after, mixedPipeline.execute scratch fuel Phv.fresh = .running after := by
  have down : Acyclic (fun procId => if procId = 0 then 1 else 0) downDocs := by
    intro procId target has
    rcases hasTarget_pair has with ⟨rfl, rfl⟩ | ⟨rfl, rfl⟩
    · exact .inl rfl
    · exact .inr (by decide)
  have away : ∀ scratch, mixedPipeline.step scratch backPhv = some secondPhv := fun _ => rfl
  have back : ∀ scratch, mixedPipeline.step scratch secondPhv = some backPhv := fun _ => rfl
  have first : ∀ scratch, mixedPipeline.step scratch Phv.fresh = some secondPhv := fun _ => rfl
  have goes : ∀ scratch fuel, (∃ after, mixedPipeline.execute scratch fuel backPhv = .running after) ∧
      ∃ after, mixedPipeline.execute scratch fuel secondPhv = .running after := by
    intro scratch fuel
    induction fuel with
    | zero => exact ⟨⟨_, rfl⟩, ⟨_, rfl⟩⟩
    | succ fuel ih =>
        constructor
        · unfold Pipeline.execute
          rw [if_neg (by decide)]
          simpa only [away] using ih.2
        · unfold Pipeline.execute
          rw [if_neg (by decide)]
          simpa only [back] using ih.1
  refine ⟨⟨_, down⟩, ⟨_, up_acyclic⟩, (Option.some_get _).symm, (Option.some_get _).symm,
    (Option.some_get _).symm, ?_⟩
  intro scratch fuel
  cases fuel with
  | zero => exact ⟨Phv.fresh, rfl⟩
  | succ fuel =>
      unfold Pipeline.execute
      rw [if_neg (by decide)]
      simpa only [first] using (goes scratch fuel).2

end Ipbm.System
