import Ipbm.Dataplane.PipelineProperties

/-! The processors a packet can be sent to: what the gateways and the action maps of
a pipeline store is what the configuration requests put there. -/

set_option autoImplicit false

namespace Ipbm.Dataplane

def Gateway.Stores (gateway : Gateway) (entry : GateEntry) : Prop :=
  (∃ bits, gateway.resNext bits = some entry) ∨ gateway.defaultEntry = some entry

/-- The targets a processor stores: stages of its gateway and processors of its tables' actions. -/
def Processor.Leads (processor : Processor) (target : Int) : Prop :=
  (∃ entry, processor.gateway.Stores entry ∧ entry.type = .stage ∧ entry.val = target) ∨
    ∃ thread ∈ processor.matcher, ∃ actionId, thread.actionProcMap actionId = some target

/-- The processor and the target that a request stores. -/
def GateEntry.targets (procId : Int) (entry : GateEntry) : List (Int × Int) :=
  match entry.type with
  | .stage => [(procId, entry.val)]
  | .table => []

def Request.targets : Request → List (Int × Int)
  | .gateway procId (.modResMap _ entry) => entry.targets procId
  | .gateway procId (.setDefaultGateEntry entry) => entry.targets procId
  | .setActionProc procId _ actionProcs => actionProcs.map fun pair => (procId, pair.2)
  | _ => []

private theorem mem_targets {procId : Int} {entry : GateEntry} (isStage : entry.type = .stage) :
    (procId, entry.val) ∈ entry.targets procId := by
  simp [GateEntry.targets, isStage]

theorem Gateway.apply_stores {gateway : Gateway} {request : GatewayRequest} {procId : Int} {entry : GateEntry}
    (stores : (gateway.apply request).Stores entry) (isStage : entry.type = .stage) :
    gateway.Stores entry ∨ (procId, entry.val) ∈ (Request.gateway procId request).targets := by
  cases request with
  | clearRelationExp =>
      rcases stores with ⟨bits, found⟩ | default
      · cases found
      · cases default
        cases isStage
  | insertRelationExp exp => exact .inl stores
  | clearResMap =>
      rcases stores with ⟨bits, found⟩ | default
      · cases found
      · exact .inl (.inr default)
  | modResMap key new =>
      rcases stores with ⟨bits, found⟩ | default
      · simp only [Gateway.apply, Gateway.modifyResMap, Function.update_apply] at found
        split at found
        · cases found
          exact .inr (mem_targets isStage)
        · exact .inl (.inl ⟨bits, found⟩)
      · exact .inl (.inr default)
  | setDefaultGateEntry new =>
      rcases stores with found | default
      · exact .inl (.inl found)
      · cases default
        exact .inr (mem_targets isStage)

theorem MatcherThread.setActionProcMap_cases {thread : MatcherThread} {actionProcs : List (Int × Int)}
    {actionId target : Int}
    (found : (thread.setActionProcMap actionProcs).actionProcMap actionId = some target) :
    thread.actionProcMap actionId = some target ∨ (actionId, target) ∈ actionProcs := by
  have general : ∀ (pairs : List (Int × Int)) (map : Int → Option Int),
      pairs.foldl (fun (map : Int → Option Int) pair =>
        Function.update map pair.1 (some pair.2)) map actionId =
        some target →
      map actionId = some target ∨ (actionId, target) ∈ pairs := by
    intro pairs
    induction pairs with
    | nil => exact fun map found => .inl found
    | cons pair rest ih =>
        intro map found
        rcases ih _ found with before | later
        · simp only [Function.update_apply] at before
          split at before
          · next same =>
              cases before
              subst same
              exact .inr List.mem_cons_self
          · exact .inl before
        · exact .inr (List.mem_cons_of_mem _ later)
  exact general actionProcs thread.actionProcMap found

namespace Pipeline

theorem setMemConfig_map {config : MemConfig} {memory cleared : Memory} {thread next : MatcherThread}
    (set : setMemConfig config memory thread = some (cleared, next)) :
    next.actionProcMap = fun _ => none := by
  obtain ⟨⟨middle, old⟩, clear, set⟩ := Option.bind_eq_some_iff.mp set
  obtain ⟨configured, copied, set⟩ := Option.bind_eq_some_iff.mp set
  cases set
  obtain ⟨keys, _, copied⟩ := Option.bind_eq_some_iff.mp copied
  obtain ⟨values, _, copied⟩ := Option.bind_eq_some_iff.mp copied
  cases copied
  have empty : old.actionProcMap = fun _ => none := by
    unfold MatcherThread.clearOldConfig at clear
    simp only at clear
    split at clear
    · obtain ⟨keyBlocks, _, clear⟩ := Option.bind_eq_some_iff.mp clear
      obtain ⟨valueBlocks, _, clear⟩ := Option.bind_eq_some_iff.mp clear
      cases clear
      rfl
    · obtain ⟨keyBlocks, _, clear⟩ := Option.bind_eq_some_iff.mp clear
      obtain ⟨valueBlocks, _, clear⟩ := Option.bind_eq_some_iff.mp clear
      cases clear
      rfl
    · obtain ⟨keyBlocks, _, clear⟩ := Option.bind_eq_some_iff.mp clear
      obtain ⟨valueBlocks, _, clear⟩ := Option.bind_eq_some_iff.mp clear
      cases clear
      rfl
  exact empty

theorem insertTcamEntry_map {key mask value : List UInt8} {memory cleared : Memory}
    {thread next : MatcherThread}
    (set : thread.insertTcamEntry memory key mask value = some (cleared, next)) :
    next.actionProcMap = thread.actionProcMap := by
  obtain ⟨slice, _, set⟩ := Option.bind_eq_some_iff.mp set
  obtain ⟨keySeq, _, set⟩ := Option.bind_eq_some_iff.mp set
  obtain ⟨valueSeq, _, set⟩ := Option.bind_eq_some_iff.mp set
  simp only at set
  split at set
  · obtain ⟨tcams, _, set⟩ := Option.bind_eq_some_iff.mp set
    obtain ⟨masks, _, set⟩ := Option.bind_eq_some_iff.mp set
    obtain ⟨srams, _, set⟩ := Option.bind_eq_some_iff.mp set
    cases set
    rfl
  · cases set

variable {pipeline after : Pipeline}

private theorem atProc_leads {proc : Int} {change : Processor → Option Processor} {targets : List (Int × Int)}
    (keeps : ∀ processor next, change processor = some next → ∀ target, next.Leads target →
      processor.Leads target ∨ (proc, target) ∈ targets)
    (changed : pipeline.atProc proc change = some after) {index : Nat} {processor : Processor}
    (here : after.procs[index]? = some processor) {target : Int} (leads : processor.Leads target) :
    (∃ old, pipeline.procs[index]? = some old ∧ old.Leads target) ∨ ((index : Int), target) ∈ targets := by
  obtain ⟨old, next, nonneg, found, step, rfl⟩ := atProc_cases changed
  by_cases same : proc.toNat = index
  · subst same
    rw [List.getElem?_set_self (List.getElem?_eq_some_iff.mp found).1] at here
    cases here
    rw [Int.toNat_of_nonneg nonneg]
    exact (keeps old processor step target leads).imp_left fun before => ⟨old, found, before⟩
  · rw [List.getElem?_set_ne same] at here
    exact .inl ⟨processor, here, leads⟩

private theorem atThread_leads {proc matcher : Int}
    {change : Memory → MatcherThread → Option (Memory × MatcherThread)} {targets : List (Int × Int)}
    (keeps : ∀ memory thread cleared next, change memory thread = some (cleared, next) → ∀ actionId target,
      next.actionProcMap actionId = some target →
      thread.actionProcMap actionId = some target ∨ (proc, target) ∈ targets)
    (changed : pipeline.atThread proc matcher change = some after) {index : Nat} {processor : Processor}
    (here : after.procs[index]? = some processor) {target : Int} (leads : processor.Leads target) :
    (∃ old, pipeline.procs[index]? = some old ∧ old.Leads target) ∨ ((index : Int), target) ∈ targets := by
  obtain ⟨old, thread, memory, next, nonneg, _, found, there, step, rfl⟩ := atThread_cases changed
  by_cases same : proc.toNat = index
  · subst same
    rw [List.getElem?_set_self (List.getElem?_eq_some_iff.mp found).1] at here
    cases here
    rw [Int.toNat_of_nonneg nonneg]
    rcases leads with stage | ⟨other, member, actionId, isTarget⟩
    · exact .inl ⟨old, found, .inl stage⟩
    · rcases List.mem_or_eq_of_mem_set member with before | rfl
      · exact .inl ⟨old, found, .inr ⟨other, before, actionId, isTarget⟩⟩
      · refine (keeps _ _ _ _ step actionId target isTarget).imp_left fun before => ?_
        exact ⟨old, found, .inr ⟨thread, List.mem_of_getElem? there, actionId, before⟩⟩
  · rw [List.getElem?_set_ne same] at here
    exact .inl ⟨processor, here, leads⟩

private theorem atProc_leads_old {proc : Int} {change : Processor → Option Processor}
    (keeps : ∀ processor next, change processor = some next →
      next.gateway = processor.gateway ∧ next.matcher = processor.matcher)
    (changed : pipeline.atProc proc change = some after) {index : Nat} {processor : Processor}
    (here : after.procs[index]? = some processor) {target : Int} (leads : processor.Leads target) :
    ∃ old, pipeline.procs[index]? = some old ∧ old.Leads target := by
  refine (@atProc_leads pipeline after proc change [] ?_ changed _ _ here _ leads).resolve_right
    List.not_mem_nil
  intro before next step goal isGoal
  obtain ⟨gateway, matcher⟩ := keeps before next step
  unfold Processor.Leads at isGoal
  rw [gateway, matcher] at isGoal
  exact .inl isGoal

private theorem atThread_leads_old {proc matcher : Int}
    {change : Memory → MatcherThread → Option (Memory × MatcherThread)}
    (keeps : ∀ memory thread cleared next, change memory thread = some (cleared, next) → ∀ actionId,
      next.actionProcMap actionId = thread.actionProcMap actionId ∨ next.actionProcMap actionId = none)
    (changed : pipeline.atThread proc matcher change = some after) {index : Nat} {processor : Processor}
    (here : after.procs[index]? = some processor) {target : Int} (leads : processor.Leads target) :
    ∃ old, pipeline.procs[index]? = some old ∧ old.Leads target := by
  refine (@atThread_leads pipeline after proc matcher change [] ?_ changed _ _ here _
    leads).resolve_right List.not_mem_nil
  intro memory thread cleared next step actionId goal isGoal
  rcases keeps memory thread cleared next step actionId with same | none
  · exact .inl (same ▸ isGoal)
  · rw [none] at isGoal
    cases isGoal

/-- A request adds the targets it stores and no others. -/
theorem apply_leads {request : Request} (applied : pipeline.apply request = some after) {index : Nat}
    {processor : Processor} (here : after.procs[index]? = some processor) {target : Int}
    (leads : processor.Leads target) :
    (∃ old, pipeline.procs[index]? = some old ∧ old.Leads target) ∨
      ((index : Int), target) ∈ request.targets := by
  cases request with
  | setMetadata headerInfos =>
      cases applied
      exact .inl ⟨processor, here, leads⟩
  | initParserLevel proc level =>
      refine .inl (atProc_leads_old ?_ applied here leads)
      intro before next step
      cases step
      exact ⟨rfl, rfl⟩
  | modParserEntry proc level entry =>
      refine .inl (atProc_leads_old ?_ applied here leads)
      intro before next step
      obtain ⟨parser, _, step⟩ := Option.bind_eq_some_iff.mp step
      cases step
      exact ⟨rfl, rfl⟩
  | clearParser proc =>
      refine .inl (atProc_leads_old ?_ applied here leads)
      intro before next step
      obtain ⟨parser, _, step⟩ := Option.bind_eq_some_iff.mp step
      cases step
      exact ⟨rfl, rfl⟩
  | gateway proc request =>
      refine atProc_leads ?_ applied here leads
      intro before next step goal isGoal
      cases step
      rcases isGoal with ⟨entry, stores, isStage, rfl⟩ | thread
      · exact (Gateway.apply_stores stores isStage).imp_left fun old => .inl ⟨entry, old, isStage, rfl⟩
      · exact .inl (.inr thread)
  | setMemConfig proc matcher config =>
      refine .inl (atThread_leads_old ?_ applied here leads)
      intro memory thread cleared next step actionId
      rw [setMemConfig_map step]
      exact .inr rfl
  | setActionProc proc matcher actionProcs =>
      simp only [apply] at applied
      refine atThread_leads ?_ applied here leads
      intro memory thread cleared next step actionId goal isGoal
      cases step
      refine (MatcherThread.setActionProcMap_cases isGoal).imp_right fun listed => ?_
      exact List.mem_map.mpr ⟨(actionId, goal), listed, rfl⟩
  | setFieldInfo proc matcher fdInfos =>
      simp only [apply] at applied
      refine .inl (atThread_leads_old ?_ applied here leads)
      intro memory thread cleared next step actionId
      cases step
      exact .inl rfl
  | setNoTable proc matcher noTable =>
      simp only [apply] at applied
      refine .inl (atThread_leads_old ?_ applied here leads)
      intro memory thread cleared next step actionId
      cases step
      exact .inl rfl
  | insertSramEntry proc matcher key value =>
      simp only [apply] at applied
      refine .inl (atThread_leads_old ?_ applied here leads)
      intro memory thread cleared next step actionId
      obtain ⟨written, _, step⟩ := Option.bind_eq_some_iff.mp step
      cases step
      exact .inl rfl
  | insertTcamEntry proc matcher key mask value =>
      simp only [apply] at applied
      refine .inl (atThread_leads_old ?_ applied here leads)
      intro memory thread cleared next step actionId
      exact .inl (insertTcamEntry_map step ▸ rfl)
  | insertAction proc actionId action =>
      refine .inl (atProc_leads_old ?_ applied here leads)
      intro before next step
      obtain ⟨executor, _, step⟩ := Option.bind_eq_some_iff.mp step
      cases step
      exact ⟨rfl, rfl⟩

theorem configure_leads {requests : List Request}
    (configured : pipeline.configure requests = some after) {index : Nat}
    {processor : Processor} (here : after.procs[index]? = some processor) {target : Int}
    (leads : processor.Leads target) :
    (∃ old, pipeline.procs[index]? = some old ∧ old.Leads target) ∨
      ∃ request ∈ requests, ((index : Int), target) ∈ request.targets := by
  induction requests generalizing pipeline with
  | nil =>
      cases configured
      exact .inl ⟨processor, here, leads⟩
  | cons request rest ih =>
      rw [configure, List.foldlM_cons] at configured
      obtain ⟨middle, applied, later⟩ := Option.bind_eq_some_iff.mp configured
      rcases ih later with ⟨old, found, before⟩ | ⟨other, member, stored⟩
      · refine (apply_leads applied found before).imp_right fun stored => ?_
        exact ⟨request, List.mem_cons_self, stored⟩
      · exact .inr ⟨other, List.mem_cons_of_mem _ member, stored⟩

/-- Nothing is stored in a pipeline that has just been started. -/
theorem not_leads_fresh {index : Nat} {processor : Processor} (here : fresh.procs[index]? = some processor)
    (target : Int) : ¬ processor.Leads target := by
  have isFresh : ∃ procId, processor = Processor.fresh procId := by
    obtain ⟨procId, _, rfl⟩ := List.mem_map.mp (List.mem_of_getElem? here)
    exact ⟨procId, rfl⟩
  obtain ⟨procId, rfl⟩ := isFresh
  rintro (⟨entry, stores, _, _⟩ | ⟨thread, member, actionId, found⟩)
  · rcases stores with ⟨bits, found⟩ | default
    · cases found
    · cases default
  · rw [(List.mem_replicate.mp member).2] at found
    cases found

end Pipeline

end Ipbm.Dataplane
