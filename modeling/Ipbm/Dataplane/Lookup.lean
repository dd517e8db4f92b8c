import Ipbm.Dataplane.Pipeline

/-! What a processor does behind a lookup: the action it executes and the processor it names
follow from the action id that the lookup selects. -/

set_option autoImplicit false

namespace Ipbm.Dataplane

variable {memory : Memory} {scratch : Nat → UInt8} {processor : Processor}

/-- The packet behind the lookup in a table, if it comes to one. -/
def Processor.matched (memory : Memory) (scratch : Nat → UInt8) (processor : Processor)
    (phv : Phv) : Option Phv := do
  let phv ← processor.parser.parse phv
  if phv.nextProcId = -1 then
    none
  else
    let phv ← processor.gateway.execute phv
    match phv.nextOp.type with
    | .stage => none
    | .table => processor.matcher.execute memory scratch phv.nextOp.val phv

/-- The action that a processor executes if a lookup of the matcher selects the action id, and the processor
that the packet goes on to. -/
def Processor.afterLookup (processor : Processor) (matcherId actionId : Int) : Option (Action × Int) := do
  let thread ← processor.matcher.thread matcherId
  if actionId < 0 then
    none
  else do
    let action ← (processor.exe[actionId.toNat]?).join
    return (action, thread.nextProc actionId)

theorem Matcher.execute_miss {matcher : Matcher} {matcherId : Int} {phv after : Phv}
    (look : matcher.execute memory scratch matcherId phv = some after) (missed : after.hit = false) :
    ∃ thread, matcher.thread matcherId = some thread ∧
      after = { phv with hit := false, nextActionId := thread.missActId } := by
  obtain ⟨thread, found, look⟩ := Option.bind_eq_some_iff.mp look
  refine ⟨thread, found, ?_⟩
  split at look
  · cases look
    rfl
  · obtain ⟨key, _, look⟩ := Option.bind_eq_some_iff.mp look
    obtain ⟨res, _, look⟩ := Option.bind_eq_some_iff.mp look
    cases res with
    | none =>
        cases look
        rfl
    | some outValue =>
        obtain ⟨high, _, look⟩ := Option.bind_eq_some_iff.mp look
        obtain ⟨low, _, look⟩ := Option.bind_eq_some_iff.mp look
        cases look
        cases missed

/-- A packet that comes to a table is processed by the action its lookup selects, and goes on to the
processor that the table names for this action. -/
theorem Processor.processPacket_matched {phv matched : Phv}
    (look : processor.matched memory scratch phv = some matched) :
    processor.processPacket memory scratch phv =
      (processor.afterLookup matched.nextOp.val matched.nextActionId).bind fun selected =>
        (selected.1.setActionParas matched.matchValue).bind fun actionParas =>
          selected.1.execute actionParas { matched with nextProcId := selected.2 } := by
  obtain ⟨parsed, parse, look⟩ := Option.bind_eq_some_iff.mp look
  obtain ⟨goes, look⟩ := Option.ite_none_left_eq_some.mp look
  obtain ⟨gated, gate, look⟩ := Option.bind_eq_some_iff.mp look
  unfold processPacket afterLookup
  rw [parse, Option.bind_eq_bind, Option.bind_some, if_neg goes, gate, Option.bind_eq_bind, Option.bind_some]
  cases type : gated.nextOp.type <;> rw [type] at look
  case stage => cases look
  case table =>
    dsimp only at look
    simp only [look, Option.bind_eq_bind, Option.bind_some, Executor.execute]
    cases processor.matcher.thread matched.nextOp.val with
    | none => rfl
    | some thread =>
        by_cases negative : matched.nextActionId < 0
        · simp [negative]
        · simp only [Option.bind_some, if_neg negative]
          cases (processor.exe[matched.nextActionId.toNat]?).join <;> rfl

end Ipbm.Dataplane
