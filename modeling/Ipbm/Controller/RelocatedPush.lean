import Ipbm.Controller.ProcessorPush
import Ipbm.Dataplane.Relocation

/-! Documents that name the stages by different numbers, and the calls they lead to. -/

set_option autoImplicit false

namespace Ipbm.Controller
open Lib Dataplane Compiler

/-- The same table, whose actions lead to processors that correspond. -/
structure TableAlike (located : Int → Int → Prop) (used ideal : Table) : Prop where
  same : used = { ideal with procId := used.procId, actionToProc := used.actionToProc }
  leads : List.Forall₂ (fun pair pair' =>
    pair.1 = pair'.1 ∧ located pair'.2 pair.2) used.actionToProc ideal.actionToProc

structure DocumentAlike (located : Int → Int → Prop) (used ideal : ProcessorDoc) : Prop where
  levels : used.levels = ideal.levels
  expressions : used.gateway.expressions = ideal.gateway.expressions
  default : used.gateway.default.Alike located ideal.gateway.default
  entries : List.Forall₂ (fun pair pair' =>
    pair.1 = pair'.1 ∧ GateEntry.Alike located pair.2 pair'.2) used.gateway.entries
    ideal.gateway.entries
  matcher : List.Forall₂ (TableAlike located) used.matcher ideal.matcher
  executor : used.executor = ideal.executor

variable {located : Int → Int → Prop}

theorem DocumentAlike.gateway {used ideal : ProcessorDoc} (alike : DocumentAlike located used ideal) :
    Option.Rel (List.Forall₂ (GatewayRequest.Alike located)) (extractGateway used.gateway)
      (extractGateway ideal.gateway) := by
  unfold extractGateway
  rw [alike.expressions]
  refine rel_bind (rel_of_eq (fun _ => rfl) _) fun exps exps' same => .some ?_
  subst same
  have front : List.Forall₂ (GatewayRequest.Alike located) (.clearRelationExp :: exps.map .insertRelationExp)
      (.clearRelationExp :: exps.map .insertRelationExp) := by
    refine .cons .clearRelationExp (List.forall₂_same.mpr fun request member => ?_)
    obtain ⟨exp, _, rfl⟩ := List.mem_map.mp member
    exact .insertRelationExp exp
  refine List.rel_append front (.cons (.setDefaultGateEntry alike.default) ?_)
  rw [List.forall₂_map_left_iff, List.forall₂_map_right_iff]
  exact alike.entries.imp fun pair pair' same => same.1 ▸ .modResMap pair.1 same.2

theorem tableCalls_alike {used ideal : Table} (alike : TableAlike located used ideal) :
    Option.Rel (List.Forall₂ fun pair pair' => pair.1 = pair'.1 ∧ ThreadRequest.Alike located pair.2 pair'.2)
      (tableCalls used) (tableCalls ideal) := by
  have ids : used.id = ideal.id := by
    rw [alike.same]
  have configs : tableConfig used = tableConfig ideal := by
    rw [alike.same]
    rfl
  have fields : used.fieldInfos = ideal.fieldInfos := by
    rw [alike.same]
  unfold tableCalls
  rw [ids, configs, fields]
  refine rel_bind (rel_of_eq (fun _ => rfl) _) fun config config' same => .some ?_
  subst same
  exact .cons ⟨rfl, .setMemConfig config⟩
    (.cons ⟨rfl, .setActionProc alike.leads⟩ (.cons ⟨rfl, .setFieldInfo _⟩ .nil))

/-- Documents that differ in the numbers of the stages ask for the same but for these numbers. -/
theorem processorCalls_alike {used ideal : ProcessorDoc} (alike : DocumentAlike located used ideal) :
    Option.Rel (ProcessorCalls.Alike located) (processorCalls used) (processorCalls ideal) := by
  unfold processorCalls
  rw [alike.executor, alike.levels]
  refine rel_bind alike.gateway fun gateway gateway' gateways =>
    rel_bind (rel_mapM alike.matcher fun _ _ => tableCalls_alike) fun matcher matcher' matchers =>
      rel_bind (rel_of_eq (fun _ => rfl) _) fun executor executor' same => ?_
  exact .some ⟨rfl, rfl, gateways, List.rel_flatten matchers, same⟩

end Ipbm.Controller
