import Ipbm.Controller.ExtractGateway
import Ipbm.Dataplane.GatewayProperties

/-! The decision of a stage switch, from its rP4 source to the packet. The
compiler writes every condition as a relation and every switch key as an integer
of as many bits as there are conditions; the data plane collects the results in
the leading bits of a byte. -/

set_option autoImplicit false

namespace Ipbm.System
open Lib Dataplane Compiler Controller
open Dataplane.Gateway (bitString padded lastRow configured conditionHolds)

inductive Atom where
  | literal (value : Int)
  | lvalue (lvalue : LValue)
  deriving DecidableEq, Repr

def Atom.toOperation : Atom → Operation
  | .literal value => .literal value
  | .lvalue source => .lvalue source

/-- The operators a condition of a switch may use. -/
def relationOperator : RelationCode → Rp4Operator
  | .gt => .gt
  | .gte => .ge
  | .lt => .lt
  | .lte => .le
  | .eq => .eq
  | .neq => .ne

inductive Condition where
  | relation (code : RelationCode) (left right : Atom)
  | bare (atom : Atom)
  deriving DecidableEq, Repr

def Condition.toOperation : Condition → Operation
  | .relation code left right => .binary (relationOperator code) left.toOperation right.toOperation
  | .bare atom => atom.toOperation

/-- A header field fits the data plane: "only support assertion below 32 bits", and its header
and offset are a byte and two bytes of the request. -/
def Supported (field : HeaderField) : Prop :=
  field.headerId < 2 ^ 8 ∧ 0 ≤ field.fieldInternalOffset ∧ field.fieldInternalOffset < 2 ^ 16 ∧
    0 < field.fieldLength ∧ field.fieldLength ≤ 32

instance (field : HeaderField) : Decidable (Supported field) := inferInstanceAs (Decidable (_ ∧ _))

/-- The 32-bit value of a literal, a validity bit or a field that lies in the packet. -/
def Atom.value (headers : HeaderLookup) (phv : Phv) : Atom → Option Nat
  | .literal value => some (value % 2 ^ 32).toNat
  | .lvalue source => do
      let field ← headers source
      match field.type with
      | .valid => if field.headerId < 2 ^ 8 then phv.validBitmap[field.headerId]? else none
      | .field => do
          let hi ← phv.parsedHeaders[field.headerId]?
          let start := hi.hdrOffset + field.fieldInternalOffset.toNat
          if Supported field ∧ start + field.fieldLength.toNat ≤ 8 * phv.packet.length then
            return bitSlice phv.packet start field.fieldLength.toNat
          else
            none
      | .hit | .miss => none

/-- A bare operand holds when it is one. -/
def Condition.holds (headers : HeaderLookup) (phv : Phv) : Condition → Option Bool
  | .relation code left right => do
      return code.holds (← left.value headers phv) (← right.value headers phv)
  | .bare atom => do
      return decide ((← atom.value headers phv) = 1)

/-- The targets of a switch: its exact rows and its default, which is the first row's when the
switch writes none. -/
structure Targets where
  rows : List (Int × GateEntry)
  default : GateEntry
  deriving DecidableEq, Repr

def switchTargets (makeGatewayEntry : SwitchValue → Option GatewayEntry) (entries : List SwitchEntry) :
    Option Targets := do
  let targets ← entries.mapM fun entry => do
    return (entry.key, (← makeGatewayEntry entry.value).toGateEntry)
  let rows := (targets.filter fun target => !target.1.isDefault).map fun target => (target.1.getKey, target.2)
  let default ← ((targets.filter fun target => target.1.isDefault).getLast?.map Prod.snd) <|>
    (rows.head?.map Prod.snd)
  return ⟨rows, default⟩

/-- A row whose key is the bit string of the results, or the default when there is none. -/
def Targets.IsDecision (targets : Targets) (results : List Bool) (entry : GateEntry) : Prop :=
  ((bitString results : Int), entry) ∈ targets.rows ∨
    (∀ row ∈ targets.rows, row.1 ≠ bitString results) ∧ entry = targets.default

/-- The decision of a data plane that the switch is pushed to. -/
def decision (headers : HeaderLookup) (makeGatewayEntry : SwitchValue → Option GatewayEntry)
    (conditions : List Condition) (entries : List SwitchEntry) (history : List GatewayRequest)
    (phv : Phv) : Option GateEntry := do
  let gateway ← loadGateway headers makeGatewayEntry ⟨conditions.map Condition.toOperation, entries⟩
  let requests ← extractGateway (← gateway.toIpsaValue)
  let phv ← (configured (history ++ requests)).execute phv
  return phv.nextOp

/-- The bits behind the results are zero in the data plane, and keys are read modulo 256: what
the switch lists under that byte is a decision for the results themselves. -/
def Targets.PaddingHarmless (targets : Targets) (results : List Bool) : Prop :=
  targets.IsDecision results ((lastRow targets.rows (padded results)).getD targets.default)

/-- The keys of a switch are as many bits long as the results. -/
def Targets.Fit (targets : Targets) (length : Nat) : Prop :=
  ∀ row ∈ targets.rows, 0 ≤ row.1 ∧ row.1 < 2 ^ length

private theorem Targets.Fit.isDecision {targets : Targets} {length : Nat} (fit : targets.Fit length)
    (short : length ≤ 8) (results : List Bool) :
    targets.IsDecision results ((lastRow targets.rows (bitString results)).getD targets.default) := by
  have own : ∀ row ∈ targets.rows, (row.1 % 256).toNat = bitString results ↔ row.1 = bitString results := by
    intro row member
    have bound : (2 : Int) ^ length ≤ 2 ^ 8 := pow_le_pow_right₀ (by norm_num) short
    obtain ⟨nonneg, below⟩ := fit row member
    omega
  unfold lastRow
  cases found : targets.rows.reverse.find? fun row => (row.1 % 256).toNat = bitString results with
  | none =>
      refine .inr ⟨fun row member same => ?_, rfl⟩
      have missing := List.find?_eq_none.mp found row (List.mem_reverse.mpr member)
      exact missing (decide_eq_true ((own row member).mpr same))
  | some row =>
      have member := List.mem_reverse.mp (List.mem_of_find?_eq_some found)
      have key := List.find?_some found
      rw [decide_eq_true_eq] at key
      exact .inl ((own row member).mp key ▸ member)

/-- Eight results need no padding. -/
theorem Targets.paddingHarmless_full {targets : Targets} {results : List Bool} (fit : targets.Fit 8)
    (full : results.length = 8) : targets.PaddingHarmless results := by
  have same : padded results = bitString results := by rw [padded, full, Nat.sub_self, pow_zero, Nat.mul_one]
  rw [PaddingHarmless, same]
  exact fit.isDecision le_rfl results

/-- Of one, two or four results some that hold are padded to a key that no row has. This is harmless
where the switch lists nothing under the results themselves, or the default again. -/
theorem Targets.paddingHarmless_iff {targets : Targets} {results : List Bool}
    (fit : targets.Fit results.length) (short : results.length ≤ 4) : targets.PaddingHarmless results ↔
      bitString results = 0 ∨ (∀ row ∈ targets.rows, row.1 ≠ bitString results) ∨
        ((bitString results : Int), targets.default) ∈ targets.rows := by
  by_cases zero : bitString results = 0
  · have same : padded results = bitString results := by rw [padded, zero, Nat.zero_mul]
    rw [PaddingHarmless, same]
    exact iff_of_true (fit.isDecision (short.trans (by decide)) results) (.inl zero)
  · have missing : lastRow targets.rows (padded results) = none := by
      rw [lastRow, Option.map_eq_none_iff, List.find?_eq_none]
      intro row member
      obtain ⟨nonneg, below⟩ := fit row (List.mem_reverse.mp member)
      have large : 2 ^ results.length ≤ padded results := by
        calc 2 ^ results.length ≤ 2 ^ (8 - results.length) := Nat.pow_le_pow_right (by decide) (by omega)
          _ ≤ padded results := Nat.le_mul_of_pos_left _ (Nat.pos_of_ne_zero zero)
      have key : row.1 < (padded results : Int) := lt_of_lt_of_le below (by exact_mod_cast large)
      rw [decide_eq_true_eq]
      omega
    rw [PaddingHarmless, missing, Option.getD_none, IsDecision, or_iff_right zero, and_iff_left rfl, or_comm]

private theorem atom_compiled {headers : HeaderLookup} {phv : Phv} {atom : Atom} {value : Nat}
    (valued : atom.value headers phv = some value) :
    ∃ operand param, parseExpr headers none atom.toOperation = some (some operand) ∧
      setGateParam (operandDoc operand) = some param ∧
      Dataplane.Gateway.getValue param phv = some value ∧
      exprToExpr headers atom.toOperation = some ⟨.eq, some (.constant 1), some operand⟩ := by
  cases atom with
  | literal number =>
      cases valued
      have nonneg := Int.emod_nonneg number (show (2 ^ 32 : Int) ≠ 0 by decide)
      have below := Int.emod_lt_of_pos number (show (0 : Int) < 2 ^ 32 by decide)
      refine ⟨_, _, rfl, rfl, Dataplane.Gateway.getValue_constant ?_ phv, rfl⟩
      omega
  | lvalue source =>
      obtain ⟨field, found, valued⟩ := Option.bind_eq_some_iff.mp valued
      refine ⟨.field (some field),
        .field (gatewayField
          (sentField
            field)), by simp [Atom.toOperation, parseExpr, found], rfl,
              ?_, by simp [Atom.toOperation, exprToExpr, parseExpr, found]⟩
      cases kind : field.type with
      | valid =>
          simp only [kind, Option.ite_none_right_eq_some] at valued
          obtain ⟨small, bit⟩ := valued
          simp only [gatewayField, sentField, kind, Dataplane.Gateway.getValue, wrap_natCast,
            Nat.mod_eq_of_lt small]
          exact bit
      | field =>
          simp only [kind] at valued
          obtain ⟨hi, header, valued⟩ := Option.bind_eq_some_iff.mp valued
          obtain ⟨⟨supported, inside⟩, slice⟩ := Option.ite_none_right_eq_some.mp valued
          obtain ⟨hdrSmall, offsetLow, offsetSmall, positive, short⟩ := supported
          have sent : gatewayField (sentField field) =
              ⟨field.headerId, field.fieldInternalOffset.toNat, field.fieldLength.toNat, .field⟩ := by
            have offset : field.fieldInternalOffset % 2 ^ 16 = field.fieldInternalOffset :=
              Int.emod_eq_of_lt offsetLow offsetSmall
            have length : field.fieldLength % 2 ^ 16 = field.fieldLength :=
              Int.emod_eq_of_lt (by omega) (by omega)
            simp only [gatewayField, sentField, kind, wrap_natCast, Nat.mod_eq_of_lt hdrSmall]
            rw [wrap, wrap, offset, length]
          rw [sent, Dataplane.Gateway.getValue_field rfl header (by simpa using positive)
            (by simpa using short) inside]
          exact slice
      | hit => simp [kind] at valued
      | miss => simp [kind] at valued

@[simp] private theorem getRelationCode_relationOperator (code : RelationCode) :
    getRelationCode (relationOperator code) = code := by
  cases code <;> rfl

private def relationOf (expression : Compiler.Expression) : Option RelationExp :=
  relationExp (expression.op, operandDoc expression.left, operandDoc expression.right)

private theorem condition_compiled {headers : HeaderLookup} {phv : Phv} {condition : Condition}
    {result : Bool} (evaluated : condition.holds headers phv = some result) :
    ∃ expression exp, exprToExpr headers condition.toOperation = some expression ∧
      relationOf expression = some exp ∧ conditionHolds phv exp = some result := by
  cases condition with
  | relation code left right =>
      obtain ⟨leftValue, leftDone, evaluated⟩ := Option.bind_eq_some_iff.mp evaluated
      obtain ⟨rightValue, rightDone, evaluated⟩ := Option.bind_eq_some_iff.mp evaluated
      cases evaluated
      obtain ⟨leftOperand, leftParam, leftParsed, leftSent, leftRead, _⟩ := atom_compiled leftDone
      obtain ⟨rightOperand, rightParam, rightParsed, rightSent, rightRead, _⟩ := atom_compiled rightDone
      refine ⟨⟨relationOperator code, leftOperand, rightOperand⟩, ⟨leftParam, rightParam, code⟩, ?_, ?_, ?_⟩
      · simp [Condition.toOperation, exprToExpr, parseExpr, leftParsed, rightParsed]
      · simp [relationOf, relationExp, leftSent, rightSent]
      · simp [conditionHolds, leftRead, rightRead]
  | bare atom =>
      obtain ⟨value, done, evaluated⟩ := Option.bind_eq_some_iff.mp evaluated
      cases evaluated
      obtain ⟨operand, param, parsed, sent, read, compiled⟩ := atom_compiled done
      have one := Dataplane.Gateway.getValue_constant (show 1 < 2 ^ 32 by decide) phv
      have oneSent : setGateParam (operandDoc (some (.constant 1))) =
        some (.constant ⟨32, getUints 1 32⟩) := rfl
      refine ⟨_, ⟨.constant ⟨32, getUints 1 32⟩, param, .eq⟩, compiled, ?_, ?_⟩
      · simp [relationOf, relationExp, sent, oneSent, getRelationCode]
      · simp [conditionHolds, one, read, RelationCode.holds, eq_comm]

private theorem conditions_compiled {headers : HeaderLookup} {phv : Phv} {conditions : List Condition}
    {results : List Bool} (evaluated : conditions.mapM (Condition.holds headers phv) = some results) :
    ∃ expressions exps, (conditions.map Condition.toOperation).mapM (exprToExpr headers) = some expressions ∧
      expressions.mapM relationOf = some exps ∧ exps.mapM (conditionHolds phv) = some results := by
  induction conditions generalizing results with
  | nil =>
      cases evaluated
      exact ⟨[], [], rfl, rfl, rfl⟩
  | cons condition rest ih =>
      obtain ⟨result, others, here, later, rfl⟩ := mapM_cons_some evaluated
      obtain ⟨expression, exp, compiled, sent, read⟩ := condition_compiled here
      obtain ⟨expressions, exps, compiledRest, sentRest, readRest⟩ := ih later
      exact ⟨expression :: expressions, exp :: exps, mapM_cons_eq_some compiled compiledRest,
        mapM_cons_eq_some sent sentRest, mapM_cons_eq_some read readRest⟩

private theorem targets_compiled {makeGatewayEntry : SwitchValue → Option GatewayEntry}
    {entries : List SwitchEntry} {targets : List (Key × GateEntry)}
    (resolved : (entries.mapM fun entry => do
      return (entry.key, (← makeGatewayEntry entry.value).toGateEntry)) = some targets) :
    ∃ values, (entries.mapM fun entry => do return (entry.key, ← makeGatewayEntry entry.value)) =
      some values ∧ targets = values.map fun value => (value.1, value.2.toGateEntry) := by
  induction entries generalizing targets with
  | nil =>
      cases resolved
      exact ⟨[], rfl, rfl⟩
  | cons entry rest ih =>
      obtain ⟨target, others, here, later, rfl⟩ := mapM_cons_some resolved
      obtain ⟨value, made, here⟩ := Option.bind_eq_some_iff.mp here
      cases here
      obtain ⟨values, compiled, rfl⟩ := ih later
      exact ⟨(entry.key, value) :: values, mapM_cons_eq_some (by rw [made]; rfl) compiled, rfl⟩

private theorem switch_compiled {headers : HeaderLookup}
    {makeGatewayEntry : SwitchValue → Option GatewayEntry}
    {ops : List Operation} {entries : List SwitchEntry} {expressions : List Compiler.Expression}
    {targets : Targets} (compiled : ops.mapM (exprToExpr headers) = some expressions)
    (resolved : switchTargets makeGatewayEntry entries = some targets) :
    ∃ gateway, loadGateway headers makeGatewayEntry ⟨ops, entries⟩ = some gateway ∧
      gateway.toIpsaValue = some {
        expressions := expressions.map fun exp => (exp.op, operandDoc exp.left, operandDoc exp.right)
        default := targets.default
        entries := targets.rows } := by
  obtain ⟨pairs, made, resolved⟩ := Option.bind_eq_some_iff.mp resolved
  obtain ⟨default, chosen, resolved⟩ := Option.bind_eq_some_iff.mp resolved
  cases resolved
  obtain ⟨values, loaded, rfl⟩ := targets_compiled made
  simp only [List.filter_map, Function.comp_def, List.getLast?_map, Option.map_map, List.map_map,
    List.head?_map] at chosen
  generalize defaultsEq : values.filter (fun value => value.1.isDefault) = defaults at chosen
  generalize rowsEq : values.filter (fun value => !value.1.isDefault) = rows at chosen
  let table : NextTable := ⟨(defaults.getLast?).map Prod.snd, rows.map fun value => (value.1.getKey, value.2)⟩
  have default_eq : table.default.map GatewayEntry.toGateEntry = some default := by
    rw [← chosen]
    cases last : defaults.getLast? <;> simp [table, NextTable.default, last, Function.comp_def]
  obtain ⟨target, found, gate⟩ := Option.map_eq_some_iff.mp default_eq
  refine ⟨⟨expressions, table⟩, ?_, ?_⟩
  · unfold loadGateway
    rw [compiled, Option.bind_eq_bind, Option.bind_some, loaded, Option.bind_eq_bind, Option.bind_some,
      defaultsEq, rowsEq]
    exact if_pos (Option.isSome_of_eq_some found)
  · simp only [Compiler.Gateway.toIpsaValue, found, Option.bind_eq_bind, Option.bind_some, gate]
    simp [table, List.filter_map, Function.comp_def, rowsEq]

/-- The decision of every packet is right exactly when the expression vector ends full and the
padding of the results is harmless. -/
theorem gateway_decision_iff (headers : HeaderLookup) (makeGatewayEntry : SwitchValue → Option GatewayEntry)
    (conditions : List Condition) (entries : List SwitchEntry) (targets : Targets)
    (history : List GatewayRequest) (phv : Phv) (results : List Bool)
    (nonempty : conditions ≠ []) (few : conditions.length ≤ 8)
    (resolved : switchTargets makeGatewayEntry entries = some targets)
    (evaluated : conditions.mapM (Condition.holds headers phv) = some results) :
    (∃ entry, decision headers makeGatewayEntry conditions entries history phv = some entry ∧
        targets.IsDecision results entry) ↔
      (configured history).capacity ≤ conditions.length ∧ conditions.length ∈ [1, 2, 4, 8] ∧
        targets.PaddingHarmless results := by
  obtain ⟨expressions, exps, compiled, sent, read⟩ := conditions_compiled evaluated
  obtain ⟨gateway, loaded, written⟩ := switch_compiled compiled resolved
  have length : exps.length = conditions.length := by
    rw [length_of_mapM_some sent, length_of_mapM_some compiled, List.length_map]
  have requests : extractGateway {
      expressions := expressions.map fun exp => (exp.op, operandDoc exp.left, operandDoc exp.right)
      default := targets.default
      entries := targets.rows } = some (Dataplane.Gateway.push exps targets.default targets.rows) := by
    simp only [extractGateway, List.mapM_map]
    change (expressions.mapM relationOf >>= fun exps => _) = _
    rw [sent]
    rfl
  have ran : decision headers makeGatewayEntry conditions entries history phv =
      if (configured history).capacity ≤ exps.length ∧ exps.length ∈ [1, 2, 4, 8] then
        some ((lastRow targets.rows (padded results)).getD targets.default) else none := by
    have filled : exps ≠ [] := List.length_pos_iff.mp (length ▸ List.length_pos_iff.mpr nonempty)
    simp only [decision, loaded, written, requests, Option.bind_eq_bind, Option.bind_some]
    rw [Dataplane.Gateway.execute_push read filled (length ▸ few)]
    split <;> rfl
  rw [ran, length]
  constructor
  · rintro ⟨entry, decided, right⟩
    obtain ⟨⟨room, size⟩, same⟩ := Option.ite_none_right_eq_some.mp decided
    cases same
    exact ⟨room, size, right⟩
  · rintro ⟨room, size, harmless⟩
    exact ⟨_, if_pos ⟨room, size⟩, harmless⟩

/-- A switch with two targets, stage 3 and the end of the pipeline. -/
def stageOrEnd : SwitchValue → Option GatewayEntry
  | .none => some (.stage (-1))
  | _ => some (.stage 3)

/-- With eight conditions the byte is the bit string. -/
theorem gateway_decision_eight :
    ∃ entry, decision (fun _ => none) stageOrEnd (List.replicate 8 (.bare (.literal 1)))
        [⟨.exact 255, .stage "a"⟩, ⟨.default, .none⟩] [] Phv.fresh = some entry ∧
      Targets.IsDecision ⟨[(255, ⟨.stage, 3⟩)], ⟨.stage, -1⟩⟩ (List.replicate 8 true) entry := by
  refine (gateway_decision_iff (fun _ => none) stageOrEnd (List.replicate 8 (.bare (.literal 1)))
    [⟨.exact 255, .stage "a"⟩, ⟨.default, .none⟩] ⟨[(255, ⟨.stage, 3⟩)], ⟨.stage, -1⟩⟩ [] Phv.fresh
    (List.replicate 8 true) (by decide) (by decide) rfl rfl).mpr ⟨Nat.zero_le _, by decide, .inl ?_⟩
  decide

/-- One condition that holds is looked up as 128, and so the row for 1 is missed. -/
theorem gateway_decision_one_missed :
    switchTargets stageOrEnd [⟨.exact 1, .stage "a"⟩, ⟨.default, .none⟩] =
        some ⟨[(1, ⟨.stage, 3⟩)], ⟨.stage, -1⟩⟩ ∧
      [Condition.bare (.literal 1)].mapM (Condition.holds (fun _ => none) Phv.fresh) = some [true] ∧
      ¬ ∃ entry, decision (fun _ => none) stageOrEnd [.bare (.literal 1)]
          [⟨.exact 1, .stage "a"⟩, ⟨.default, .none⟩] [] Phv.fresh = some entry ∧
        Targets.IsDecision ⟨[(1, ⟨.stage, 3⟩)], ⟨.stage, -1⟩⟩ [true] entry := by
  refine ⟨rfl, rfl, ?_⟩
  rintro ⟨entry, decided, right⟩
  have missed : some (⟨.stage, -1⟩ : GateEntry) = some entry := decided
  cases missed
  obtain row | ⟨none, _⟩ := right
  · exact absurd row (by decide)
  · exact none _ List.mem_cons_self rfl

end Ipbm.System
