import Ipbm.Controller.ExtractConfig
import Ipbm.System.ExpressionMessage

/-! The right side of an assignment on its way to the switch: compiled, written to
the document, read by the controller and sent. An operator the controller does not
list arrives as an addition. -/

set_option autoImplicit false

namespace Ipbm.System
open Lib Compiler Dataplane
open Controller (sentField getOpCode)

variable (headers : HeaderLookup) (actionDef : ActionDef)

/-- The tree that ends in the switch. -/
def deliverExpTree (operation : Operation) : Option ExpTreeNode := do
  let operand ← parseExpr headers (some actionDef) operation
  let tree ← Controller.buildExpTree operand
  let message ← CfgClient.buildExpTree tree
  CfgService.buildExpTree message

/-- The operator of the switch with the same meaning. -/
def opCodeOf : Rp4Operator → Option OpCode
  | .plus => some .add
  | .minus => some .sub
  | .mul => some .mul
  | .div => some .div
  | .and => some .bitAnd
  | .or => some .bitOr
  | .xor => some .bitXor
  | .not => some .bitNeg
  | .eq | .ne | .lt | .gt | .le | .ge | .notl => none

def parameterIndex (name : String) : Option Nat :=
  actionDef.parameters.findIdx? fun parameter => parameter.1 = name

/-- A tree with the shape, the operators and the leaves of an expression. Constants are 32-bit words. -/
inductive Denotes : Operation → ExpTreeNode → Prop where
  | literal {value : Int} {data : Data} (len : data.dataLen = 32)
      (word : (beVal data.val : Int) = value % 2 ^ 32) :
      Denotes (.literal value) (.node (.constant data) .nil .nil)
  | lvalue {source : LValue} {field : FieldInfo} (found : headers source = some field.headerField) :
      Denotes (.lvalue source) (.node (.field field) .nil .nil)
  | parameter {name : String} {index : Nat} (found : parameterIndex actionDef name = some index) :
      Denotes (.parameter name) (.node (.param index) .nil .nil)
  | binary {op : Rp4Operator} {code : OpCode} {left right : Operation} {leftTree rightTree : ExpTreeNode}
      (same : opCodeOf op = some code) : Denotes left leftTree → Denotes right rightTree →
      Denotes (.binary op left right) (.node (.operator code) leftTree rightTree)

/-- A field that is not declared is reported. -/
def Rejected : Operation → Prop
  | .lvalue source => headers source = none
  | .binary _ left right => Rejected left ∨ Rejected right
  | .nil | .literal _ | .parameter _ => False

/-- The operators the controller lists. -/
def listedOperators : List Rp4Operator := [.plus, .minus, .and, .or, .xor, .not]

/-- Declared fields within the widths of the switch, declared parameters, and operators the
controller lists. -/
inductive Expressible : Operation → Prop where
  | literal {value : Int} : Expressible (.literal value)
  | lvalue {source : LValue} {field : HeaderField} (found : headers source = some field)
      (fits : (sentField field).headerField = field) : Expressible (.lvalue source)
  | parameter {name : String} (declared : ∃ parameter ∈ actionDef.parameters, parameter.1 = name) :
      Expressible (.parameter name)
  | binary {op : Rp4Operator} {left right : Operation} (listed : op ∈ listedOperators) :
      Expressible left → Expressible right → Expressible (.binary op left right)

/-! ### Hops -/

variable {headers actionDef}

theorem sentField_fits (field : HeaderField) : Sendable (.field (sentField field)) :=
  .field (Nat.mod_lt _ (by decide)) (wrap_lt 16 _) (wrap_lt 16 _)

theorem length_getUints (data length : Nat) : (getUints data length).length = bytesFor length := by
  simp [getUints]

theorem getOpCode_shared (op : Rp4Operator) : getOpCode op ∈ sharedOpCodes := by
  cases op <;> decide

/-- The controller builds trees that the message carries unchanged. -/
theorem buildExpTree_sendable {operand : Option Operand} {tree : ExpTreeNode}
    (built : Controller.buildExpTree operand = some tree) : SendableTree tree := by
  induction operand using Controller.buildExpTree.induct
    generalizing tree with rw [Controller.buildExpTree] at built
  | case1 => cases built
  | case2 value =>
      cases built
      exact .node (.constant (length_getUints _ _)) .nil .nil
  | case3 parameterId =>
      cases built
      exact .node .param .nil .nil
  | case4 => cases built
  | case5 field =>
      cases built
      exact .node (sentField_fits field) .nil .nil
  | case6 op left right leftIH rightIH =>
      obtain ⟨leftTree, leftBuilt, built⟩ := Option.bind_eq_some_iff.mp built
      obtain ⟨rightTree, rightBuilt, built⟩ := Option.bind_eq_some_iff.mp built
      cases built
      exact .node (.operator (getOpCode_shared op)) (leftIH leftBuilt) (rightIH rightBuilt)

theorem deliverExpTree_eq_some_iff {operation : Operation} {tree : ExpTreeNode} :
    deliverExpTree headers actionDef operation = some tree ↔
      ∃ operand, parseExpr headers (some actionDef) operation = some operand ∧
        Controller.buildExpTree operand = some tree := by
  constructor
  · intro delivered
    obtain ⟨operand, parsed, delivered⟩ := Option.bind_eq_some_iff.mp delivered
    obtain ⟨built, isBuilt, delivered⟩ := Option.bind_eq_some_iff.mp delivered
    obtain ⟨message, sent, received⟩ := buildExpTree_round_trip (buildExpTree_sendable isBuilt)
    simp only [sent, Option.bind_eq_bind, Option.bind_some, received] at delivered
    cases delivered
    exact ⟨operand, parsed, isBuilt⟩
  · rintro ⟨operand, parsed, built⟩
    obtain ⟨message, sent, received⟩ := buildExpTree_round_trip (buildExpTree_sendable built)
    simp [deliverExpTree, parsed, built, sent, received]

theorem deliverExpTree_binary {op : Rp4Operator} {left right : Operation} {tree : ExpTreeNode} :
    deliverExpTree headers actionDef (.binary op left right) = some tree ↔ ∃ leftTree rightTree,
      deliverExpTree headers actionDef left = some leftTree ∧
        deliverExpTree headers actionDef right = some rightTree ∧
        tree = .node (.operator (getOpCode op)) leftTree rightTree := by
  simp only [deliverExpTree_eq_some_iff, parseExpr, Option.bind_eq_bind, Option.bind_eq_some_iff]
  constructor
  · rintro ⟨operand, ⟨leftOperand, leftParsed, rightOperand, rightParsed, same⟩, built⟩
    cases same
    rw [Controller.buildExpTree] at built
    obtain ⟨leftTree, leftBuilt, built⟩ := Option.bind_eq_some_iff.mp built
    obtain ⟨rightTree, rightBuilt, built⟩ := Option.bind_eq_some_iff.mp built
    cases built
    exact ⟨leftTree, rightTree, ⟨leftOperand, leftParsed, leftBuilt⟩,
      ⟨rightOperand, rightParsed, rightBuilt⟩, rfl⟩
  · rintro ⟨leftTree, rightTree, ⟨leftOperand, leftParsed, leftBuilt⟩,
      ⟨rightOperand, rightParsed, rightBuilt⟩, rfl⟩
    refine ⟨_, ⟨leftOperand, leftParsed, rightOperand, rightParsed, rfl⟩, ?_⟩
    simp [Controller.buildExpTree, leftBuilt, rightBuilt]

theorem deliverExpTree_literal (value : Int) :
    deliverExpTree headers actionDef (.literal value) =
      some (.node (.constant ⟨32, getUints (wrap 32 value) 32⟩) .nil .nil) :=
  deliverExpTree_eq_some_iff.mpr ⟨_, rfl, by rw [Controller.buildExpTree]⟩

theorem deliverExpTree_lvalue {source : LValue} {tree : ExpTreeNode} :
    deliverExpTree headers actionDef (.lvalue source) = some tree ↔
      ∃ field, headers source = some field ∧ tree = .node (.field (sentField field)) .nil .nil := by
  rw [deliverExpTree_eq_some_iff, parseExpr]
  cases found : headers source with
  | none => simp [Controller.buildExpTree]
  | some field => simp [Controller.buildExpTree, eq_comm]

theorem deliverExpTree_parameter {name : String} {tree : ExpTreeNode} :
    deliverExpTree headers actionDef (.parameter name) = some tree ↔
      ∃ index, parameterIndex actionDef name = some index ∧ tree = .node (.param index) .nil .nil := by
  rw [deliverExpTree_eq_some_iff, parseExpr, parameterIndex]
  cases found : actionDef.parameters.findIdx? fun parameter => parameter.1 = name with
  | none => simp [found, Controller.buildExpTree]
  | some index => simp [found, Controller.buildExpTree, @eq_comm _ (ExpTreeNode.node _ _ _) tree]

theorem word_getUints (value : Int) : (beVal (getUints (wrap 32 value) 32) : Int) = value % 2 ^ 32 := by
  have nonneg : 0 ≤ value % 2 ^ 32 := Int.emod_nonneg _ (by decide)
  have small : value % 2 ^ 32 < 2 ^ 32 := Int.emod_lt_of_pos _ (by decide)
  have bytes : getUints (wrap 32 value) 32 = beBytes 4 (wrap 32 value) := by
    simp [getUints, bytesFor, List.range_succ, beBytes, Nat.shiftRight_eq_div_pow]
  rw [bytes, beVal_beBytes, Nat.mod_eq_of_lt (by unfold wrap; omega), wrap, Int.toNat_of_nonneg nonneg]

/-- The controller's list has the right operators, and every other one reads as an addition. -/
theorem opCodeOf_eq_iff (op : Rp4Operator) : opCodeOf op = some (getOpCode op) ↔ op ∈ listedOperators := by
  cases op <;> decide

theorem parameterIndex_isSome {name : String} :
    (∃ parameter ∈ actionDef.parameters, parameter.1 = name) ↔
      ∃ index, parameterIndex actionDef name = some index := by
  rw [parameterIndex, ← Option.isSome_iff_exists, List.findIdx?_isSome, List.any_eq_true]
  simp

/-- What an expressible right side needs is delivered. -/
theorem Expressible.delivered {operation : Operation}
    (expressible : Expressible headers actionDef operation) :
    ∃ tree, deliverExpTree headers actionDef operation = some tree ∧
      Denotes headers actionDef operation tree := by
  induction expressible with
  | @literal value => exact ⟨_, deliverExpTree_literal value, .literal rfl (word_getUints value)⟩
  | @lvalue source field found fits =>
      exact ⟨_, deliverExpTree_lvalue.mpr ⟨field, found, rfl⟩, .lvalue (fits.symm ▸ found)⟩
  | parameter declared =>
      obtain ⟨index, found⟩ := parameterIndex_isSome.mp declared
      exact ⟨_, deliverExpTree_parameter.mpr ⟨index, found, rfl⟩, .parameter found⟩
  | @binary op _ _ listed _ _ leftIH rightIH =>
      obtain ⟨leftTree, leftDelivered, leftDenotes⟩ := leftIH
      obtain ⟨rightTree, rightDelivered, rightDenotes⟩ := rightIH
      exact ⟨_, deliverExpTree_binary.mpr ⟨leftTree, rightTree, leftDelivered, rightDelivered, rfl⟩,
        .binary ((opCodeOf_eq_iff op).mpr listed) leftDenotes rightDenotes⟩

theorem Denotes.expressible {operation : Operation} {tree : ExpTreeNode}
    (denotes : Denotes headers actionDef operation tree)
    (delivered : deliverExpTree headers actionDef operation = some tree) :
    Expressible headers actionDef operation := by
  induction denotes with
  | literal => exact .literal
  | @lvalue source field found =>
      obtain ⟨other, isOther, same⟩ := deliverExpTree_lvalue.mp delivered
      cases found.symm.trans isOther
      simp only [ExpTreeNode.node.injEq, Parameter.field.injEq, and_true] at same
      exact .lvalue found (congrArg Dataplane.FieldInfo.headerField same.symm)
  | parameter found => exact .parameter (parameterIndex_isSome.mpr ⟨_, found⟩)
  | @binary op code left right leftTree rightTree same _ _ leftIH rightIH =>
      obtain ⟨first, second, leftDelivered, rightDelivered, equal⟩ := deliverExpTree_binary.mp delivered
      cases equal
      exact .binary ((opCodeOf_eq_iff op).mp same) (leftIH leftDelivered) (rightIH rightDelivered)

/-- A right side that is not rejected keeps its meaning exactly when it is made of declared names
and of operators that the controller lists. -/
theorem expression_kept_iff (headers : HeaderLookup) (actionDef : ActionDef) (operation : Operation) :
    (Rejected headers operation ∨
      ∃ tree, deliverExpTree headers actionDef operation = some tree ∧
        Denotes headers actionDef operation tree) ↔
    (Rejected headers operation ∨ Expressible headers actionDef operation) := by
  refine or_congr_right ⟨?_, Expressible.delivered⟩
  rintro ⟨tree, delivered, denotes⟩
  exact denotes.expressible delivered

/-- `(x * 3)` in an action with the parameter `x`. -/
def product : Operation := .binary .mul (.parameter "x") (.literal 3)

def scale : ActionDef := ⟨"scale", [("x", none)], []⟩

/-- A product arrives as a sum. -/
theorem expression_kept_product_lost :
    deliverExpTree (fun _ => none) scale product = some (.node (.operator .add) (.node (.param 0) .nil .nil)
      (.node (.constant ⟨32, [0, 0, 0, 3]⟩) .nil .nil)) ∧
    ¬ (Rejected (fun _ => none) product ∨
      ∃ tree, deliverExpTree (fun _ => none) scale product = some tree ∧
        Denotes (fun _ => none) scale product tree) := by
  have delivered : deliverExpTree (fun _ => none) scale product =
    some (.node (.operator .add) (.node (.param 0) .nil .nil)
      (.node (.constant ⟨32, [0, 0, 0, 3]⟩) .nil .nil)) := by
    refine deliverExpTree_binary.mpr ⟨_, _, deliverExpTree_parameter.mpr ⟨0, rfl, rfl⟩,
      deliverExpTree_literal 3, ?_⟩
    rfl
  refine ⟨delivered, ?_⟩
  rintro (rejected | ⟨tree, isTree, denotes⟩)
  · rcases rejected with rejected | rejected
    · exact rejected
    · exact rejected
  · cases delivered.symm.trans isTree
    cases denotes with
    | binary same => cases same

end Ipbm.System
