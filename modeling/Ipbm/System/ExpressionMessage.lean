import Ipbm.Dataplane.Executor

/-! Expression trees in a message (`api/controller_client.h`,
`api/dataplane_server.h`): what the client writes is what the server builds. -/

set_option autoImplicit false

namespace Ipbm.System
open Dataplane

/-! ### Messages -/

namespace Rpc

inductive FieldType where
  | fd | valid | hit | miss
  deriving DecidableEq, Repr

inductive ParameterType where
  | constant | header | field | param | operator
  deriving DecidableEq, Repr

inductive OpCode where
  | add | sub | setField | copyField | shiftLeft | shiftRight | bitAnd | bitOr | bitXor | bitNeg
  deriving DecidableEq, Repr

structure FieldInfo where
  hdrId : Nat := 0
  internalOffset : Nat := 0
  fieldLen : Nat := 0
  fieldType : FieldType := .fd
  deriving DecidableEq, Repr

structure Data where
  len : Nat := 0
  val : List UInt8 := []
  deriving DecidableEq, Repr

/-- The `oneof` of a parameter. -/
inductive Value where
  | hdrId (headerId : Nat)
  | field (field : FieldInfo)
  | constantData (data : Data)
  | actionParaId (actionParaId : Nat)
  | op (op : OpCode)
  deriving DecidableEq, Repr

/-- The tag is a field of its own, next to the `oneof`. -/
structure Parameter where
  type : ParameterType := .constant
  val : Option Value := none
  deriving DecidableEq, Repr

namespace Parameter

/-- A member that is not set reads as its default. -/
def field (parameter : Parameter) : FieldInfo :=
  match parameter.val with
  | some (.field field) => field
  | _ => {}

def constantData (parameter : Parameter) : Data :=
  match parameter.val with
  | some (.constantData data) => data
  | _ => {}

def actionParaId (parameter : Parameter) : Nat :=
  match parameter.val with
  | some (.actionParaId actionParaId) => actionParaId
  | _ => 0

def op (parameter : Parameter) : OpCode :=
  match parameter.val with
  | some (.op op) => op
  | _ => .add

end Parameter

/-- A node of a message; `unset` is a sub-message that is not there. -/
inductive ExpTreeNode where
  | unset
  | node (opt : Parameter) (left right : ExpTreeNode)
  deriving DecidableEq, Repr

end Rpc

/-! ### The client -/

namespace CfgClient

def getFieldType : FieldType → Rpc.FieldType
  | .valid => .valid
  | .field => .fd
  | .hit => .hit
  | .miss => .miss

/-- Operators outside the list fall off the end of a function that returns a value. -/
def getOpCode : OpCode → Option Rpc.OpCode
  | .add => some .add
  | .sub => some .sub
  | .shiftLeft => some .shiftLeft
  | .shiftRight => some .shiftRight
  | .bitAnd => some .bitAnd
  | .bitOr => some .bitOr
  | .bitXor => some .bitXor
  | .bitNeg => some .bitNeg
  | .setField => some .setField
  | .copyField => some .copyField
  | _ => none

/-- The first bytes of an array. -/
def getString (key : List UInt8) (byteLen : Nat) : Option (List UInt8) :=
  if byteLen ≤ key.length then some (key.take byteLen) else none

/-- The type of a header operand falls off the end like an operator that is not listed. -/
def buildParameter : Parameter → Option Rpc.Parameter
  | .field field => some ⟨.field, some (.field {
      hdrId := field.hdrId
      internalOffset := field.internalOffset
      fieldLen := field.fdLen
      fieldType := getFieldType field.fdType })⟩
  | .constant data => do
      return ⟨.constant, some (.constantData ⟨data.dataLen, ← getString data.val (bytesFor data.dataLen)⟩)⟩
  | .param actionParaId => some ⟨.param, some (.actionParaId actionParaId)⟩
  | .operator op => do return ⟨.operator, some (.op (← getOpCode op))⟩
  | .header _ => none

/-- The sub-message of a null child is not touched. -/
def buildExpTree : ExpTreeNode → Option Rpc.ExpTreeNode
  | .nil => some .unset
  | .node opt left right => do
      return .node (← buildParameter opt) (← buildExpTree left) (← buildExpTree right)

end CfgClient

/-! ### The server -/

namespace CfgService

def getFieldType : Rpc.FieldType → FieldType
  | .valid => .valid
  | .fd => .field
  | .hit => .hit
  | .miss => .miss

def getOpCode : Rpc.OpCode → OpCode
  | .add => .add
  | .sub => .sub
  | .shiftLeft => .shiftLeft
  | .shiftRight => .shiftRight
  | .bitAnd => .bitAnd
  | .bitOr => .bitOr
  | .bitXor => .bitXor
  | .bitNeg => .bitNeg
  | .setField => .setField
  | .copyField => .copyField

/-- A buffer of `byteLen` bytes from the bytes of a message: more run past it, fewer leave bytes
without a value. -/
def getUintFromBytes (bytes : List UInt8) (byteLen : Nat) : Option (List UInt8) :=
  if bytes.length = byteLen then some bytes else none

/-- A node of another type keeps the zeros it was allocated with. -/
def buildParameter (opt : Rpc.Parameter) : Option Parameter :=
  match opt.type with
  | .field => some (.field {
      hdrId := opt.field.hdrId % 2 ^ 8
      internalOffset := opt.field.internalOffset % 2 ^ 16
      fdLen := opt.field.fieldLen % 2 ^ 16
      fdType := getFieldType opt.field.fieldType })
  | .constant => do
      return .constant ⟨opt.constantData.len,
        ← getUintFromBytes opt.constantData.val (bytesFor opt.constantData.len)⟩
  | .param => some (.param opt.actionParaId)
  | .operator => some (.operator (getOpCode opt.op))
  | .header => some (.constant {})

def buildExpTree : Rpc.ExpTreeNode → Option ExpTreeNode
  | .unset => some .nil
  | .node opt left right => do
      return .node (← buildParameter opt) (← buildExpTree left) (← buildExpTree right)

end CfgService

/-! ### Round trips -/

/-- The operators that both lists of operators name. -/
def sharedOpCodes : List OpCode :=
  [.add, .sub, .shiftLeft, .shiftRight, .bitAnd, .bitOr, .bitXor, .bitNeg, .setField, .copyField]

/-- An operand or operator as the switch holds it. -/
inductive Sendable : Parameter → Prop where
  | field {field : FieldInfo} (hdrId : field.hdrId < 2 ^ 8) (internalOffset : field.internalOffset < 2 ^ 16)
      (fdLen : field.fdLen < 2 ^ 16) : Sendable (.field field)
  | constant {data : Data} (bytes : data.val.length = bytesFor data.dataLen) : Sendable (.constant data)
  | param {actionParaId : Nat} : Sendable (.param actionParaId)
  | operator {op : OpCode} (shared : op ∈ sharedOpCodes) : Sendable (.operator op)

inductive SendableTree : ExpTreeNode → Prop where
  | nil : SendableTree .nil
  | node {opt : Parameter} {left right : ExpTreeNode} :
      Sendable opt → SendableTree left → SendableTree right → SendableTree (.node opt left right)

@[simp] theorem getFieldType_round_trip (fieldType : FieldType) :
    CfgService.getFieldType (CfgClient.getFieldType fieldType) = fieldType := by
  cases fieldType <;> rfl

theorem getOpCode_round_trip {op : OpCode} (shared : op ∈ sharedOpCodes) :
    ∃ code, CfgClient.getOpCode op = some code ∧ CfgService.getOpCode code = op := by
  simp only [sharedOpCodes, List.mem_cons, List.not_mem_nil, or_false] at shared
  rcases shared with rfl | rfl | rfl | rfl | rfl | rfl | rfl | rfl | rfl | rfl <;> exact ⟨_, rfl, rfl⟩

/-- An operator reaches the server as itself or is not sent at all. -/
theorem getOpCode_sent {op : OpCode} {code : Rpc.OpCode} (sent : CfgClient.getOpCode op = some code) :
    CfgService.getOpCode code = op ∧ op ∈ sharedOpCodes := by
  cases op <;> cases sent <;> exact ⟨rfl, by decide⟩

theorem buildParameter_round_trip {opt : Parameter} (sendable : Sendable opt) :
    ∃ sent, CfgClient.buildParameter opt = some sent ∧ CfgService.buildParameter sent = some opt := by
  cases sendable with
  | field hdrId internalOffset fdLen =>
      refine ⟨_, rfl, ?_⟩
      simp only [CfgService.buildParameter, Rpc.Parameter.field, Nat.mod_eq_of_lt hdrId,
        Nat.mod_eq_of_lt internalOffset, Nat.mod_eq_of_lt fdLen, getFieldType_round_trip]
  | @constant data bytes =>
      have whole : CfgClient.getString data.val (bytesFor data.dataLen) = some data.val := by
        rw [CfgClient.getString, if_pos bytes.ge, ← bytes, List.take_length]
      refine ⟨_, Option.bind_eq_some_iff.mpr ⟨_, whole, rfl⟩, ?_⟩
      simp [CfgService.buildParameter, Rpc.Parameter.constantData, CfgService.getUintFromBytes, bytes]
  | param => exact ⟨_, rfl, rfl⟩
  | operator shared =>
      obtain ⟨code, sent, received⟩ := getOpCode_round_trip shared
      refine ⟨_, Option.bind_eq_some_iff.mpr ⟨code, sent, rfl⟩, ?_⟩
      simp [CfgService.buildParameter, Rpc.Parameter.op, received]

theorem buildExpTree_round_trip {tree : ExpTreeNode} (sendable : SendableTree tree) :
    ∃ message, CfgClient.buildExpTree tree = some message ∧ CfgService.buildExpTree message = some tree := by
  induction sendable with
  | nil => exact ⟨.unset, rfl, rfl⟩
  | node optSendable _ _ leftIH rightIH =>
      obtain ⟨opt, optSent, optBuilt⟩ := buildParameter_round_trip optSendable
      obtain ⟨left, leftSent, leftBuilt⟩ := leftIH
      obtain ⟨right, rightSent, rightBuilt⟩ := rightIH
      refine ⟨.node opt left right, ?_, ?_⟩
      · simp [CfgClient.buildExpTree, optSent, leftSent, rightSent]
      · simp [CfgService.buildExpTree, optBuilt, leftBuilt, rightBuilt]

/-- The tree the server builds is the tree the client was given. -/
theorem exp_tree_survives (opt : Parameter) (left right : ExpTreeNode)
    (sendable : SendableTree (.node opt left right)) :
    ∃ message, CfgClient.buildExpTree (.node opt left right) = some message ∧
      CfgService.buildExpTree message = some (.node opt left right) :=
  buildExpTree_round_trip sendable

/-- A tree with every kind of node, a constant with a zero byte and a missing child. -/
theorem exp_tree_survives_mixed :
    ∃ message, CfgClient.buildExpTree (.node (.operator .bitXor)
        (.node (.operator .bitNeg) (.node (.field ⟨3, 9, 12, .valid⟩) .nil .nil) .nil)
        (.node (.operator .sub) (.node (.constant ⟨12, [0, 7]⟩) .nil .nil)
          (.node (.param 2) .nil .nil))) = some message ∧
      CfgService.buildExpTree message = some (.node (.operator .bitXor)
        (.node (.operator .bitNeg) (.node (.field ⟨3, 9, 12, .valid⟩) .nil .nil) .nil)
        (.node (.operator .sub) (.node (.constant ⟨12, [0, 7]⟩) .nil .nil) (.node (.param 2) .nil .nil))) :=
  exp_tree_survives _ _ _ (.node (.operator (by decide))
    (.node (.operator (by decide)) (.node (.field (by decide) (by decide) (by decide)) .nil .nil) .nil)
    (.node (.operator (by decide)) (.node (.constant rfl) .nil .nil) (.node .param .nil .nil)))

end Ipbm.System
