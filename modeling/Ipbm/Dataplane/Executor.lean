import Ipbm.Dataplane.Defs

/-! Actions (`dataplane/executor.h`): operands, expression trees, the field write
of a primitive and the decoding of action parameters from a matched value. -/

set_option autoImplicit false

namespace Ipbm.Dataplane
open Lib

/-- At most four leading bytes of a value, as a 32-bit number. -/
def getValue (data : Data) : Option Nat :=
  let max := min 4 (bytesFor data.dataLen)
  if max ≤ data.val.length then some (beVal (data.val.take max)) else none

/-- From the fifth byte on the source shifts a 32-bit number by 32 bits or more. -/
def getData (len value : Nat) : Option Data :=
  if bytesFor len ≤ 4 then some ⟨len, beBytes (bytesFor len) value⟩ else none

/-- A block copy out of a buffer. -/
def copyOut (bytes : List UInt8) (start count : Nat) : Option (List UInt8) :=
  if start + count ≤ bytes.length then some ((bytes.drop start).take count) else none

/-- A field operand. The loop writes one byte less than it copied from the packet, so the
result is complete only when that is the number of bytes the field needs. -/
def getFieldVal (field : FieldInfo) (phv : Phv) : Option Data := do
  let hi ← phv.parsedHeaders[field.hdrId]?
  let start := hi.hdrOffset + field.internalOffset
  let «end» := start + field.fdLen
  let byteLen := «end» / 8 - start / 8 + 1
  let rightShift := 8 - «end» % 8
  let fdLenByte := bytesFor field.fdLen
  let fdBackup ← copyOut phv.packet (start / 8) byteLen
  let last ← fdBackup[byteLen - 1]?
  let fdBackup := fdBackup.set (byteLen - 1) (u8 (last.toNat >>> rightShift <<< rightShift))
  if byteLen - 1 = fdLenByte then
    let val ← (List.range fdLenByte).mapM fun index => do
      let low ← fdBackup[index + 1]?
      let high ← fdBackup[index]?
      return u8 (low.toNat >>> rightShift + high.toNat <<< (8 - rightShift))
    return ⟨field.fdLen, val⟩
  else
    none

def getOpValAny (para : Parameter) (phv : Phv) (actionParas : List Data) : Option Data :=
  match para with
  | .constant data => some data
  | .field field => getFieldVal field phv
  | .param actionParaId => actionParas[actionParaId]?
  | .header _ | .operator _ => some {}

/-- The operator numbers 1 to 6 of `bit_compute`. -/
inductive BitOp where
  | shiftLeft | shiftRight | and | or | xor | neg
  deriving DecidableEq, Repr

def bitCompute (op : BitOp) (data1 data2 : Data) : Option Data := do
  let operand ← getValue data1
  match op with
  | .shiftLeft => do
      let shifted ← shl32 operand (← getValue data2)
      getData data1.dataLen (shifted % 2 ^ min data1.dataLen 32)
  | .shiftRight => do
      let shift ← getValue data2
      if shift < 32 then getData data1.dataLen (operand >>> shift) else none
  | .and => getData data1.dataLen (operand &&& (← getValue data2))
  | .or => getData data1.dataLen (operand ||| (← getValue data2))
  | .xor => getData data1.dataLen (operand ^^^ (← getValue data2))
  | .neg =>
      getData data1.dataLen <|
        if data1.dataLen ≤ 8 then 2 ^ 8 - 1 - operand % 2 ^ 8
        else if data1.dataLen ≤ 16 then 2 ^ 16 - 1 - operand % 2 ^ 16
        else if data1.dataLen ≤ 32 then 2 ^ 32 - 1 - operand
        else 0

/-- An expression tree; `nil` is a null child. -/
inductive ExpTreeNode where
  | nil
  | node (opt : Parameter) (left right : ExpTreeNode)
  deriving DecidableEq, Repr

structure Primitive where
  lvalue : FieldInfo
  root : ExpTreeNode
  deriving DecidableEq, Repr

namespace Primitive

/-- Operators outside the list fall off the end of a function that returns a value. -/
def execute (phv : Phv) (actionParas : List Data) : ExpTreeNode → Option Data
  | .nil => none
  | .node (.operator op) left right =>
      match op with
      | .add => do
          let first ← getValue (← execute phv actionParas left)
          let second ← getValue (← execute phv actionParas right)
          getData 32 ((first + second) % 2 ^ 32)
      | .sub => do
          let first ← getValue (← execute phv actionParas left)
          let second ← getValue (← execute phv actionParas right)
          getData 32 ((first + (2 ^ 32 - second)) % 2 ^ 32)
      | .shiftLeft => do
          bitCompute .shiftLeft (← execute phv actionParas left) (← execute phv actionParas right)
      | .shiftRight => do
          bitCompute .shiftRight (← execute phv actionParas left) (← execute phv actionParas right)
      | .bitAnd => do
          bitCompute .and (← execute phv actionParas left) (← execute phv actionParas right)
      | .bitOr => do
          bitCompute .or (← execute phv actionParas left) (← execute phv actionParas right)
      | .bitXor => do
          bitCompute .xor (← execute phv actionParas left) (← execute phv actionParas right)
      | .bitNeg => do
          bitCompute .neg (← execute phv actionParas left) {}
      | _ => none
  | .node opt _ _ => getOpValAny opt phv actionParas

/-- The data bytes that reach a destination of `byteLen` bytes. Shorter data is copied as if
it were one byte shorter. -/
def newData (data : Data) (byteLen : Nat) : Option (List UInt8) :=
  let dataLen := bytesFor data.dataLen
  if dataLen < byteLen then
    (copyOut data.val 0 (byteLen - 1)).map (0 :: ·)
  else
    copyOut data.val (dataLen - byteLen) byteLen

def modifyFieldWithData (field : FieldInfo) (data : Data) (phv : Phv) : Option Phv := do
  let hi ← phv.parsedHeaders[field.hdrId]?
  let beginBit := hi.hdrOffset + field.internalOffset
  let endBit := beginBit + field.fdLen
  let beginByte := beginBit / 8
  let byteLen := (endBit - 1) / 8 + 1 - beginByte
  if byteLen = 0 then none else do
    let new ← newData data byteLen
    let rightEmpty := ((endBit - 1) / 8 + 1) * 8 - endBit
    let spanByte := shlBytes rightEmpty new
    let packet ← (spanByte.zipIdx).foldlM (fun packet (span, index) => do
      let old ← packet[beginByte + index]?
      let kept := keepMask (if index = 0 then beginBit % 8 else 0)
        (if index = byteLen - 1 then rightEmpty else 0)
      setAt packet (beginByte + index) (u8 ((old.toNat &&& kept) + span.toNat))) phv.packet
    return { phv with packet }

def run (phv : Phv) (actionParas : List Data) (primitive : Primitive) : Option Phv := do
  let result ← execute phv actionParas primitive.root
  modifyFieldWithData primitive.lvalue result phv

end Primitive

structure Action where
  prims : List Primitive
  paraNum : Nat
  actionParaLens : List Nat
  deriving DecidableEq, Repr

namespace Action

/-- The first byte without the `shift` bits before the parameter. -/
def clearHigh (shift : Nat) : List UInt8 → Option (List UInt8)
  | [] => none
  | byte :: rest => some (u8 ((u8 (byte.toNat <<< shift)).toNat >>> shift) :: rest)

/-- The last byte without the bits behind the parameter. -/
def clearLow (rightOffset : Nat) (bytes : List UInt8) : Option (List UInt8) := do
  let last ← bytes.getLast?
  return bytes.dropLast ++
    [if rightOffset = 0 then last else u8 (last.toNat >>> (8 - rightOffset) <<< (8 - rightOffset))]

/-- The bytes a parameter touches, with the bits of its neighbours cleared. -/
def valueNew (value : List UInt8) (start len : Nat) : Option (List UInt8) := do
  let bytes ← copyOut value (start / 8) ((start + len + 7) / 8 - start / 8)
  let bytes ← clearHigh (start % 8) bytes
  clearLow ((start + len) % 8) bytes

/-- A byte of the right-aligned parameter whose lowest bits are in byte `idx` of the copy. -/
def paraByte (bytes : List UInt8) (rightOffset idx : Nat) : Option UInt8 := do
  let byte ← bytes[idx]?
  if rightOffset = 0 then
    return byte
  else if idx = 0 then
    return u8 (byte.toNat >>> (8 - rightOffset))
  else
    let before ← bytes[idx - 1]?
    return u8 (byte.toNat >>> (8 - rightOffset) + (u8 (before.toNat <<< rightOffset)).toNat)

/-- One parameter. The result index and `idx` walk down together from their last bytes. -/
def setActionPara (value : List UInt8) (start len : Nat) : Option Data := do
  let bytes ← valueNew value start len
  if bytes.length < bytesFor len then
    none
  else
    let val ← (List.range (bytesFor len)).mapM fun index =>
      paraByte bytes ((start + len) % 8) (bytes.length - bytesFor len + index)
    return ⟨len, val⟩

def setActionParasFrom (value : List UInt8) : Nat → List Nat → Option (List Data)
  | _, [] => some []
  | curOffset, len :: lens => do
      let para ← setActionPara value curOffset len
      let paras ← setActionParasFrom value (curOffset + len) lens
      return para :: paras

/-- The first sixteen bits of a matched value are the action id. -/
def setActionParas (action : Action) (value : Option (List UInt8)) : Option (List Data) :=
  if action.paraNum = 0 then some []
  else if action.paraNum ≤ action.actionParaLens.length then do
    setActionParasFrom (← value) 16 (action.actionParaLens.take action.paraNum)
  else none

def execute (action : Action) (actionParas : List Data) (phv : Phv) : Option Phv :=
  action.prims.foldlM (fun phv primitive => primitive.run phv actionParas) phv

end Action

/-- The action slots. A slot no action was inserted into holds no valid pointer. -/
abbrev Executor : Type := List (Option Action)

namespace Executor

def fresh : Executor := List.replicate executorActionNum none

def insertAction (executor : Executor) (action : Action) (actionId : Int) : Option Executor :=
  if actionId < 0 then none else setAt executor actionId.toNat (some action)

def execute (executor : Executor) (phv : Phv) : Option Phv := do
  if phv.nextActionId < 0 then none else do
    let action ← (executor[phv.nextActionId.toNat]?).join
    let actionParas ← action.setActionParas phv.matchValue
    action.execute actionParas phv

end Executor

end Ipbm.Dataplane
