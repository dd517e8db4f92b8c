import Ipbm.Dataplane.Matcher

/-! The syntax tree of an rP4 program (`rp4_*.h`), as far as the compiler passes
read it. -/

set_option autoImplicit false

namespace Ipbm.Compiler
open Dataplane

/-- The value an `int` holds after an operation: beyond its range it wraps. -/
def wrapInt (value : Int) : Int := Int.bmod value (2 ^ 32)

theorem wrapInt_of_small {value : Int} (low : -2 ^ 31 ≤ value) (high : value < 2 ^ 31) :
    wrapInt value = value :=
  Int.bmod_eq_of_le (by omega) (by omega)

theorem wrapInt_bounds (value : Int) : -2 ^ 31 ≤ wrapInt value ∧ wrapInt value < 2 ^ 31 := by
  have low := Int.le_bmod (x := value) (m := 2 ^ 32) (by decide)
  have high := Int.bmod_lt (x := value) (m := 2 ^ 32) (by decide)
  unfold wrapInt
  omega

/-- Wrapping at every step is wrapping once. -/
theorem wrapInt_add (first second : Int) : wrapInt (wrapInt first + second) = wrapInt (first + second) :=
  Int.bmod_add_bmod

/-- A number of bits or bytes; below zero there is none. -/
def natural : Int → Option Nat
  | .ofNat number => some number
  | .negSucc _ => none

@[simp] theorem natural_natCast (number : Nat) : natural (number : Int) = some number := rfl

theorem eq_of_natural {value : Int} {number : Nat} (isNatural : natural value = some number) :
    value = number := by
  cases value with
  | ofNat other => exact congrArg Int.ofNat (Option.some.inj isNatural)
  | negSucc other => cases isNatural

theorem natural_toNat {value : Int} {number : Nat} (isNatural : natural value = some number) :
    value.toNat = number := by
  rw [eq_of_natural isNatural, Int.toNat_natCast]

inductive Rp4Operator where
  | plus | minus | and | or | xor
  | eq | ne | lt | gt | le | ge
  | not | notl | mul | div
  deriving DecidableEq, Repr

/-- `instance.member` of metadata, or `instance.member.field` of a header. -/
inductive LValue where
  | member (instanceName memberName : String)
  | field (instanceName memberName fieldName : String)
  deriving DecidableEq, Repr

/-- The header a name is looked up in, and the field. -/
def LValue.address : LValue → String × String
  | .member instanceName memberName => (instanceName, memberName)
  | .field _ memberName fieldName => (memberName, fieldName)

/-- `nil` is the missing operand of a unary operator. -/
inductive Operation where
  | nil
  | literal (value : Int)
  | lvalue (lvalue : LValue)
  | parameter (name : String)
  | binary (op : Rp4Operator) (left right : Operation)
  deriving DecidableEq, Repr

inductive Key where
  | exact (key : Int)
  | lpm (key prelen : Int)
  | ternary (key mask : Int)
  | default
  deriving DecidableEq, Repr

def Key.getKey : Key → Int
  | .exact key | .lpm key _ | .ternary key _ => key
  | .default => 0

def Key.isDefault : Key → Bool
  | .default => true
  | _ => false

inductive SwitchValue where
  | table (name : String)
  | stage (name : String)
  | none
  deriving DecidableEq, Repr

def SwitchValue.isTableStmt : SwitchValue → Bool
  | .table _ => true
  | _ => false

structure SwitchEntry where
  key : Key
  value : SwitchValue
  deriving DecidableEq, Repr

structure StageMatcher where
  ops : List Operation
  switchEntries : List SwitchEntry
  deriving DecidableEq, Repr

structure ExecutorEntry where
  actionName : String
  stageName : String
  deriving DecidableEq, Repr

structure StageDef where
  name : String
  parser : List String
  matcher : StageMatcher
  executor : List ExecutorEntry
  deriving DecidableEq, Repr

/-- The entry of a stage that only runs one action and goes on. -/
def StageDef.getVirtualAction (stage : StageDef) : Option ExecutorEntry :=
  if stage.matcher.switchEntries.all (·.value.isTableStmt) then
    match stage.executor with
    | [entry] => some entry
    | _ => none
  else
    none

/-- A parameter of another type than `bit<n>` has no width. -/
structure ActionDef where
  name : String
  parameters : List (String × Option Int)
  expressions : List (LValue × Operation)
  deriving DecidableEq, Repr

inductive TableStmt where
  | size (size : Int)
  | valueWidth (width : Int)
  | defaultAction (actionName : String)
  | entries
  deriving DecidableEq, Repr

structure TableDef where
  name : String
  keys : List (LValue × MatchType)
  optionalStmts : List TableStmt
  deriving DecidableEq, Repr

structure Ast where
  actions : List ActionDef
  tables : List TableDef
  ingress : List StageDef
  egress : List StageDef
  deriving DecidableEq, Repr

end Ipbm.Compiler
