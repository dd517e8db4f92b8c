import Ipbm.Compiler.Expression

/-! Actions of the compiler (`ipsa_action_manager.h`). -/

set_option autoImplicit false

namespace Ipbm.Compiler
open Dataplane

/-- An assignment. The left side is a pointer to a field, so it is compared by the field's name. -/
structure Assign where
  lvalue : Option ((String × String) × HeaderField)
  rvalue : Option Operand
  deriving Repr

structure Action where
  id : Int
  parameterNum : Nat
  actionParametersLengths : List Int
  primitives : List Assign
  deriving Repr

/-- The actions by name, in the order they are added. Names and ids are distinct, so no search
depends on the order of the map. -/
abbrev ActionManager : Type := List (String × Action)

namespace ActionManager

def lookupName (actions : ActionManager) (name : String) : Option Action :=
  (actions.find? fun entry => entry.1 = name).map Prod.snd

def lookupId (actions : ActionManager) (actionId : Int) : Option Action :=
  (actions.find? fun entry => entry.2.id = actionId).map Prod.snd

def assign (headers : HeaderLookup) (actionDef : ActionDef) (expression : LValue × Operation) :
    Option Assign := do
  let rvalue ← parseExpr headers (some actionDef) expression.2
  return ⟨(headers expression.1).map fun field => (expression.1.address, field), rvalue⟩

/-- The next id is the number of actions there are. -/
def addAction (headers : HeaderLookup) (actions : ActionManager) (actionDef : ActionDef) :
    Option ActionManager :=
  if (actions.lookupName actionDef.name).isSome then
    some actions
  else do
    let primitives ← actionDef.expressions.mapM (assign headers actionDef)
    return actions ++ [(actionDef.name, {
      id := actions.length
      parameterNum := actionDef.parameters.length
      actionParametersLengths := actionDef.parameters.map fun parameter => parameter.2.getD 0
      primitives })]

def load (headers : HeaderLookup) (ast : Ast) : Option ActionManager :=
  ast.actions.foldlM (addAction headers) []

/-- No field is written by both. Two fields that were not found are the same null pointer. -/
def canConcat (first second : List Assign) : Bool :=
  first.all fun a1 => second.all fun a2 =>
    decide (a1.lvalue.map Prod.fst ≠ a2.lvalue.map Prod.fst)

/-- The primitives of the action named `next` behind those of the action `id`; `none` when they
may not be concatenated or there is no such action. -/
def concatAction (actions : ActionManager) (id : Int) (next : List Assign) : Option ActionManager := do
  let action ← actions.lookupId id
  if canConcat action.primitives next then
    return actions.map fun entry =>
      if entry.2.id = id then (entry.1, { entry.2 with primitives := entry.2.primitives ++ next }) else entry
  else
    none

end ActionManager

end Ipbm.Compiler
