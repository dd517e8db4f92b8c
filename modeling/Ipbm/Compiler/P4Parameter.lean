import Ipbm.Compiler.Grammar

/-! Expressions of P4 actions as the translator prints them (`p4r/p4_parameter.h`,
`p4r/p4_field.h`, `p4r/p4_header.h`). -/

set_option autoImplicit false

namespace Ipbm.Compiler.P4r

structure P4Header where
  name : String
  headerTypeName : String
  metadata : Bool
  deriving DecidableEq, Repr

structure P4RuntimeData where
  name : String
  bitwidth : Int
  deriving DecidableEq, Repr

/-- `null` is a null pointer and `other` a type the printer does not know. -/
inductive P4Parameter where
  | null
  | field (value : List String)
  | runtimeData (value : Int)
  | hexstr (value : String)
  | bool (value : Bool)
  | header (value : String)
  | expression (op : String) (left right : P4Parameter)
  | other
  deriving DecidableEq, Repr

def P4Header.translatedPrefix (header : P4Header) : List Char :=
  if !header.metadata then "hdr.".toList ++ header.name.toList
  else if header.headerTypeName = "scalars_0" then "meta".toList
  else header.name.toList

/-- A field name with `_` for each dot. -/
def properName (name : List Char) : List Char := name.map fun c => if c = '.' then '_' else c

namespace P4Field

variable (headers : List P4Header)

/-- A header that is not declared has no prefix, and a field without names has no first one. -/
def fieldPrefix (field : List String) : Option (List Char) := do
  let name ← field.head?
  return ((headers.find? fun header => header.name = name).map P4Header.translatedPrefix).getD []

def outSuffix (field : List String) : List Char :=
  List.intercalate ['.'] (field.tail.map fun name =>
    if name = "$valid$" then "isValid()".toList else properName name.toList)

def output (field : List String) : Option (List Char) := do
  return (← fieldPrefix headers field) ++ '.' :: outSuffix field

end P4Field

namespace P4Parameter

variable (headers : List P4Header)

/-- Without runtime data a parameter of the action prints nothing. The operands of an expression
are printed without. -/
def output (runtimeData : Option (List P4RuntimeData)) : P4Parameter → Option (List Char)
  | null => none
  | field value => P4Field.output headers value
  | .runtimeData value =>
      match runtimeData with
      | none => some []
      | some runtimeData =>
          if value < 0 then none else runtimeData[value.toNat]?.map fun data => data.name.toList
  | hexstr value => some value.toList
  | bool value => some (if value then "true".toList else "false".toList)
  | header value => some value.toList
  | expression op left right =>
      if op = "b2d" then
        output none right
      else do
        let left ← if left = null then some [] else (output none left).map (· ++ [' '])
        let right ← if right = null then some [] else (output none right).map (' ' :: ·)
        return '(' :: left ++ op.toList ++ right ++ [')']
  | other => some []

end P4Parameter

end Ipbm.Compiler.P4r
