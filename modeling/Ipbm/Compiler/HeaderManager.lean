import Ipbm.Compiler.Distribution
import Mathlib.Data.String.Basic

/-! Headers and metadata of the compiler (`ipsa_header_manager.h`) and the parser
levels (`ipsa_level_manager.h`). -/

set_option autoImplicit false

namespace Ipbm.Compiler
open Lib Dataplane

inductive FieldDefType where
  | bit (length : Int)
  | named (name : String)
  deriving DecidableEq, Repr

structure FieldDef where
  type : FieldDefType
  name : String
  deriving DecidableEq, Repr

structure HeaderDef where
  name : String
  fields : List FieldDef
  deriving DecidableEq, Repr

/-- `isHeader` marks the struct that lists the headers. -/
structure StructDef where
  fields : List FieldDef
  name : String
  isHeader : Bool := false
  deriving DecidableEq, Repr

/-- `fields` is the map of the fields by name. -/
structure Header where
  isHeader : Bool
  isStandardMetadata : Bool
  headerId : Int
  offset : Int
  fields : List (String × HeaderField)
  deriving DecidableEq, Repr

namespace Header

/-- A name that is taken keeps its field. -/
def insertField (fields : List (String × HeaderField)) (name : String) (field : HeaderField) :
    List (String × HeaderField) :=
  if fields.any fun entry => entry.1 = name then fields else fields ++ [(name, field)]

/-- The next field and the offset behind it; a field of a named type is reported and skipped. -/
def addField (headerId : Nat) (state : List (String × HeaderField) × Int) (field : FieldDef) :
    List (String × HeaderField) × Int :=
  match field.type with
  | .bit length =>
      (insertField state.1 field.name ⟨headerId, state.2, length, .field⟩, wrapInt (state.2 + length))
  | .named _ => state

def layout (headerId : Nat) (fields : List FieldDef) : List (String × HeaderField) × Int :=
  fields.foldl (addField headerId) ([("isValid", ⟨headerId, 0, 0, .valid⟩)], 0)

def ofHeaderDef (headerDef : HeaderDef) (id : Nat) : Header where
  isHeader := true
  isStandardMetadata := false
  headerId := id
  offset := (layout id headerDef.fields).2
  fields := (layout id headerDef.fields).1

def ofStructDef (structDef : StructDef) (id : Nat) : Header where
  isHeader := false
  isStandardMetadata := structDef.name = "standard_metadata"
  headerId := id
  offset := (layout id structDef.fields).2
  fields := (layout id structDef.fields).1

/-- Bytes that hold the fields of a header. -/
def getLength (header : Header) : Int :=
  (wrapInt ((header.fields.map fun entry => entry.2.fieldLength).sum + 7)).tdiv 8

def lookup (header : Header) (fieldName : String) : Option HeaderField :=
  (header.fields.find? fun entry => entry.1 = fieldName).map Prod.snd

end Header

/-- An entry of the `metadata` part of a configuration. -/
structure MetadataEntry where
  id : Int
  offset : Int
  length : Int
  deriving DecidableEq, Repr

structure HeaderManager where
  globalHeaderId : Nat := 0
  headerName : String := ""
  headers : OrderedMap String Header := []
  deriving DecidableEq, Repr

namespace HeaderManager

def addHeader (manager : HeaderManager) (headerDef : HeaderDef) (name : String) : HeaderManager :=
  if (manager.headers.find name).isSome then
    manager
  else
    { manager with
      globalHeaderId := manager.globalHeaderId + 1
      headers := manager.headers.insert name (Header.ofHeaderDef headerDef manager.globalHeaderId) }

/-- Standard metadata has a fixed id. -/
def addMetadata (manager : HeaderManager) (structDef : StructDef) : HeaderManager :=
  if (manager.headers.find structDef.name).isSome then
    manager
  else if structDef.name = "standard_metadata" then
    { manager with headers := manager.headers.insert structDef.name (Header.ofStructDef structDef 31) }
  else
    { manager with
      globalHeaderId := manager.globalHeaderId + 1
      headers := manager.headers.insert structDef.name (Header.ofStructDef structDef manager.globalHeaderId) }

/-- A member without a header type is reported and skipped. -/
def addMember (headerDefs : List HeaderDef) (manager : HeaderManager) (field : FieldDef) : HeaderManager :=
  match field.type with
  | .named typeName =>
      match headerDefs.find? fun headerDef => headerDef.name = typeName with
      | some headerDef => manager.addHeader headerDef field.name
      | none => manager
  | .bit _ => manager

def addStruct (headerDefs : List HeaderDef) (manager : HeaderManager) (structDef : StructDef) :
    HeaderManager :=
  if structDef.isHeader then
    structDef.fields.foldl (addMember headerDefs) { manager with headerName := structDef.name }
  else
    manager.addMetadata structDef

def load (headerDefs : List HeaderDef) (structDefs : List StructDef) : HeaderManager :=
  structDefs.foldl (addStruct headerDefs) {}

def getHeader (manager : HeaderManager) (name : String) : Option Header := manager.headers.find name

def lookupName (manager : HeaderManager) (headerName fieldName : String) : Option HeaderField := do
  let header ← manager.headers.find headerName
  header.lookup fieldName

/-- The instance in front of a header is the struct of the headers, or the field is not found. -/
def lookup (manager : HeaderManager) : LValue → Option HeaderField
  | .member instanceName memberName => manager.lookupName instanceName memberName
  | .field instanceName memberName fieldName =>
      if instanceName = manager.headerName then manager.lookupName memberName fieldName else none

theorem lookup_address {manager : HeaderManager} {lvalue : LValue} {field : HeaderField}
    (found : manager.lookup lvalue = some field) :
    manager.lookupName lvalue.address.1 lvalue.address.2 = some field := by
  cases lvalue with
  | member instanceName memberName => exact found
  | field instanceName memberName fieldName => exact (Option.ite_none_right_eq_some.mp found).2

/-- The regions of user metadata, one behind the other. -/
def layoutMetadata : Int → List Header → List MetadataEntry
  | _, [] => []
  | offset, header :: rest =>
      let length := max 8 (wrapInt (header.getLength * 2))
      ⟨header.headerId, offset, length⟩ :: layoutMetadata (wrapInt (offset + length)) rest

/-- Standard metadata takes the first 20 bytes, declared or not. -/
def metadata (manager : HeaderManager) : List MetadataEntry :=
  ⟨31, 0, 20⟩ :: layoutMetadata 20 ((manager.headers.map Prod.snd).filter fun header =>
    !header.isHeader && !header.isStandardMetadata)

end HeaderManager

/-! ### Parser levels -/

/-- A prefix of no bits would shift by the word size. -/
def Key.getMask : Key → Option Int
  | .exact _ => some (-1)
  | .lpm _ prelen => if 1 ≤ prelen ∧ prelen ≤ 32 then some (-2 ^ (32 - prelen).toNat) else none
  | .ternary _ mask => some mask
  | .default => some 0

structure TransitionEntry where
  key : Key
  next : String
  acceptDrop : Int := 2
  deriving DecidableEq, Repr

inductive Transition where
  | direct (entry : TransitionEntry)
  | select (targets : List LValue) (entries : List TransitionEntry)
  deriving DecidableEq, Repr

/-- The header a state extracts is a member of an instance. -/
structure StateDef where
  name : String
  instanceName : String
  memberName : String
  transition : Transition
  deriving DecidableEq, Repr

namespace LevelManager

def getState (states : List StateDef) (name : String) : Option StateDef :=
  states.find? fun state => state.name = name

/-- State ids start behind the empty name; the first of a name counts. -/
def stateId (states : List StateDef) (name : String) : Option Nat :=
  if name = "" then some 0 else (states.findIdx? fun state => state.name = name).map (· + 1)

def getSelect (manager : HeaderManager) (state : StateDef) : Option (List HeaderField) :=
  match state.transition with
  | .direct _ => some []
  | .select targets _ => targets.mapM manager.lookup

/-- The action that extracts the header of a state. -/
def extract (manager : HeaderManager) (states : List StateDef) (state : StateDef) :
    Option ParserSramEntry := do
  let header ← if state.instanceName = manager.headerName then manager.getHeader state.memberName else none
  return {
    headerId := header.headerId
    headerLength := header.offset
    nextState := (stateId states state.name).getD 0
    transitionFields := ← getSelect manager state
    acceptDrop := 2 }

def buildEntry (manager : HeaderManager) (states : List StateDef) (state : Nat) (entry : TransitionEntry) :
    Option LevelEntry := do
  let tcam : ParserTcamEntry := ⟨state, entry.key.getKey, ← entry.key.getMask⟩
  if entry.acceptDrop = 2 then
    let next ← getState states entry.next
    return ⟨tcam, ← extract manager states next⟩
  else
    return ⟨tcam, ⟨0, 0, 0, [], entry.acceptDrop⟩⟩

def Transition.entries : Transition → List TransitionEntry
  | .direct entry => [entry]
  | .select _ entries => entries

/-- One state's entries, added to the level of its name. -/
def addState (manager : HeaderManager) (states : List StateDef) (levels : List Level) (state : StateDef) :
    Option (List Level) := do
  let id ← stateId states state.name
  let entries ← (Transition.entries state.transition).mapM (buildEntry manager states id)
  return levels.modify id (· ++ entries)

def load (manager : HeaderManager) (states : List StateDef) : Option (List Level) :=
  match states with
  | [] => some []
  | first :: _ => do
      let start : LevelEntry := ⟨⟨0, 0, 0⟩, ← extract manager states first⟩
      states.foldlM (addState manager states) ([start] :: List.replicate states.length [])

end LevelManager

end Ipbm.Compiler
