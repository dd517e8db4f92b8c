import Ipbm.Compiler.ActionManager
import Ipbm.Compiler.HeaderManager

/-! The primitives of P4 actions in rP4 (`p4r/p4_action.h`, `p4r/p4_json.h`). -/

set_option autoImplicit false

namespace Ipbm.Compiler
open Dataplane

namespace P4r

inductive StandardField where
  | ingressPort | egressSpec | egressPort | cloneSpec | instanceType | drop | recirculatePort | packetLength
  deriving DecidableEq, Repr

namespace StandardField

def all : List StandardField :=
  [ingressPort, egressSpec, egressPort, cloneSpec, instanceType, drop, recirculatePort, packetLength]

def name : StandardField → String
  | ingressPort => "ingress_port"
  | egressSpec => "egress_spec"
  | egressPort => "egress_port"
  | cloneSpec => "clone_spec"
  | instanceType => "instance_type"
  | drop => "drop"
  | recirculatePort => "recirculate_port"
  | packetLength => "packet_length"

def width : StandardField → Nat
  | ingressPort | egressSpec | egressPort => 9
  | cloneSpec | instanceType | packetLength => 32
  | drop => 1
  | recirculatePort => 16

end StandardField

/-- The struct every translated program declares behind its own. -/
def standardMetadata : StructDef where
  fields := StandardField.all.map fun field => ⟨.bit field.width, field.name⟩
  name := "standard_metadata"

/-- The primitives that touch standard metadata. -/
inductive P4Primitive where
  | assign (field : StandardField) (value : Operation)
  | markToDrop
  deriving DecidableEq, Repr

/-- `mark_to_drop` is written as an assignment of its own. -/
def P4Primitive.output : P4Primitive → LValue × Operation
  | .assign field value => (.member "standard_metadata" field.name, value)
  | .markToDrop => (.member "standard_metadata" "drop", .literal 1)

/-- The place of a field in the header. -/
def StandardField.info : StandardField → HeaderField
  | ingressPort => ⟨31, 0, 9, .field⟩
  | egressSpec => ⟨31, 9, 9, .field⟩
  | egressPort => ⟨31, 18, 9, .field⟩
  | cloneSpec => ⟨31, 27, 32, .field⟩
  | instanceType => ⟨31, 59, 32, .field⟩
  | drop => ⟨31, 91, 1, .field⟩
  | recirculatePort => ⟨31, 92, 16, .field⟩
  | packetLength => ⟨31, 108, 32, .field⟩

/-- The compiler finds every field of the struct at its place. -/
theorem lookup_standard {headerDefs : List HeaderDef} {structDefs : List StructDef}
    (own : (HeaderManager.load headerDefs structDefs).headers.find "standard_metadata" = none)
    (field : StandardField) :
    (HeaderManager.load headerDefs (structDefs ++ [standardMetadata])).lookup
      (.member "standard_metadata" field.name) =
      some field.info := by
  have header : (HeaderManager.load headerDefs (structDefs ++ [standardMetadata])).headers.find
    "standard_metadata" =
      some (Header.ofStructDef standardMetadata 31) := by
    rw [HeaderManager.load, List.foldl_append, List.foldl_cons, List.foldl_nil]
    change (HeaderManager.addMetadata (HeaderManager.load headerDefs structDefs)
      standardMetadata).headers.find _ = _
    have missing : (HeaderManager.load headerDefs structDefs).headers.find standardMetadata.name = none := own
    rw [HeaderManager.addMetadata, missing, if_neg (by simp),
      if_pos (show standardMetadata.name = "standard_metadata" from rfl)]
    exact Lib.OrderedMap.find_insert_of_none missing _
  simp only [HeaderManager.lookup, HeaderManager.lookupName, header, Option.bind_eq_bind, Option.bind_some]
  cases field <;> rfl

end P4r

end Ipbm.Compiler
