import Ipbm.Controller.ExtractConfig
import Ipbm.Dataplane.Switch
import Ipbm.Lib.Traversal

/-! The layout of metadata, from the structs of a program to the packet. The
compiler writes entries of an id, an offset and a length; on the last hop the
data plane takes the offset for the length and the length for the offset. -/

set_option autoImplicit false

namespace Ipbm.System
open Lib Dataplane Compiler Controller

/-- The vector a frame gets once the metadata of a program has been pushed. -/
def pushedPhv (pipeline : Pipeline) (manager : HeaderManager) (frame : List UInt8) (ifIndex : Nat) :
    Option Phv := do
  let pipeline ← pipeline.apply (extractMetadata manager.metadata)
  initPhv pipeline frame ifIndex

/-- The region of an entry in a packet, in bits. -/
def regionOf (phv : Phv) (entry : MetadataEntry) : Option HeaderInfo :=
  if entry.id < 0 then none else phv.parsedHeaders[entry.id.toNat]?

structure MetadataPlaced (manager : HeaderManager) (phv : Phv) : Prop where
  placed : ∀ entry ∈ manager.metadata, ∃ region, regionOf phv entry = some region ∧
    (region.hdrOffset : Int) = 8 * (frontHeaderLen + entry.offset) ∧ (region.hdrLen : Int) = 8 * entry.length
  disjoint : manager.metadata.Pairwise fun first second =>
    ∀ region ∈ regionOf phv first, ∀ other ∈ regionOf phv second,
      region.hdrOffset + region.hdrLen ≤ other.hdrOffset ∨ other.hdrOffset + other.hdrLen ≤ region.hdrOffset
  fields : ∀ entry ∈ manager.metadata, ∀ region ∈ regionOf phv entry,
    ∀ declared ∈ manager.headers, declared.2.isHeader = false → declared.2.headerId = entry.id →
      ∀ field ∈ declared.2.fields, field.2.fieldInternalOffset + field.2.fieldLength ≤ region.hdrLen
  cleared : ∀ entry ∈ manager.metadata, ∀ region ∈ regionOf phv entry,
    8 * frontHeaderLen ≤ region.hdrOffset ∧
      region.hdrOffset + region.hdrLen ≤ 8 * (frontHeaderLen + metaLen)

/-- The metadata of a program has the same layout in every packet. -/
def MetadataAgrees (pipeline : Pipeline) (manager : HeaderManager) (frame : List UInt8)
    (ifIndex : Nat) : Prop :=
  ∃ phv, pushedPhv pipeline manager frame ifIndex = some phv ∧ MetadataPlaced manager phv

private theorem parsedHeaders_modifyPhvWithData {field : FieldInfo} {data : Data} {phv after : Phv}
    (modified : modifyPhvWithData field data phv = some after) : after.parsedHeaders = phv.parsedHeaders := by
  simp only [modifyPhvWithData, Option.bind_eq_bind, Option.bind_eq_some_iff, Option.pure_def,
    Option.some.injEq] at modified
  obtain ⟨_, _, _, _, _, _, rfl⟩ := modified
  rfl

private theorem setMetaHeaders_cases {metas : List HeaderInfo} {headers after : List HeaderInfo} (id : Nat)
    (run : metas.foldlM setMetaHeader headers = some after) :
    after[id]? = headers[id]? ∨ ∃ header ∈ metas, header.hdrId = id ∧
      after[id]? = some (metaHeader header) := by
  induction metas generalizing headers with
  | nil => exact .inl (by cases run; rfl)
  | cons header rest ih =>
      rw [List.foldlM_cons] at run
      obtain ⟨middle, first, run⟩ := Option.bind_eq_some_iff.mp run
      obtain ⟨bound, rfl⟩ := setAt_eq_some_iff.mp first
      rcases ih run with kept | ⟨later, member, same, written⟩
      · by_cases same : header.hdrId = id
        · subst same
          exact .inr ⟨header, List.mem_cons_self, rfl, by rw [kept]; exact List.getElem?_set_self bound⟩
        · exact .inl (by rw [kept]; exact List.getElem?_set_ne same)
      · exact .inr ⟨later, List.mem_cons_of_mem _ member, same, written⟩

private theorem length_setMetaHeaders {metas headers after : List HeaderInfo}
    (run : metas.foldlM setMetaHeader headers = some after) : after.length = headers.length := by
  refine foldlM_preserves (fun current => current.length = headers.length) ?_ run rfl
  intro current header next _ same set
  obtain ⟨-, rfl⟩ := setAt_eq_some_iff.mp set
  rw [List.length_set, same]

/-- The header of standard metadata comes from an entry that names it, with the offset and the
length of the entry exchanged. -/
private theorem standardMetadata_header {pipeline : Pipeline} {manager : HeaderManager} {frame : List UInt8}
    {ifIndex : Nat} {phv : Phv} (pushed : pushedPhv pipeline manager frame ifIndex = some phv) :
    phv.parsedHeaders.length = 32 ∧ ∃ entry ∈ manager.metadata, wrap 8 entry.id = 31 ∧
      phv.parsedHeaders[31]? = some (metaHeader ⟨31, wrap 16 entry.length, wrap 16 entry.offset⟩) := by
  simp only [pushedPhv, Pipeline.apply, extractMetadata, Pipeline.setMetadata, List.map_map, initPhv,
    Option.bind_eq_bind, Option.bind_some, Option.bind_eq_some_iff] at pushed
  obtain ⟨packet, -, headers, run, modified⟩ := pushed
  rw [parsedHeaders_modifyPhvWithData modified]
  refine ⟨length_setMetaHeaders run, ?_⟩
  rw [HeaderManager.metadata, List.map_cons, List.foldlM_cons] at run
  -- the first entry is the fixed one of standard metadata, and a later one may write the header again
  obtain ⟨middle, first, run⟩ := Option.bind_eq_some_iff.mp run
  obtain ⟨bound, rfl⟩ := setAt_eq_some_iff.mp first
  rcases setMetaHeaders_cases 31 run with kept | ⟨header, member, same, written⟩
  · refine ⟨⟨31, 0, 20⟩, List.mem_cons_self, rfl, ?_⟩
    change headers[31]? = _
    rw [kept]
    exact List.getElem?_set_self bound
  · obtain ⟨entry, found, rfl⟩ := List.mem_map.mp member
    refine ⟨entry, List.mem_cons_of_mem _ found, same, ?_⟩
    change headers[31]? = _
    rw [written]
    simp only [Function.comp_apply] at same ⊢
    rw [same]

private theorem not_metadataPlaced {pipeline : Pipeline} {manager : HeaderManager} {frame : List UInt8}
    {ifIndex : Nat} {phv : Phv} (pushed : pushedPhv pipeline manager frame ifIndex = some phv) :
    ¬MetadataPlaced manager phv := by
  intro placed
  obtain ⟨count, entry, member, named, header⟩ := standardMetadata_header pushed
  obtain ⟨first, found, start, long⟩ := placed.placed ⟨31, 0, 20⟩ List.mem_cons_self
  obtain rfl : first = _ := Option.some.inj (found.symm.trans header)
  rcases List.mem_cons.mp member with rfl | user
  · exact absurd start (by decide)
  · obtain ⟨region, there, -⟩ := placed.placed entry member
    -- the entry has a header at all only if its id is 31 itself, and then it is that of the first
    have own := there
    obtain ⟨nonneg, there⟩ := Option.ite_none_left_eq_some.mp there
    obtain ⟨bound, -⟩ := List.getElem?_eq_some_iff.mp there
    have id : entry.id.toNat = 31 := by
      unfold wrap at named
      omega
    rw [id] at there
    obtain rfl : region = _ := Option.some.inj (there.symm.trans header)
    have apart := (List.pairwise_cons.mp placed.disjoint).1 entry user _ found _ own
    simp only at long
    omega

theorem metadataAgrees_never (pipeline : Pipeline) (headerDefs : List HeaderDef) (structDefs : List StructDef)
    (frame : List UInt8) (ifIndex : Nat) :
    ¬MetadataAgrees pipeline (HeaderManager.load headerDefs structDefs) frame ifIndex := by
  rintro ⟨phv, pushed, placed⟩
  exact not_metadataPlaced pushed placed

/-- Standard metadata alone: its 20 bytes at offset zero become no bytes at offset 20. -/
theorem metadataAgrees_standard_metadata :
    ¬MetadataAgrees .fresh
      (HeaderManager.load [] [⟨[⟨.bit 9, "ingress_port"⟩, ⟨.bit 9, "egress_spec"⟩],
        "standard_metadata", false⟩])
      (List.replicate 60 0) 0 := by
  rintro ⟨phv, pushed, placed⟩
  exact not_metadataPlaced pushed placed

end Ipbm.System
