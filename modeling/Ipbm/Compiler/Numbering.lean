import Ipbm.Compiler.Compilation
import Ipbm.Compiler.FieldAddresses

/-! The numbers the compiler gives to headers, to the tables of a stage and to
processors. -/

set_option autoImplicit false

namespace Ipbm.Compiler
open Lib Dataplane IpsaConfiguration Builder
open Distribution (liveStages)

/-! ### Headers -/

namespace HeaderManager

/-- The headers and metadata that are numbered one after the other. -/
def counted (manager : HeaderManager) : List (String × Header) :=
  manager.headers.filter fun entry => entry.2.isHeader || !entry.2.isStandardMetadata

/-- The counter has passed every number but that of standard metadata, and skipped none. -/
structure CountedUp (manager : HeaderManager) : Prop where
  count : manager.counted.length = manager.globalHeaderId
  given : ∀ id < manager.globalHeaderId, ∃ entry ∈ manager.counted, entry.2.headerId = id
  below : ∀ entry ∈ manager.headers, entry.2.headerId < manager.globalHeaderId ∨ entry.2.headerId = 31

private theorem CountedUp.next {manager : HeaderManager} (counted : CountedUp manager) {name : String}
    (missing : manager.headers.find name = none) {header : Header}
    (id : header.headerId = manager.globalHeaderId)
    (isCounted : header.isHeader || !header.isStandardMetadata) :
    CountedUp { manager with
      globalHeaderId := manager.globalHeaderId + 1, headers := manager.headers.insert name header } := by
  have perm := OrderedMap.insert_perm missing header
  constructor
  · have length := (perm.filter fun entry => entry.2.isHeader || !entry.2.isStandardMetadata).length_eq
    simp only [List.filter_cons, isCounted, if_true, List.length_cons] at length
    exact length.trans (congrArg (· + 1) counted.count)
  · intro number low
    rcases Nat.lt_succ_iff_lt_or_eq.mp low with earlier | rfl
    · obtain ⟨entry, member, same⟩ := counted.given number earlier
      obtain ⟨listed, kept⟩ := List.mem_filter.mp member
      exact ⟨entry, List.mem_filter.mpr ⟨perm.mem_iff.mpr (List.mem_cons_of_mem _ listed), kept⟩, same⟩
    · exact ⟨(name, header), List.mem_filter.mpr ⟨perm.mem_iff.mpr List.mem_cons_self, isCounted⟩, id⟩
  · intro entry member
    rcases List.mem_cons.mp (perm.mem_iff.mp member) with rfl | old
    · refine .inl ?_
      simp only [id]
      omega
    · refine (counted.below entry old).imp_left fun low => ?_
      simp only
      omega

private theorem CountedUp.standardNext {manager : HeaderManager} (counted : CountedUp manager) {name : String}
    (missing : manager.headers.find name = none) {header : Header} (id : header.headerId = 31)
    (notCounted : (header.isHeader || !header.isStandardMetadata) = false) :
    CountedUp { manager with headers := manager.headers.insert name header } := by
  have perm := OrderedMap.insert_perm missing header
  constructor
  · have length := (perm.filter fun entry => entry.2.isHeader || !entry.2.isStandardMetadata).length_eq
    simp only [List.filter_cons, notCounted, Bool.false_eq_true, if_false] at length
    exact length.trans counted.count
  · intro number low
    obtain ⟨entry, member, same⟩ := counted.given number low
    obtain ⟨listed, kept⟩ := List.mem_filter.mp member
    exact ⟨entry, List.mem_filter.mpr ⟨perm.mem_iff.mpr (List.mem_cons_of_mem _ listed), kept⟩, same⟩
  · intro entry member
    rcases List.mem_cons.mp (perm.mem_iff.mp member) with rfl | old
    · exact .inr id
    · exact counted.below entry old

private theorem CountedUp.addMember {manager : HeaderManager} (counted : CountedUp manager)
    (headerDefs : List HeaderDef) (field : FieldDef) : CountedUp (manager.addMember headerDefs field) := by
  unfold HeaderManager.addMember
  split
  · split
    · unfold addHeader
      split
      · exact counted
      · next missing => exact counted.next (Option.not_isSome_iff_eq_none.mp missing) rfl rfl
    · exact counted
  · exact counted

private theorem CountedUp.addStruct {manager : HeaderManager} (counted : CountedUp manager)
    (headerDefs : List HeaderDef) (structDef : StructDef) :
    CountedUp (manager.addStruct headerDefs structDef) := by
  unfold HeaderManager.addStruct
  split
  · have named : CountedUp { manager with headerName := structDef.name } :=
      ⟨counted.count, counted.given, counted.below⟩
    generalize { manager with headerName := structDef.name } = start at named
    induction structDef.fields generalizing start with
    | nil => exact named
    | cons field rest ih => exact ih _ (named.addMember headerDefs field)
  · unfold addMetadata
    split
    · exact counted
    · next missing =>
        have missing := Option.not_isSome_iff_eq_none.mp missing
        split
        · next standard => exact counted.standardNext missing rfl (by simp [Header.ofStructDef, standard])
        · next user => exact counted.next missing rfl (by simp [Header.ofStructDef, user])

theorem load_counted (headerDefs : List HeaderDef) (structDefs : List StructDef) :
    CountedUp (load headerDefs structDefs) := by
  have run : ∀ (structDefs : List StructDef) (manager : HeaderManager), CountedUp manager →
      CountedUp (structDefs.foldl (HeaderManager.addStruct headerDefs) manager) := by
    intro structDefs
    induction structDefs with
    | nil => exact fun manager counted => counted
    | cons structDef rest ih => exact fun manager counted => ih _ (counted.addStruct headerDefs structDef)
  exact run structDefs {} ⟨rfl, by simp, by simp⟩

/-- Every number is below a bound above 31 if there are no more headers than that. -/
theorem headerIds_below_iff (headerDefs : List HeaderDef) (structDefs : List StructDef) {bound : Nat}
    (large : 31 < bound) :
    (∀ entry ∈ (load headerDefs structDefs).headers, entry.2.headerId < bound) ↔
      (load headerDefs structDefs).counted.length ≤ bound := by
  have counted := load_counted headerDefs structDefs
  rw [counted.count]
  constructor
  · intro low
    by_contra many
    obtain ⟨entry, member, same⟩ := counted.given bound (by omega)
    have small := low entry (List.mem_filter.mp member).1
    omega
  · intro few entry member
    rcases counted.below entry member with low | standard
    · omega
    · omega

end HeaderManager

/-! ### Fields -/

/-- A field carries the number of its header; a validity field has no bits. -/
structure FieldOf (headerId : Int) (field : HeaderField) : Prop where
  id : (field.headerId : Int) = headerId
  kind : field.type = .valid ∧ field.fieldLength = 0 ∨ field.type = .field

private theorem layout_headerField (headerId : Nat) (fieldDefs : List FieldDef) :
    ∀ entry ∈ (Header.layout headerId fieldDefs).1, FieldOf headerId entry.2 := by
  intro entry member
  rcases (Header.layout_isLayout headerId fieldDefs).entry entry member with rfl | ⟨before, length,
    after, -, -, info⟩
  · exact ⟨rfl, .inl ⟨rfl, rfl⟩⟩
  · rw [info]
    exact ⟨rfl, .inr rfl⟩

/-- All fields of all headers. -/
private def HeaderFields (manager : HeaderManager) : Prop :=
  ∀ named ∈ manager.headers, ∀ entry ∈ named.2.fields, FieldOf named.2.headerId entry.2

private theorem insert_headerFields {headers : OrderedMap String Header} {name : String} {header : Header}
    (missing : ¬ (headers.find name).isSome)
    (before : ∀ named ∈ headers, ∀ entry ∈ named.2.fields, FieldOf named.2.headerId entry.2)
    (new : ∀ entry ∈ header.fields, FieldOf header.headerId entry.2) :
    ∀ named ∈ headers.insert name header, ∀ entry ∈ named.2.fields, FieldOf named.2.headerId entry.2 := by
  intro named member
  rw [(OrderedMap.insert_perm (Option.not_isSome_iff_eq_none.mp missing) header).mem_iff] at member
  cases List.mem_cons.mp member with
  | inl isNew => exact isNew ▸ new
  | inr old => exact before named old

private theorem addMetadata_headerFields {manager : HeaderManager} (before : HeaderFields manager)
    (structDef : StructDef) :
    HeaderFields (manager.addMetadata structDef) := by
  unfold HeaderManager.addMetadata
  split
  · exact before
  · next missing =>
      split
      · exact insert_headerFields missing before (layout_headerField _ _)
      · exact insert_headerFields missing before (layout_headerField _ _)

private theorem addMember_headerFields {manager : HeaderManager} (before : HeaderFields manager)
    (headerDefs : List HeaderDef) (field : FieldDef) : HeaderFields (manager.addMember headerDefs field) := by
  unfold HeaderManager.addMember
  split
  case h_1 typeName _ =>
    split
    · next headerDef _ =>
        unfold HeaderManager.addHeader
        split
        · exact before
        · next missing => exact insert_headerFields missing before (layout_headerField _ _)
    · exact before
  case h_2 => exact before

private theorem load_headerFields (headerDefs : List HeaderDef) (structDefs : List StructDef) :
    HeaderFields (HeaderManager.load headerDefs structDefs) := by
  unfold HeaderManager.load
  apply List.foldlRecOn
  · intro named member
    cases member
  · intro manager before structDef _
    unfold HeaderManager.addStruct
    split
    · apply List.foldlRecOn
      · exact before
      · intro manager before field _
        exact addMember_headerFields before headerDefs field
    · exact addMetadata_headerFields before structDef

theorem lookupName_headerField {headerDefs : List HeaderDef} {structDefs : List StructDef}
    {name fieldName : String} {field : HeaderField}
    (found : (HeaderManager.load headerDefs structDefs).lookupName name fieldName = some field) :
    ∃ header, (HeaderManager.load headerDefs structDefs).getHeader name = some header ∧
      FieldOf header.headerId field := by
  obtain ⟨header, here, found⟩ := Option.bind_eq_some_iff.mp found
  obtain ⟨entry, inside, rfl⟩ := Option.map_eq_some_iff.mp found
  exact ⟨header, here, load_headerFields headerDefs structDefs _ (OrderedMap.mem_of_find here) entry
    (List.mem_of_find?_eq_some inside)⟩

theorem lookup_headerField {headerDefs : List HeaderDef} {structDefs : List StructDef} {lvalue : LValue}
    {field : HeaderField} (found : (HeaderManager.load headerDefs structDefs).lookup lvalue = some field) :
    ∃ header, (HeaderManager.load headerDefs structDefs).getHeader lvalue.address.1 = some header ∧
      FieldOf header.headerId field := lookupName_headerField (HeaderManager.lookup_address found)

namespace HeaderManager

/-- The numbers of the counter belong to one header each. -/
theorem counted_injective {headerDefs : List HeaderDef} {structDefs : List StructDef}
    {first second : String × Header} (here : first ∈ (load headerDefs structDefs).counted)
    (there : second ∈ (load headerDefs structDefs).counted)
    (same : first.2.headerId = second.2.headerId) : first = second := by
  have counted := load_counted headerDefs structDefs
  have covers : (List.range (load headerDefs structDefs).globalHeaderId).map (fun (id : Nat) => (id : Int)) ⊆
      (load headerDefs structDefs).counted.map fun entry => entry.2.headerId := by
    intro id member
    obtain ⟨number, low, rfl⟩ := List.mem_map.mp member
    exact List.mem_map.mpr (counted.given number (List.mem_range.mp low))
  have distinct : ((List.range (load headerDefs structDefs).globalHeaderId).map fun (id : Nat) =>
      (id : Int)).Nodup :=
    List.nodup_range.map Int.ofNat_injective
  have perm := (distinct.subperm covers).perm_of_length_le (by simp [counted.count])
  exact List.inj_on_of_nodup_map (perm.nodup_iff.mp distinct) here there same

end HeaderManager

/-! ### Matchers -/

/-- The number of a table in the last stage that lists it. -/
def lastPosition (stages : List Stage) (tableId : Int) : Option Nat :=
  (((stages.flatMap fun stage => stage.tableId.zipIdx).filter fun ref =>
    ref.1 = tableId).getLast?).map Prod.snd

private theorem matcherId_setupTable (stage : Stage) (state : TableManager × List Gateway) (tableId : Int)
    (matcherId : Nat) :
    (setupTable stage state tableId matcherId).1.map (fun entry => (entry.2.tableId, entry.2.id)) =
      (state.1.map fun entry => (entry.2.tableId, entry.2.id)).map fun pair =>
        (pair.1, if pair.1 = tableId then (matcherId : Int) else pair.2) := by
  simp only [setupTable, TableManager.setMatcherId, TableManager.update, List.map_map]
  refine List.map_congr_left fun entry _ => ?_
  by_cases here : entry.2.tableId = tableId
  · simp [here]
  · simp [here]

private theorem matcherId_setupRefs (refs : List (Stage × Int × Nat)) (state : TableManager × List Gateway) :
    (refs.foldl (fun state (ref : Stage × Int × Nat) => setupTable ref.1 state ref.2.1 ref.2.2) state).1.map
        (fun entry => (entry.2.tableId, entry.2.id)) =
      (state.1.map fun entry => (entry.2.tableId, entry.2.id)).map fun pair =>
        (pair.1, (((((refs.map Prod.snd).filter fun ref => ref.1 = pair.1).getLast?).map
          fun ref => (ref.2 : Int)).getD pair.2)) := by
  induction refs using List.reverseRecOn with
  | nil => simp
  | append_singleton refs ref ih =>
      rw [List.foldl_append, List.foldl_cons, List.foldl_nil, matcherId_setupTable, ih]
      simp only [List.map_map]
      refine List.map_congr_left fun entry _ => ?_
      by_cases here : entry.2.tableId = ref.2.1
      · simp [here]
      · simp [here, Ne.symm here]

theorem setupStages_eq (stages : List Stage) (state : TableManager × List Gateway) :
    setupStages stages state = (stages.flatMap fun stage => stage.tableId.zipIdx.map fun ref =>
      (stage, ref)).foldl
      (fun state (ref : Stage × Int × Nat) => setupTable ref.1 state ref.2.1 ref.2.2) state := by
  rw [setupStages, List.foldl_flatMap]
  congr 1
  funext state stage
  rw [List.foldl_map]

theorem matcherId_setupStages (stages : List Stage) (state : TableManager × List Gateway)
    {entry : String × Table} (member : entry ∈ (setupStages stages state).1) {position : Nat}
    (last : lastPosition stages entry.2.tableId = some position) : entry.2.id = position := by
  have all :=
    matcherId_setupRefs (stages.flatMap fun stage => stage.tableId.zipIdx.map fun ref => (stage, ref)) state
  rw [← setupStages_eq] at all
  have here := List.mem_map_of_mem (f := fun entry : String × Table => (entry.2.tableId, entry.2.id)) member
  rw [all] at here
  obtain ⟨pair, _, same⟩ := List.mem_map.mp here
  obtain ⟨sameId, sameNumber⟩ := Prod.mk.inj same
  have refs : (stages.flatMap fun stage => stage.tableId.zipIdx.map fun ref => (stage, ref)).map Prod.snd =
      stages.flatMap fun stage => stage.tableId.zipIdx := by
    simp [List.map_flatMap, Function.comp_def]
  rw [refs, sameId] at sameNumber
  rw [lastPosition] at last
  obtain ⟨ref, isLast, rfl⟩ := Option.map_eq_some_iff.mp last
  rw [isLast] at sameNumber
  exact sameNumber.symm

theorem lastPosition_isSome {stages : List Stage} {stage : Stage} (member : stage ∈ stages) {tableId : Int}
    (listed : tableId ∈ stage.tableId) : ∃ position, lastPosition stages tableId = some position := by
  obtain ⟨number, inside, rfl⟩ := List.mem_iff_getElem.mp listed
  have found : (stage.tableId[number], number) ∈
      (stages.flatMap fun stage => stage.tableId.zipIdx).filter fun ref => ref.1 = stage.tableId[number] := by
    refine List.mem_filter.mpr ⟨List.mem_flatMap.mpr ⟨stage, member, ?_⟩, by simp⟩
    exact List.mem_zipIdx_iff_getElem?.mpr (List.getElem?_eq_getElem inside)
  obtain ⟨last, isLast⟩ := Option.isSome_iff_exists.mp (List.getLast?_isSome.mpr (List.ne_nil_of_mem found))
  exact ⟨last.2, by rw [lastPosition, isLast, Option.map_some]⟩

/-! ### Processors -/

section

variable {program : Program} {distribution : DistributionResult} {memory : MemoryResult}
  {docs : List (Option ProcessorDoc)}

/-- A processor is emitted if a stage is placed on it, or if it is one of the free processors that
are taken for parser levels. -/
theorem Emission.emitted_iff (emission : Emission program distribution memory docs) {index : Nat} :
    (∃ doc, docs[index]? = some (some doc)) ↔
      (∃ stageId, memory.physicalProcId[index]? = some stageId ∧ 0 ≤ stageId) ∨
        index ∈ (freeSlots memory.physicalProcId).take
          (runsBefore program distribution.distributedLevels memory.physicalProcId procCount) := by
  obtain ⟨processors, extraId, built, written⟩ := emission.processors
  constructor
  · rintro ⟨doc, here⟩
    have inside : index < procCount := emission.docs_length ▸ (List.getElem?_eq_some_iff.mp here).1
    have bound : index < memory.physicalProcId.length := emission.placed.length ▸ inside
    have cell := List.getElem?_eq_getElem bound
    by_cases placed : 0 ≤ memory.physicalProcId[index]
    · exact .inl ⟨_, cell, placed⟩
    · have free : index ∈ freeSlots memory.physicalProcId := by
        refine List.mem_filter.mpr ⟨List.mem_range.mpr inside, ?_⟩
        rw [List.getD_eq_getElem?_getD, cell]
        simpa using placed
      obtain ⟨position, slot⟩ := List.mem_iff_getElem?.mp free
      refine .inr (List.mem_iff_getElem?.mpr ⟨position, ?_⟩)
      by_cases low : position < taken program distribution memory.physicalProcId procCount
      · rw [List.getElem?_take_of_lt (low.trans_le (Nat.min_le_left _ _)), slot]
      · cases (written index none (built.empty position index slot (Nat.not_lt.mp low))).symm.trans here
  · rintro (⟨stageId, placed, nonneg⟩ | member)
    · have inside : index < procCount := emission.placed.length ▸ (List.getElem?_eq_some_iff.mp placed).1
      obtain ⟨_, _, _, _, here⟩ := built.stages index inside stageId placed nonneg
      obtain ⟨doc, isDoc, _⟩ := written index _ here
      exact ⟨doc, isDoc⟩
    · obtain ⟨position, slot⟩ := List.mem_iff_getElem?.mp member
      obtain ⟨inside, _⟩ := List.getElem?_eq_some_iff.mp slot
      rw [List.length_take] at inside
      rw [List.getElem?_take_of_lt (by omega)] at slot
      obtain ⟨_, _, _, here⟩ := built.filled position index slot inside
      obtain ⟨doc, isDoc, _⟩ := written index _ here
      exact ⟨doc, isDoc⟩

end

end Ipbm.Compiler
