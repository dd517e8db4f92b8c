import Ipbm.System.KeylessTable
import Ipbm.Compiler.Numbering
import Ipbm.Dataplane.KeyInjectivity
import Ipbm.Dataplane.MatcherProperties

/-! The length of a match key. The compiler gives a validity field no bits, the matcher
reads one for it, and the key is as long as the compiler's widths add up to. -/

set_option autoImplicit false

namespace Ipbm.System
open Lib Dataplane Compiler Controller

/-- The bits a field adds to the key. -/
def contributedBits (info : KeyInfo) : Nat := 8 * info.field.length - info.tailOffset

/-- The key is as long as its fields' bits, and packets that differ in a field have different keys. -/
structure AccountsForKey (fdInfos : List FieldInfo) : Prop where
  length : ∀ (phv : Phv) (infos : List KeyInfo), phv.packet.length = frontHeaderLen + metaLen →
    fdInfos.mapM (MatcherThread.getField · phv) = some infos →
    (fdInfos.map FieldInfo.fdLen).sum % 2 ^ 16 = (infos.map contributedBits).sum
  apart : ∀ (thread : MatcherThread) (phv phv' : Phv) (infos infos' : List KeyInfo),
    thread.fdInfos = fdInfos →
    phv.packet.length = frontHeaderLen + metaLen → phv'.packet.length = frontHeaderLen + metaLen →
    fdInfos.mapM (MatcherThread.getField · phv) = some infos →
    fdInfos.mapM (MatcherThread.getField · phv') = some infos' → infos ≠ infos' →
    ∃ key key', thread.matchKey phv = some key ∧ thread.matchKey phv' = some key' ∧ key ≠ key'

/-- A key field as the compiler lays it out. -/
def LaidOut (fd : FieldInfo) : Prop := fd.fdType = .valid ∧ fd.fdLen = 0 ∨ fd.fdType = .field ∧ 0 < fd.fdLen

/-- Where a packet with these headers has a field. -/
def fieldStart (headers : List HeaderInfo) (fd : FieldInfo) : Nat :=
  (headers[fd.hdrId]?.getD {}).hdrOffset + fd.internalOffset

/-- Some packet holds all fields of the key, no two of them in one place. -/
def SideBySide (fdInfos : List FieldInfo) : Prop :=
  ∃ headers : List HeaderInfo,
    (∀ fd ∈ fdInfos, fd.hdrId < 32 ∧ fd.hdrId < headers.length ∧
      (fd.fdType = .valid ∨ fieldStart headers fd + fd.fdLen ≤ 8 * (frontHeaderLen + metaLen))) ∧
    fdInfos.Pairwise fun fd other => fd.fdType = .valid ∨ other.fdType = .valid ∨
      fieldStart headers fd + fd.fdLen ≤ fieldStart headers other ∨
      fieldStart headers other + other.fdLen ≤ fieldStart headers fd

/-- Only ordinary fields, and the packer puts them where they can be told apart. -/
def KeyFits (fdInfos : List FieldInfo) : Prop :=
  (∀ fd ∈ fdInfos, fd.fdType = .field) ∧ (fdInfos.map FieldInfo.fdLen).sum < 2 ^ 16 ∧
    PacksApart (fdInfos.map FieldInfo.fdLen) (fdInfos.map FieldInfo.fdLen).sum

/-! ### What a packet contributes -/

theorem contributedBits_keyInfoOf (width value : Nat) : contributedBits (keyInfoOf width value) = width := by
  have wide := width_add_padding width
  have unused : (keyInfoOf width value).tailOffset = padding width := rfl
  rw [contributedBits, length_keyInfoOf_field, unused]
  omega

/-- Whatever is read for an ordinary field is a value of its width. -/
theorem getField_value {fd : FieldInfo} {phv : Phv} {info : KeyInfo} (kind : fd.fdType ≠ .valid)
    (read : MatcherThread.getField fd phv = some info) :
    ∃ value < 2 ^ fd.fdLen, info = keyInfoOf fd.fdLen value := by
  rw [MatcherThread.getField, if_neg kind] at read
  obtain ⟨hi, _, read⟩ := Option.bind_eq_some_iff.mp read
  split at read
  case h_1 => cases read
  case h_2 front bytes =>
    obtain ⟨last, _, read⟩ := Option.bind_eq_some_iff.mp read
    obtain ⟨field, fields, read⟩ := Option.bind_eq_some_iff.mp read
    cases read
    have count : field.length = front := by
      rw [length_of_mapM_some fields, List.length_range]
    have wide := width_add_padding fd.fdLen
    have less := padding_lt fd.fdLen
    rw [MatcherThread.emptyBits_eq]
    generalize padding fd.fdLen = unused at wide less
    have byte : 2 ^ (8 - unused) * 2 ^ unused = 256 := by rw [← Nat.pow_add, Nat.sub_add_cancel less.le]
    have low : last.toNat / 2 ^ unused < 2 ^ (8 - unused) := by
      rw [Nat.div_lt_iff_lt_mul (Nat.two_pow_pos _), byte]
      exact byte_lt last
    have lowByte : last.toNat / 2 ^ unused * 2 ^ unused < 256 :=
      byte ▸ Nat.mul_lt_mul_of_pos_right low (Nat.two_pow_pos _)
    have shifted : last.toNat >>> unused <<< unused = last.toNat / 2 ^ unused * 2 ^ unused := by
      rw [Nat.shiftLeft_eq, Nat.shiftRight_eq_div_pow]
    have whole := beVal_lt field
    rw [count] at whole
    refine ⟨beVal field * 2 ^ (8 - unused) + last.toNat / 2 ^ unused, ?_, ?_⟩
    · calc
        _ < 2 ^ (8 * front + (8 - unused)) := concat_lt (pow_256 front ▸ whole) low
        _ = 2 ^ fd.fdLen := by
          congr 1
          omega
    · have unusedBits : padding fd.fdLen = unused := by
        have again := width_add_padding fd.fdLen
        omega
      have encoded := beBytes_append front (beVal field) (u8 (last.toNat >>> unused <<< unused))
      rw [toNat_u8, shifted, Nat.mod_eq_of_lt lowByte, ← count, beBytes_beVal, count] at encoded
      rw [keyInfoOf, unusedBits, bytes, Nat.add_mul, Nat.mul_assoc, byte, encoded, shifted]

theorem keyInfoOf_injective {width value value' : Nat} (small : value < 2 ^ width)
    (small' : value' < 2 ^ width) (same : keyInfoOf width value = keyInfoOf width value') :
    value = value' := by
  have values := congrArg (fun info => beVal info.field) same
  simp only [keyInfoOf, beVal_beBytes, Nat.mod_eq_of_lt (leftAligned_lt small),
    Nat.mod_eq_of_lt (leftAligned_lt small')] at values
  exact Nat.eq_of_mul_eq_mul_right (Nat.two_pow_pos _) values

private theorem fields_injective {fields fields' : List (Nat × Nat)}
    (widths : fields.map Prod.fst = fields'.map Prod.fst)
    (small : ∀ field ∈ fields, field.2 < 2 ^ field.1) (small' : ∀ field ∈ fields', field.2 < 2 ^ field.1)
    (same : (fields.map fun field => keyInfoOf field.1 field.2) =
      fields'.map fun field => keyInfoOf field.1 field.2) :
    fields = fields' := by
  induction fields generalizing fields' with
  | nil => exact (List.map_eq_nil_iff.mp widths.symm).symm
  | cons field fields ih =>
      cases fields' with
      | nil => cases widths
      | cons field' fields' =>
          obtain ⟨width, others⟩ := List.cons.inj widths
          obtain ⟨here, rest⟩ := List.cons.inj same
          simp only [← width] at here
          have value := keyInfoOf_injective (small field List.mem_cons_self)
            (width ▸ small' field' List.mem_cons_self) here
          have later := ih others (fun other member => small other (List.mem_cons_of_mem _ member))
            (fun other member => small' other (List.mem_cons_of_mem _ member)) rest
          rw [later, Prod.ext width value]

/-- The values some packet holds in the fields of a key. -/
def Occurs (fdInfos : List FieldInfo) (fields : List (Nat × Nat)) : Prop :=
  fields.map Prod.fst = fdInfos.map FieldInfo.fdLen ∧ (∀ field ∈ fields, field.2 < 2 ^ field.1) ∧
    ∃ phv : Phv, phv.packet.length = frontHeaderLen + metaLen ∧
      fdInfos.mapM (MatcherThread.getField · phv) = some (fields.map fun field => keyInfoOf field.1 field.2)

variable {fdInfos : List FieldInfo}

private theorem mapM_getField (ordinary : ∀ fd ∈ fdInfos, fd.fdType = .field) {phv : Phv}
    {infos : List KeyInfo} (read : fdInfos.mapM (MatcherThread.getField · phv) = some infos) :
    ∃ fields : List (Nat × Nat), fields.map Prod.fst = fdInfos.map FieldInfo.fdLen ∧
      (∀ field ∈ fields, field.2 < 2 ^ field.1) ∧
        infos = fields.map fun field => keyInfoOf field.1 field.2 := by
  induction fdInfos generalizing infos with
  | nil =>
      cases read
      exact ⟨[], rfl, by simp, rfl⟩
  | cons fd fdInfos ih =>
      obtain ⟨first, others, here, later, rfl⟩ := mapM_cons_some read
      have kind := ordinary fd List.mem_cons_self
      obtain ⟨value, small, rfl⟩ := getField_value (by rw [kind]; decide) here
      obtain ⟨fields, widths, smalls, rfl⟩ :=
        ih (fun other member => ordinary other (List.mem_cons_of_mem _ member)) later
      refine ⟨(fd.fdLen, value) :: fields, by simp [widths], ?_, rfl⟩
      intro field member
      cases List.mem_cons.mp member with
      | inl isFirst => exact isFirst ▸ small
      | inr isLater => exact smalls field isLater

private theorem occurs_of_mapM (ordinary : ∀ fd ∈ fdInfos, fd.fdType = .field) {phv : Phv}
    {infos : List KeyInfo} (length : phv.packet.length = frontHeaderLen + metaLen)
    (read : fdInfos.mapM (MatcherThread.getField · phv) = some infos) :
    ∃ fields, Occurs fdInfos fields ∧ infos = fields.map fun field => keyInfoOf field.1 field.2 := by
  obtain ⟨fields, widths, small, rfl⟩ := mapM_getField ordinary read
  exact ⟨fields, ⟨widths, small, phv, length, read⟩, rfl⟩

private theorem matchKey_eq {thread : MatcherThread} {phv : Phv} {infos : List KeyInfo}
    (fields : thread.fdInfos = fdInfos) (read : fdInfos.mapM (MatcherThread.getField · phv) = some infos) :
    thread.matchKey phv = combineToSingleKeyWith 0 infos (fdInfos.map FieldInfo.fdLen).sum := by
  rw [MatcherThread.matchKey, fields, read]
  rfl

theorem KeyFits.accounts (laidOut : ∀ fd ∈ fdInfos, LaidOut fd) (fits : KeyFits fdInfos) :
    AccountsForKey fdInfos := by
  obtain ⟨ordinary, short, packs⟩ := fits
  have positive : ∀ width ∈ fdInfos.map FieldInfo.fdLen, 0 < width := by
    intro width member
    obtain ⟨fd, listed, rfl⟩ := List.mem_map.mp member
    cases laidOut fd listed with
    | inl valid => exact absurd (valid.1.symm.trans (ordinary fd listed)) (by decide)
    | inr plain => exact plain.2
  have keysApart : KeysApart (Occurs fdInfos) (fdInfos.map FieldInfo.fdLen).sum :=
    keysApart_of positive (fun _ occurs => ⟨occurs.1, occurs.2.1⟩) packs
  constructor
  · intro phv infos _ read
    obtain ⟨fields, widths, _, rfl⟩ := mapM_getField ordinary read
    rw [Nat.mod_eq_of_lt short, List.map_map, ← widths]
    congr 1
    exact List.map_congr_left fun field _ => (contributedBits_keyInfoOf field.1 field.2).symm
  · intro thread phv phv' infos infos' isKey length length' read read' different
    obtain ⟨fields, here, rfl⟩ := occurs_of_mapM ordinary length read
    obtain ⟨fields', here', rfl⟩ := occurs_of_mapM ordinary length' read'
    rw [matchKey_eq isKey read, matchKey_eq isKey read']
    exact keysApart fields fields' here here' fun same => different (same ▸ rfl)

/-! ### Packets that hold one bit -/

private def phvOf (headers : List HeaderInfo) (packet : List UInt8) : Phv :=
  { Phv.fresh with packet, parsedHeaders := headers }

private theorem getField_phvOf {headers : List HeaderInfo} {packet : List UInt8} {fd : FieldInfo}
    (kind : fd.fdType = .field) (positive : 0 < fd.fdLen) (header : fd.hdrId < headers.length)
    (inside : fieldStart headers fd + fd.fdLen ≤ 8 * packet.length) :
    MatcherThread.getField fd (phvOf headers packet) =
      some (keyInfoOf fd.fdLen (bitSlice packet (fieldStart headers fd) fd.fdLen)) := by
  have found : headers[fd.hdrId]? = some (headers[fd.hdrId]) := List.getElem?_eq_getElem header
  have start : fieldStart headers fd = (headers[fd.hdrId]).hdrOffset + fd.internalOffset := by
    rw [fieldStart, found]
    rfl
  rw [start] at inside ⊢
  exact MatcherThread.getField_eq (by rw [kind]; decide) found positive inside

private theorem getField_valid {headers : List HeaderInfo} {packet : List UInt8} {fd : FieldInfo}
    (kind : fd.fdType = .valid) (known : fd.hdrId < 32) :
    MatcherThread.getField fd (phvOf headers packet) = some ⟨7, [0]⟩ := by
  have bit : (phvOf headers packet).validBitmap[fd.hdrId]? = some 0 := by
    rw [phvOf, Phv.fresh, List.getElem?_replicate_of_lt known]
  rw [MatcherThread.getField, if_pos kind, bit]
  rfl

private theorem sum_contributed {info : FieldInfo → KeyInfo} (laidOut : ∀ fd ∈ fdInfos, LaidOut fd)
    (valid : ∀ fd ∈ fdInfos, fd.fdType = .valid → contributedBits (info fd) = 1)
    (plain : ∀ fd ∈ fdInfos, fd.fdType = .field → contributedBits (info fd) = fd.fdLen) :
    ((fdInfos.map info).map contributedBits).sum =
      (fdInfos.map FieldInfo.fdLen).sum + fdInfos.countP fun fd => fd.fdType = .valid := by
  induction fdInfos with
  | nil => rfl
  | cons fd fdInfos ih =>
      have later := ih (fun other member => laidOut other (List.mem_cons_of_mem _ member))
        (fun other member => valid other (List.mem_cons_of_mem _ member))
        (fun other member => plain other (List.mem_cons_of_mem _ member))
      rw [List.map_cons, List.map_cons, List.sum_cons, later, List.map_cons, List.sum_cons, List.countP_cons]
      cases laidOut fd List.mem_cons_self with
      | inl kind =>
          rw [valid fd List.mem_cons_self kind.1, kind.2]
          simp only [kind.1, decide_true, if_true]
          omega
      | inr kind =>
          rw [plain fd List.mem_cons_self kind.1]
          simp only [kind.1, reduceCtorEq, decide_false, Bool.false_eq_true, if_false]
          omega

private theorem AccountsForKey.lengths (laidOut : ∀ fd ∈ fdInfos, LaidOut fd)
    (sideBySide : SideBySide fdInfos) (accounts : AccountsForKey fdInfos) :
    (∀ fd ∈ fdInfos, fd.fdType = .field) ∧ (fdInfos.map FieldInfo.fdLen).sum < 2 ^ 16 := by
  obtain ⟨headers, inside, _⟩ := sideBySide
  let packet : List UInt8 := List.replicate (frontHeaderLen + metaLen) 0
  let info (fd : FieldInfo) : KeyInfo :=
    if fd.fdType = .valid then ⟨7, [0]⟩
      else keyInfoOf fd.fdLen (bitSlice packet (fieldStart headers fd) fd.fdLen)
  have length : packet.length = frontHeaderLen + metaLen := List.length_replicate
  have read : fdInfos.mapM (MatcherThread.getField · (phvOf headers packet)) = some (fdInfos.map info) := by
    apply mapM_eq_some_map
    intro fd member
    obtain ⟨known, header, place⟩ := inside fd member
    cases laidOut fd member with
    | inl kind => rw [getField_valid kind.1 known, show info fd = ⟨7, [0]⟩ from if_pos kind.1]
    | inr kind =>
        have plain : fd.fdType ≠ .valid := by rw [kind.1]; decide
        rw [getField_phvOf kind.1 kind.2 header (by rw [length]; exact place.resolve_left plain)]
        exact congrArg some (if_neg plain).symm
  have sums := accounts.length _ _ length read
  rw [sum_contributed laidOut] at sums
  · have none : fdInfos.countP (fun fd => fd.fdType = .valid) = 0 := by
      have bound := Nat.mod_le (fdInfos.map FieldInfo.fdLen).sum (2 ^ 16)
      omega
    refine ⟨fun fd member => ?_, by omega⟩
    cases laidOut fd member with
    | inl kind => exact absurd (decide_eq_true kind.1) (List.countP_eq_zero.mp none fd member)
    | inr kind => exact kind.1
  · intro fd _ kind
    rw [show info fd = ⟨7, [0]⟩ from if_pos kind]
    rfl
  · intro fd _ kind
    rw [show info fd = keyInfoOf fd.fdLen _ from if_neg (by rw [kind]; decide)]
    exact contributedBits_keyInfoOf _ _

/-- Ordinary fields in distinct places of the packets with these headers. -/
private structure Placed (headers : List HeaderInfo) (fdInfos : List FieldInfo) : Prop where
  field : ∀ fd ∈ fdInfos, fd.fdType = .field ∧ 0 < fd.fdLen
  inside : ∀ fd ∈ fdInfos, fd.hdrId < headers.length ∧
    fieldStart headers fd + fd.fdLen ≤ 8 * (frontHeaderLen + metaLen)
  apart : fdInfos.Pairwise fun fd other => fieldStart headers fd + fd.fdLen ≤ fieldStart headers other ∨
    fieldStart headers other + other.fdLen ≤ fieldStart headers fd

private theorem Placed.read {headers : List HeaderInfo} (placed : Placed headers fdInfos)
    (packet : List UInt8) (length : packet.length = frontHeaderLen + metaLen) :
    fdInfos.mapM (MatcherThread.getField · (phvOf headers packet)) =
      some (fdInfos.map fun fd => keyInfoOf fd.fdLen (bitSlice packet (fieldStart headers fd) fd.fdLen)) :=
  mapM_eq_some_map fun fd member => getField_phvOf (placed.field fd member).1 (placed.field fd member).2
    (placed.inside fd member).1 (by rw [length]; exact (placed.inside fd member).2)

private theorem Placed.zero {headers : List HeaderInfo} (placed : Placed headers fdInfos) :
    Occurs fdInfos ((fdInfos.map FieldInfo.fdLen).map fun width => (width, 0)) := by
  refine ⟨by simp [Function.comp_def], ?_, phvOf headers (List.replicate (frontHeaderLen + metaLen) 0),
    List.length_replicate, ?_⟩
  · intro field member
    obtain ⟨width, _, rfl⟩ := List.mem_map.mp member
    exact Nat.two_pow_pos width
  · rw [placed.read _ List.length_replicate]
    simp [bitSlice, Function.comp_def]

private theorem Placed.bit {headers : List HeaderInfo} {before after : List FieldInfo}
    {fd : FieldInfo} {bit : Nat} (placed : Placed headers (before ++ fd :: after)) (within : bit < fd.fdLen) :
    Occurs (before ++ fd :: after) (oneValue (before.map FieldInfo.fdLen) fd.fdLen (2 ^ (fd.fdLen - 1 - bit))
      (after.map FieldInfo.fdLen)) := by
  have here : fd ∈ before ++ fd :: after := List.mem_append_right _ List.mem_cons_self
  let packet := beBytes (frontHeaderLen + metaLen)
    (2 ^ (8 * (frontHeaderLen + metaLen) - 1 - (fieldStart headers fd + bit)))
  have length : packet.length = frontHeaderLen + metaLen := length_beBytes _ _
  have bits (other : FieldInfo) (member : other ∈ before ++ fd :: after) :=
    bitSlice_bit (frontHeaderLen + metaLen) (fieldStart headers fd + bit)
      (fieldStart headers other) other.fdLen
      (by have := (placed.inside fd here).2; omega) (placed.inside other member).2
  obtain ⟨_, later, early⟩ := List.pairwise_append.mp placed.apart
  have own : bitSlice packet (fieldStart headers fd) fd.fdLen = 2 ^ (fd.fdLen - 1 - bit) := by
    rw [bits fd here, if_pos (by omega)]
    congr 1
    omega
  have zero (other : FieldInfo) (member : other ∈ before ++ fd :: after)
      (aside : fieldStart headers other + other.fdLen ≤ fieldStart headers fd ∨
        fieldStart headers fd + fd.fdLen ≤ fieldStart headers other) :
      bitSlice packet (fieldStart headers other) other.fdLen = 0 := by
    rw [bits other member, if_neg (by omega)]
  have blank (others : List FieldInfo)
      (zeros : ∀ other ∈ others, bitSlice packet (fieldStart headers other) other.fdLen = 0) :
      (others.map fun fd => keyInfoOf fd.fdLen (bitSlice packet (fieldStart headers fd) fd.fdLen)) =
        others.map fun fd => keyInfoOf fd.fdLen 0 :=
    List.map_congr_left fun other member => by rw [zeros other member]
  have front := blank before fun other member =>
    zero other (List.mem_append_left _ member) (early other member fd List.mem_cons_self)
  have back := blank after fun other member =>
    zero other (List.mem_append_right _ (List.mem_cons_of_mem _ member))
      ((List.pairwise_cons.mp later).1 other member).symm
  refine ⟨by simp [oneValue, Function.comp_def], ?_, phvOf headers packet, length, ?_⟩
  · intro field member
    rw [oneValue, List.mem_append, List.mem_cons] at member
    rcases member with first | rfl | last
    · obtain ⟨other, _, rfl⟩ := List.mem_map.mp first
      exact Nat.two_pow_pos other
    · exact Nat.pow_lt_pow_right (by decide) (by omega)
    · obtain ⟨other, _, rfl⟩ := List.mem_map.mp last
      exact Nat.two_pow_pos other
  · rw [placed.read packet length, oneValue_infos, List.map_append, List.map_cons, own, front,
      back, List.map_map, List.map_map]
    rfl

theorem AccountsForKey.fits (laidOut : ∀ fd ∈ fdInfos, LaidOut fd) (sideBySide : SideBySide fdInfos)
    (accounts : AccountsForKey fdInfos) : KeyFits fdInfos := by
  obtain ⟨ordinary, short⟩ := accounts.lengths laidOut sideBySide
  refine ⟨ordinary, short, ?_⟩
  obtain ⟨headers, inside, apart⟩ := sideBySide
  have plain (fd : FieldInfo) (member : fd ∈ fdInfos) : fd.fdType ≠ .valid := by
    rw [ordinary fd member]
    decide
  have placed : Placed headers fdInfos := by
    constructor
    · intro fd member
      exact (laidOut fd member).resolve_left fun valid => plain fd member valid.1
    · intro fd member
      obtain ⟨_, header, place⟩ := inside fd member
      exact ⟨header, place.resolve_left (plain fd member)⟩
    · apply apart.imp_of_mem
      intro fd other member member' disjoint
      exact (disjoint.resolve_left (plain fd member)).resolve_left (plain other member')
  have positive : ∀ width ∈ fdInfos.map FieldInfo.fdLen, 0 < width := by
    intro width member
    obtain ⟨fd, listed, rfl⟩ := List.mem_map.mp member
    exact (placed.field fd listed).2
  have keysApart : KeysApart (Occurs fdInfos) (fdInfos.map FieldInfo.fdLen).sum := by
    intro fields fields' here here' different
    obtain ⟨widths, small, phv, length, infos⟩ := here
    obtain ⟨widths', small', phv', length', infos'⟩ := here'
    obtain ⟨key, key', ours, theirs, differ⟩ :=
      accounts.apart { procId := 0, fdInfos := fdInfos } phv phv' _ _ rfl length
      length' infos infos' fun same =>
        different (fields_injective (widths.trans widths'.symm) small small' same)
    rw [matchKey_eq rfl infos] at ours
    rw [matchKey_eq rfl infos'] at theirs
    exact ⟨key, key', ours, theirs, differ⟩
  apply (keysApart_iff positive (fun _ occurs => ⟨occurs.1, occurs.2.1⟩) placed.zero ?_).mp keysApart
  intro front width bit back split within
  obtain ⟨before, rest, rfl, rfl, behind⟩ := List.map_eq_append_iff.mp split
  obtain ⟨fd, after, rfl, rfl, rfl⟩ := List.map_eq_cons_iff.mp behind
  exact placed.bit within

/-! ### Tables of the compiler -/

private theorem emitted_headerField {headerDefs : List HeaderDef} {structDefs : List StructDef}
    {levels : List Level} {ast : Ast} {program : Program}
    (done : load (HeaderManager.load headerDefs structDefs).lookup levels ast = some program)
    (leftover : Int → Leftover) {sort : (Int → Int → Bool) → List Int → List Int}
    {getHeader : String → Option Int} {docs : List (Option ProcessorDoc)}
    (emitted : emitProgram sort getHeader (settle leftover program) = some docs)
    {index : Nat} {doc : ProcessorDoc} (here : docs[index]? = some (some doc)) {table : Table}
    (member : table ∈ doc.matcher) : ∀ fd ∈ table.fieldInfos,
      fd.type = .valid ∧ fd.fieldLength = 0 ∨ fd.type = .field := by
  obtain ⟨actions, position, tableDef, source, -, -, made, declared⟩ :=
    emitted_made done leftover emitted here member
  have same : source.declared.fieldInfos = table.declared.fieldInfos := by rw [declared]
  change source.fieldInfos = table.fieldInfos at same
  rw [← same]
  unfold TableManager.makeTable at made
  split at made
  · cases made
    intro fd inside
    cases inside
  · obtain ⟨fields, found, made⟩ := Option.bind_eq_some_iff.mp made
    cases made
    intro fd inside
    obtain ⟨entry, _, looked⟩ := mem_of_mapM_some found inside
    obtain ⟨_, _, field⟩ := lookup_headerField looked
    exact field.kind

/-- The key of a compiled table accounts for its fields if it has only ordinary ones that the packer
keeps apart, and, of fields that a packet can hold side by side, only then. -/
theorem accountsForKey_compiled {headerDefs : List HeaderDef} {structDefs : List StructDef}
    {levels : List Level} {ast : Ast} {program : Program}
    (done : load (HeaderManager.load headerDefs structDefs).lookup levels ast = some program)
    (leftover : Int → Leftover) {sort : (Int → Int → Bool) → List Int → List Int}
    {getHeader : String → Option Int} {docs : List (Option ProcessorDoc)}
    (emitted : emitProgram sort getHeader (settle leftover program) = some docs)
    {index : Nat} {doc : ProcessorDoc} (here : docs[index]? = some (some doc)) {table : Table}
    (member : table ∈ doc.matcher) (wide : ∀ fd ∈ table.fieldInfos, fd.type = .field →
      0 < wrap 16 fd.fieldLength) :
    (KeyFits (table.fieldInfos.map sentField) → AccountsForKey (table.fieldInfos.map sentField)) ∧
      (SideBySide (table.fieldInfos.map sentField) → AccountsForKey (table.fieldInfos.map sentField) →
        KeyFits (table.fieldInfos.map sentField)) := by
  have laidOut : ∀ fd ∈ table.fieldInfos.map sentField, LaidOut fd := by
    intro sent listed
    obtain ⟨fd, inside, rfl⟩ := List.mem_map.mp listed
    cases emitted_headerField done leftover emitted here member fd inside with
    | inl valid => exact .inl ⟨valid.1, by simp [sentField, valid.2, wrap]⟩
    | inr plain => exact .inr ⟨plain, wide fd inside plain⟩
  exact ⟨KeyFits.accounts laidOut, AccountsForKey.fits laidOut⟩

/-- A table over two ordinary fields, and one over a field and the validity of another header. -/
def mixedAst : Ast where
  actions := [{ name := "nop", parameters := [], expressions := [] }]
  tables := [
    { name := "plain", keys := [(.field "headers" "h" "f", .exact), (.field "headers" "h" "e", .exact)],
      optionalStmts := [.defaultAction "nop"] },
    { name := "mixed",
      keys := [(.field "headers" "h" "g", .exact), (.field "headers" "k" "isValid", .exact)],
      optionalStmts := [.defaultAction "nop"] }]
  ingress := [
    { name := "a", parser := [], executor := [⟨"nop", ""⟩, ⟨"nop", ""⟩],
      matcher := ⟨[], [⟨.default, .table "plain"⟩]⟩ },
    { name := "b", parser := [], executor := [⟨"nop", ""⟩, ⟨"nop", ""⟩],
      matcher := ⟨[], [⟨.default, .table "mixed"⟩]⟩ }]
  egress := []

def mixedHeaderDefs : List HeaderDef :=
  [⟨"h_t", [⟨.bit 12, "f"⟩, ⟨.bit 4, "e"⟩, ⟨.bit 8, "g"⟩]⟩, ⟨"k_t", [⟨.bit 8, "f"⟩]⟩]

def mixedStructDefs : List StructDef :=
  [{ name := "headers", fields := [⟨.named "h_t", "h"⟩, ⟨.named "k_t", "k"⟩], isHeader := true }]

def mixedProgram : Program :=
  (load (HeaderManager.load mixedHeaderDefs mixedStructDefs).lookup [] mixedAst).get (by decide)

def mixedDocs : List (Option ProcessorDoc) :=
  (emitProgram (fun _ items => items) (fun _ => none) (settle keylessLeftover mixedProgram)).get (by decide)

def plainDoc : ProcessorDoc := ((mixedDocs[0]?).join).get (by decide)

def plainTable : Table := plainDoc.matcher.head (by decide)

theorem plainTable_fields :
    plainTable.fieldInfos.map sentField = [⟨0, 0, 12, .field⟩, ⟨0, 12, 4, .field⟩] := by decide

theorem accountsForKey_plain :
    AccountsForKey (plainTable.fieldInfos.map sentField) ∧ KeyFits (plainTable.fieldInfos.map sentField) := by
  have compiled := @accountsForKey_compiled mixedHeaderDefs mixedStructDefs [] mixedAst mixedProgram
    (Option.some_get _).symm keylessLeftover (fun _ items => items) (fun _ => none) mixedDocs
      (Option.some_get _).symm 0
    plainDoc (Option.join_eq_some_iff.mp (Option.some_get _).symm) plainTable (List.head_mem _) (by decide)
  have fits : KeyFits (plainTable.fieldInfos.map sentField) := by
    rw [plainTable_fields]
    unfold KeyFits PacksApart Whole
    decide
  have sideBySide : SideBySide (plainTable.fieldInfos.map sentField) := by
    rw [plainTable_fields]
    exact ⟨[{}], by decide, by decide⟩
  have accounts := compiled.1 fits
  exact ⟨accounts, compiled.2 sideBySide accounts⟩

def mixedTable : Table := (((mixedDocs[1]?).join).get (by decide)).matcher.head (by decide)

/-- The key of a byte field and a validity bit has eight bits for nine, and a set bit in the field
gives the same key as the valid header. -/
theorem not_accountsForKey_mixed :
    mixedTable.fieldInfos.map sentField = [⟨0, 16, 8, .field⟩, ⟨1, 0, 0, .valid⟩] ∧
      MatcherThread.matchKey { procId := 0, fdInfos := mixedTable.fieldInfos.map sentField }
        { Phv.fresh with packet := [0, 0, 128] ++ List.replicate 1597 0 } = some [128] ∧
      MatcherThread.matchKey { procId := 0, fdInfos := mixedTable.fieldInfos.map sentField }
        { Phv.fresh with validBitmap := [0, 1] ++ List.replicate 30 0 } = some [128] ∧
      ¬AccountsForKey (mixedTable.fieldInfos.map sentField) := by
  have fields : mixedTable.fieldInfos.map sentField = [⟨0, 16, 8, .field⟩, ⟨1, 0, 0, .valid⟩] := by decide
  rw [fields]
  refine ⟨rfl, by decide, by decide, fun accounts => ?_⟩
  have ordinary := (accounts.lengths (by unfold LaidOut; decide) ⟨[{}, {}], by decide, by decide⟩).1
  exact absurd (ordinary ⟨1, 0, 0, .valid⟩ (by decide)) (by decide)

end Ipbm.System
