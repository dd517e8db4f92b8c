import Ipbm.Controller.ModTable
import Ipbm.Dataplane.MatcherProperties
import Ipbm.Dataplane.ExecutorProperties
import Mathlib.Algebra.Order.BigOperators.Group.List

/-! One table entry from the update document to the packet. The controller packs
the entry, the matcher stores it and packs the key of a packet, and the executor
unpacks the parameters; the entry is delivered when the packet finds the action
and its parameters as the document has them. -/

set_option autoImplicit false

namespace Ipbm.System
open Lib Dataplane Controller

/-- A number of a given width, as an update document writes it. -/
def updateField (field : Nat × Nat) : UpdateField :=
  { width := field.1, value := beBytes (bytesFor field.1) field.2 }

def exactUpdate (procId matcherId : Int) (keys : List (Nat × Nat)) (actionId : Nat)
    (paras : List (Nat × Nat)) : TableUpdate where
  procId := procId
  matcherId := matcherId
  actionId := actionId
  matchType := .exact
  keys := keys.map updateField
  actionPara := paras.map updateField

/-- The update applied to a table, followed by the lookup of one packet. -/
def deliver (memory : Memory) (scratch : Nat → UInt8) (thread : MatcherThread) (update : TableUpdate)
    (phv : Phv) : Option Phv := do
  match ← extract update with
  | .insertSramEntry _ _ key value => do
      let memory ← thread.insertSramEntry memory key value
      thread.generateMatchKeyAndMatch memory scratch phv
  | .insertTcamEntry _ _ key mask value => do
      let (memory, thread) ← thread.insertTcamEntry memory key mask value
      thread.generateMatchKeyAndMatch memory scratch phv

/-- The packet holds `value` in a match field. -/
def Carries (phv : Phv) (fd : FieldInfo) (value : Nat) : Prop :=
  if fd.fdType = .valid then
    fd.fdLen = 1 ∧ phv.validBitmap[fd.hdrId]? = some value
  else
    ∃ hi, phv.parsedHeaders[fd.hdrId]? = some hi ∧
      hi.hdrOffset + fd.internalOffset + fd.fdLen ≤ 8 * phv.packet.length ∧
      bitSlice phv.packet (hi.hdrOffset + fd.internalOffset) fd.fdLen = value

/-- The lookup hit, selected the action and left its parameters in the matched value. -/
def Recovers (actionId : Nat) (paras : List (Nat × Nat)) (result : Option Phv) : Prop :=
  ∃ phv, result = some phv ∧ phv.hit = true ∧ phv.nextActionId = actionId ∧
    Action.setActionParas ⟨[], paras.length, paras.map Prod.fst⟩ phv.matchValue =
      some (paras.map fun para => ⟨para.1, beBytes (bytesFor para.1) para.2⟩)

/-- Every entry of a schema reaches every packet that carries its key, in every empty table of
the right size. -/
def EntryFaithful (keyWidths : List Nat) (actionId : Nat) (paraWidths : List Nat) : Prop :=
  ∀ (keys paras : List (Nat × Nat)) (procId matcherId : Int) (memory : Memory) (scratch : Nat → UInt8)
    (thread : MatcherThread) (phv : Phv),
    keys.map Prod.fst = keyWidths → (∀ key ∈ keys, key.2 < 2 ^ key.1) →
    paras.map Prod.fst = paraWidths → (∀ para ∈ paras, para.2 < 2 ^ para.1) →
    thread.Sized keyWidths.sum (16 + paraWidths.sum) → MatcherThread.Empty memory thread →
    phv.packet.length = frontHeaderLen + metaLen →
    List.Forall₂ (fun fd key => fd.fdLen = key.1 ∧ Carries phv fd key.2) thread.fdInfos keys →
    Recovers actionId paras
      (deliver memory scratch thread (exactUpdate procId matcherId keys actionId paras) phv)

/-- The blocks of a schema fit one cluster. -/
def Placeable (keyWidths paraWidths : List Nat) : Prop :=
  MatcherThread.slicesFor keyWidths.sum + MatcherThread.slicesFor (16 + paraWidths.sum) ≤
    sramNumPerCluster

theorem getField_carries {phv : Phv} {fd : FieldInfo} {value : Nat} (positive : 0 < fd.fdLen)
    (carries : Carries phv fd value) :
    MatcherThread.getField fd phv = some (keyInfoOf fd.fdLen value) := by
  unfold Carries at carries
  split at carries
  case isTrue valid =>
    obtain ⟨one, bit⟩ := carries
    rw [MatcherThread.getField, if_pos valid, bit, one]
    simp only [Option.bind_eq_bind, Option.bind_some, keyInfoOf]
    simp [bytesFor, padding, beBytes, Nat.shiftLeft_eq]
  case isFalse plain =>
    obtain ⟨hi, header, inside, rfl⟩ := carries
    exact MatcherThread.getField_eq plain header positive inside

/-- The packet's key is packed by the matcher's copy of the packer. -/
theorem matchKey_carries {phv : Phv} {thread : MatcherThread} {keys : List (Nat × Nat)}
    (positive : ∀ key ∈ keys, 0 < key.1)
    (carries : List.Forall₂ (fun fd key => fd.fdLen = key.1 ∧ Carries phv fd key.2) thread.fdInfos keys) :
    thread.matchKey phv =
      combineToSingleKeyWith 0 (keys.map fun key => keyInfoOf key.1 key.2) (keys.map Prod.fst).sum := by
  have parts : thread.fdInfos.mapM (MatcherThread.getField · phv) =
        some (keys.map fun key => keyInfoOf key.1 key.2) ∧
      thread.fdInfos.map FieldInfo.fdLen = keys.map Prod.fst := by
    generalize thread.fdInfos = fds at carries
    induction carries with
    | nil => exact ⟨rfl, rfl⟩
    | @cons fd key fds keys here _ ih =>
        obtain ⟨width, here⟩ := here
        obtain ⟨fields, widths⟩ := ih fun other member => positive other (List.mem_cons_of_mem _ member)
        have width_pos : 0 < fd.fdLen := width ▸ positive key List.mem_cons_self
        constructor
        · rw [List.mapM_cons, getField_carries width_pos here, fields, width]
          rfl
        · rw [List.map_cons, List.map_cons, width, widths]
  rw [MatcherThread.matchKey, parts.1, parts.2]
  rfl

theorem leftAlign_eq {width value : Nat} (positive : 0 < width) :
    leftAlign width (beBytes (bytesFor width) value) = some (keyInfoOf width value) := by
  have bytes := bytesFor_pos positive
  have shift : bytesFor width * 8 - width = padding width := by rw [padding, Nat.mul_comm]
  rw [leftAlign, if_pos ⟨length_beBytes .., bytes⟩, shift, shlBytes_beBytes _ _ _ (padding_lt width).le]
  rfl

/-- The controller's buffers are packed by its own copy of the packer. -/
theorem packUpdate_eq {fields : List (Nat × Nat)} (positive : ∀ field ∈ fields, 0 < field.1) :
    packUpdate ((fields.map updateField).map fun field => (field.width, field.value)) =
      (combineToSingleKeyWith 1 (fields.map fun field => keyInfoOf field.1 field.2)
        (fields.map Prod.fst).sum).map (·, bytesFor (fields.map Prod.fst).sum) := by
  have aligned : ((fields.map updateField).map fun field => (field.width, field.value)).mapM
      (fun field => leftAlign field.1 field.2) = some (fields.map fun field =>
          keyInfoOf field.1 field.2) := by
    rw [List.map_map, List.mapM_map]
    apply mapM_eq_some_map
    intro field member
    exact leftAlign_eq (positive field member)
  have widths : ((fields.map updateField).map fun field => (field.width, field.value)).map Prod.fst =
      fields.map Prod.fst := by
    simp [updateField, Function.comp_def]
  rw [packUpdate, aligned, widths]
  simp only [Option.bind_eq_bind, Option.bind_some, combineToSingleKey]
  cases combineToSingleKeyWith 1 (fields.map fun field => keyInfoOf field.1 field.2)
      (fields.map Prod.fst).sum <;> rfl

private theorem keyInfos_nonempty {fields : List (Nat × Nat)} (positive : ∀ field ∈ fields, 0 < field.1) :
    ∀ info ∈ fields.map fun field => keyInfoOf field.1 field.2, info.field ≠ [] := by
  intro info member
  obtain ⟨field, listed, rfl⟩ := List.mem_map.mp member
  exact List.length_pos_iff.mp (by simpa using bytesFor_pos (positive field listed))

private theorem getString_packed {fields : List (Nat × Nat)} {packed : List UInt8}
    (positive : ∀ field ∈ fields, 0 < field.1) (short : (fields.map Prod.fst).sum < 2 ^ 16)
    (combined : combineToSingleKeyWith 1 (fields.map fun field => keyInfoOf field.1 field.2)
      (fields.map Prod.fst).sum = some packed) :
    getString packed (bytesFor (fields.map Prod.fst).sum) = some packed := by
  have length := length_combineToSingleKeyWith (keyInfos_nonempty positive) combined
  rw [Nat.mod_eq_of_lt short] at length
  rw [getString, if_pos length.ge, ← length, List.take_length]

section Delivery

variable {keys paras : List (Nat × Nat)} {actionId : Nat} {procId matcherId : Int}
  {memory : Memory} {scratch : Nat → UInt8} {thread : MatcherThread} {phv : Phv}

theorem extract_exactUpdate (keyPositive : ∀ key ∈ keys, 0 < key.1)
    (paraPositive : ∀ para ∈ paras, 0 < para.1) (keyShort : (keys.map Prod.fst).sum < 2 ^ 16)
    (paraShort : (paras.map Prod.fst).sum < 2 ^ 16) :
    extract (exactUpdate procId matcherId keys actionId paras) = (do
      let key ← combineToSingleKeyWith 1 (keys.map fun key => keyInfoOf key.1 key.2) (keys.map Prod.fst).sum
      let value ← combineToSingleKeyWith 1 (paras.map fun para => keyInfoOf para.1 para.2)
        (paras.map Prod.fst).sum
      return .insertSramEntry procId matcherId key value) := by
  simp only [extract, exactUpdate, extractExact, extractActionPara, packUpdate_eq keyPositive,
    packUpdate_eq paraPositive]
  cases keyPacked : combineToSingleKeyWith 1 (keys.map fun key => keyInfoOf key.1 key.2)
      (keys.map Prod.fst).sum with
  | none => rfl
  | some key =>
      cases paraPacked : combineToSingleKeyWith 1 (paras.map fun para => keyInfoOf para.1 para.2)
          (paras.map Prod.fst).sum with
      | none => rfl
      | some value =>
          simp only [Option.map_some, Option.bind_eq_bind, Option.bind_some,
            getString_packed keyPositive keyShort keyPacked,
            getString_packed paraPositive paraShort paraPacked]

private theorem key_fits {other : List UInt8} (keyPositive : ∀ key ∈ keys, 0 < key.1)
    (keyShort : (keys.map Prod.fst).sum < 2 ^ 16) {valueBits : Nat}
    (sized : thread.Sized (keys.map Prod.fst).sum valueBits)
    (combined : combineToSingleKeyWith 0 (keys.map fun key => keyInfoOf key.1 key.2)
      (keys.map Prod.fst).sum = some other) :
    other.length ≤ thread.keyWidth * (sramWidth / 8) := by
  have length := length_combineToSingleKeyWith (keyInfos_nonempty keyPositive) combined
  rw [Nat.mod_eq_of_lt keyShort] at length
  rw [length, sized.keyWidth]
  unfold bytesFor MatcherThread.slicesFor sramWidth
  omega

/-- What a recovered entry says about the table: both packers ran, the row of the packet's key
starts with that key, and the value row has the action id and the parameters. -/
theorem recovers_rows (keyPositive : ∀ key ∈ keys, 0 < key.1) (paraPositive : ∀ para ∈ paras, 0 < para.1)
    (keyShort : (keys.map Prod.fst).sum < 2 ^ 16) (paraShort : (paras.map Prod.fst).sum < 2 ^ 16)
    (sized : thread.Sized (keys.map Prod.fst).sum (16 + (paras.map Prod.fst).sum))
    (carries : List.Forall₂ (fun fd key => fd.fdLen = key.1 ∧ Carries phv fd key.2) thread.fdInfos keys)
    (recovered : Recovers actionId paras
      (deliver memory scratch thread (exactUpdate procId matcherId keys actionId paras) phv)) :
    ∃ key value other after,
      combineToSingleKeyWith 1 (keys.map fun key => keyInfoOf key.1 key.2) (keys.map Prod.fst).sum =
        some key ∧
      combineToSingleKeyWith 1 (paras.map fun para => keyInfoOf para.1 para.2) (paras.map Prod.fst).sum =
        some value ∧
      combineToSingleKeyWith 0 (keys.map fun key => keyInfoOf key.1 key.2) (keys.map Prod.fst).sum =
        some other ∧
      thread.insertSramEntry memory key value = some after ∧
      other = (MatcherThread.keyRow after thread other).take other.length ∧
      (∃ high low, (MatcherThread.valueRow after thread other)[0]? = some high ∧
        (MatcherThread.valueRow after thread other)[1]? = some low ∧
        actionId = low.toNat + high.toNat <<< 8) ∧
      Action.setActionParas ⟨[], paras.length, paras.map Prod.fst⟩
          (some (MatcherThread.valueRow after thread other)) =
        some (paras.map fun para => ⟨para.1, beBytes (bytesFor para.1) para.2⟩) := by
  obtain ⟨final, delivered, hit, actionEq, decoded⟩ := recovered
  rw [deliver, extract_exactUpdate keyPositive paraPositive keyShort paraShort] at delivered
  obtain ⟨request, extracted, delivered⟩ := Option.bind_eq_some_iff.mp delivered
  obtain ⟨key, keyPacked, extracted⟩ := Option.bind_eq_some_iff.mp extracted
  obtain ⟨value, paraPacked, extracted⟩ := Option.bind_eq_some_iff.mp extracted
  cases extracted
  obtain ⟨after, inserted, delivered⟩ := Option.bind_eq_some_iff.mp delivered
  obtain ⟨other, matched, delivered⟩ := Option.bind_eq_some_iff.mp delivered
  rw [matchKey_carries keyPositive carries] at matched
  obtain ⟨found, looked, delivered⟩ := Option.bind_eq_some_iff.mp delivered
  rw [sized.getMatchRes_eq scratch (key_fits keyPositive keyShort sized matched)] at looked
  by_cases same : other = (MatcherThread.keyRow after thread other).take other.length
  · rw [if_pos same] at looked
    cases looked
    obtain ⟨high, highRead, delivered⟩ := Option.bind_eq_some_iff.mp delivered
    obtain ⟨low, lowRead, delivered⟩ := Option.bind_eq_some_iff.mp delivered
    cases delivered
    refine ⟨key, value, other, after, keyPacked, paraPacked, matched, inserted, same,
      ⟨high, low, highRead, lowRead, ?_⟩, decoded⟩
    have idEq : ((low.toNat + high.toNat <<< 8 : Nat) : Int) = actionId := actionEq
    exact (Int.natCast_inj.mp idEq).symm
  · rw [if_neg same] at looked
    cases looked
    cases delivered
    cases hit

end Delivery

/-! A table and a packet that carry a key whose fields but the last are zero. -/

/-- One block after the other, key blocks first. -/
def plainThread (keyWidth valueWidth : Nat) (fdInfos : List FieldInfo) : MatcherThread where
  procId := 0
  noTable := false
  keyConfig := (List.range keyWidth).map u8 ++ List.replicate (sramNumPerCluster - keyWidth) 0
  valueConfig := (List.range' keyWidth valueWidth).map u8 ++
    List.replicate (sramNumPerCluster - valueWidth) 0
  keyWidth := keyWidth
  valueWidth := valueWidth
  depth := 1
  fdInfos := fdInfos

private theorem u8_range'_nodup {start count : Nat} (small : start + count ≤ 256) :
    ((List.range' start count).map u8).Nodup := by
  apply List.Nodup.map_on _ List.nodup_range'
  intro left leftMember right rightMember same
  rw [List.mem_range'_1] at leftMember rightMember
  have values := congrArg UInt8.toNat same
  rw [toNat_u8, toNat_u8, Nat.mod_eq_of_lt (by omega), Nat.mod_eq_of_lt (by omega)] at values
  exact values

theorem plainThread_sized {keyBits valueBits : Nat} (fdInfos : List FieldInfo)
    (fits : MatcherThread.slicesFor keyBits + MatcherThread.slicesFor valueBits ≤ sramNumPerCluster) :
    (plainThread (MatcherThread.slicesFor keyBits) (MatcherThread.slicesFor valueBits) fdInfos).Sized
      keyBits valueBits := by
  generalize keySlices : MatcherThread.slicesFor keyBits = keyWidth at fits
  generalize valueSlices : MatcherThread.slicesFor valueBits = valueWidth at fits
  have room : sramNumPerCluster = 20 := rfl
  have entries : (plainThread keyWidth valueWidth fdInfos).keyEntries ++
      (plainThread keyWidth valueWidth fdInfos).valueEntries =
        (List.range' 0 (keyWidth + valueWidth)).map u8 := by
    have keys : (plainThread keyWidth valueWidth fdInfos).keyEntries = (List.range keyWidth).map u8 := by
      simp [MatcherThread.keyEntries, plainThread]
    have values : (plainThread keyWidth valueWidth fdInfos).valueEntries =
        (List.range' keyWidth valueWidth).map u8 := by
      simp [MatcherThread.valueEntries, plainThread]
    have joined : List.range' 0 keyWidth ++ List.range' (0 + keyWidth) valueWidth =
        List.range' 0 (keyWidth + valueWidth) := List.range'_append_1
    rw [Nat.zero_add] at joined
    rw [keys, values, ← List.map_append, List.range_eq_range', joined]
  exact {
    table := rfl
    exact := rfl
    keyWidth := keySlices.symm
    valueWidth := valueSlices.symm
    depth := Nat.one_pos
    keyRoom := by simp [plainThread]
    valueRoom := by simp [plainThread]
    inCluster := by
      rw [entries]
      intro entry member
      obtain ⟨index, inside, rfl⟩ := List.mem_map.mp member
      rw [List.mem_range'_1] at inside
      rw [toNat_u8]
      omega
    distinct := entries ▸ u8_range'_nodup (by omega) }

/-- The last field stands at the start of the packet, the zero fields behind it. -/
def plainPhv (width value : Nat) : Phv :=
  { Phv.fresh with
    packet := (keyInfoOf width value).field ++
      List.replicate (frontHeaderLen + metaLen - bytesFor width) 0 }

def plainFields (widths : List Nat) (width : Nat) : List FieldInfo :=
  widths.map (fun other => ⟨0, 8 * bytesFor width, other, .field⟩) ++ [⟨0, 0, width, .field⟩]

def plainKeys (widths : List Nat) (width value : Nat) : List (Nat × Nat) :=
  widths.map (·, 0) ++ [(width, value)]

theorem length_plainPhv {width : Nat} (short : width ≤ 2560) (value : Nat) :
    (plainPhv width value).packet.length = frontHeaderLen + metaLen := by
  have room : frontHeaderLen + metaLen = 1600 := rfl
  have bytes : bytesFor width = (width + 7) / 8 := rfl
  simp only [plainPhv, List.length_append, length_keyInfoOf_field, List.length_replicate]
  omega

theorem plainPhv_carries {widths : List Nat} {width value : Nat} (short : widths.sum + width ≤ 2560)
    (small : value < 2 ^ width) :
    List.Forall₂ (fun fd key => fd.fdLen = key.1 ∧ Carries (plainPhv width value) fd key.2)
      (plainFields widths width) (plainKeys widths width value) := by
  have size := length_plainPhv (show width ≤ 2560 by omega) value
  have room : frontHeaderLen + metaLen = 1600 := rfl
  have bytes : bytesFor width = (width + 7) / 8 := rfl
  have header : (plainPhv width value).parsedHeaders[0]? = some ⟨0, 0, 0⟩ := rfl
  apply List.rel_append
  · rw [List.forall₂_map_left_iff, List.forall₂_map_right_iff, List.forall₂_same]
    intro other member
    have bound := List.le_sum_of_mem member
    refine ⟨rfl, ?_⟩
    rw [Carries, if_neg (by simp)]
    refine ⟨_, header, ?_, ?_⟩
    · rw [size]
      simp only
      omega
    · have zeros := bitSlice_append_right (keyInfoOf width value).field
        (List.replicate (frontHeaderLen + metaLen - bytesFor width) 0) 0 other
        (by rw [List.length_replicate]; omega)
      rw [length_keyInfoOf_field] at zeros
      simp only [Nat.zero_add, plainPhv]
      rw [← Nat.add_zero (8 * bytesFor width), zeros, bitSlice, beVal_replicate_zero]
      simp
  · refine .cons ⟨rfl, ?_⟩ .nil
    rw [Carries, if_neg (by simp)]
    refine ⟨_, header, ?_, ?_⟩
    · rw [size]
      simp only
      omega
    · have own := width_add_padding width
      have embedded := bitSlice_embedded [] (List.replicate (frontHeaderLen + metaLen - bytesFor width) 0)
        (bytesFor width) width value (by omega) small
      exact embedded

section Faithful

variable {widths paraWidths : List Nat} {width actionId : Nat}

private theorem slices_bound {bits others : Nat}
    (fits : MatcherThread.slicesFor bits + others ≤ sramNumPerCluster) : bits ≤ 2560 := by
  have room : sramNumPerCluster = 20 := rfl
  unfold MatcherThread.slicesFor sramWidth at fits
  omega

private theorem paras_bound {keyWidths : List Nat} (placeable : Placeable keyWidths paraWidths) :
    paraWidths.sum < 2 ^ 16 := by
  rw [Placeable, Nat.add_comm] at placeable
  have bound := slices_bound placeable
  omega

private theorem plainKeys_widths (widths : List Nat) (width value : Nat) :
    (plainKeys widths width value).map Prod.fst = widths ++ [width] := by
  simp [plainKeys, Function.comp_def]

private theorem plainKeys_infos (widths : List Nat) (width value : Nat) :
    ((plainKeys widths width value).map fun key => keyInfoOf key.1 key.2) =
      widths.map (keyInfoOf · 0) ++ [keyInfoOf width value] := by
  simp [plainKeys, Function.comp_def]

private theorem plainKeys_positive (positive : ∀ other ∈ widths ++ [width], 0 < other) (value : Nat) :
    ∀ key ∈ plainKeys widths width value, 0 < key.1 := by
  intro key member
  apply positive
  rw [← plainKeys_widths widths width value]
  exact List.mem_map_of_mem member

private theorem plainKeys_small {value : Nat} (small : value < 2 ^ width) :
    ∀ key ∈ plainKeys widths width value, key.2 < 2 ^ key.1 := by
  intro key member
  rcases List.mem_append.mp member with early | last
  · obtain ⟨other, _, rfl⟩ := List.mem_map.mp early
    exact Nat.two_pow_pos other
  · rw [List.mem_singleton.mp last]
    exact small

private theorem faithful_plain (placeable : Placeable (widths ++ [width]) paraWidths)
    (faithful : EntryFaithful (widths ++ [width]) actionId paraWidths) {value : Nat}
    (small : value < 2 ^ width) {paras : List (Nat × Nat)} (paraWidth : paras.map Prod.fst = paraWidths)
    (paraSmall : ∀ para ∈ paras, para.2 < 2 ^ para.1) :
    ∃ thread, thread.Sized (widths ++ [width]).sum (16 + paraWidths.sum) ∧
      MatcherThread.Empty Memory.fresh thread ∧
      List.Forall₂ (fun fd key => fd.fdLen = key.1 ∧ Carries (plainPhv width value) fd key.2)
        thread.fdInfos (plainKeys widths width value) ∧
      Recovers actionId paras (deliver Memory.fresh (fun _ => 0) thread
        (exactUpdate 0 0 (plainKeys widths width value) actionId paras) (plainPhv width value)) := by
  have short := slices_bound placeable
  rw [List.sum_append, List.sum_singleton] at short
  refine ⟨_, plainThread_sized (plainFields widths width) placeable, fun _ _ _ => rfl,
    plainPhv_carries short small, ?_⟩
  exact faithful _ paras 0 0 Memory.fresh _ _ _ (plainKeys_widths ..) (plainKeys_small small) paraWidth
    paraSmall (plainThread_sized (plainFields widths width) placeable) (fun _ _ _ => rfl)
    (length_plainPhv (by omega) value) (plainPhv_carries short small)

private theorem zero_paras_widths (paraWidths : List Nat) :
    ((paraWidths.map fun other => (other, 0)).map Prod.fst) = paraWidths := by
  simp [Function.comp_def]

/-- Two key fields already part the packers. -/
theorem faithful_one_key (positive : ∀ other ∈ widths ++ [width], 0 < other)
    (paraPositive : ∀ other ∈ paraWidths, 0 < other)
    (placeable : Placeable (widths ++ [width]) paraWidths)
    (faithful : EntryFaithful (widths ++ [width]) actionId paraWidths) : widths = [] := by
  by_contra several
  have paraShort := paras_bound placeable
  have keyShort := slices_bound placeable
  have small : 2 ^ (7 - padding width) < 2 ^ width := by
    have own := width_add_padding width
    have bytes := bytesFor_pos (positive width (by simp))
    have below := padding_lt width
    exact Nat.pow_lt_pow_right (by decide) (by omega)
  obtain ⟨thread, sized, empty, carries, recovered⟩ := faithful_plain placeable faithful small
    (zero_paras_widths paraWidths) (by simp)
  rw [← plainKeys_widths widths width (2 ^ (7 - padding width)), ← zero_paras_widths paraWidths] at sized
  obtain ⟨key, value, other, after, keyPacked, _, matched, inserted, same, _⟩ :=
    recovers_rows (plainKeys_positive positive _) (by simpa using paraPositive)
      (by rw [plainKeys_widths]; omega) (by rw [zero_paras_widths]; exact paraShort) sized carries recovered
  have fits := key_fits (plainKeys_positive positive _) (by rw [plainKeys_widths]; omega) sized matched
  rw [plainKeys_infos, plainKeys_widths, List.sum_append, List.sum_singleton] at keyPacked matched
  obtain ⟨disagreeing, packed, length, differ, nonzero⟩ := combineToSingleKeyWith_disagree several
    (by simpa [or_comm] using positive) (by simp at keyShort; omega) keyPacked
  obtain rfl : disagreeing = other := Option.some.inj (packed.symm.trans matched)
  by_cases slot : thread.SameSlot disagreeing key
  · have whole : key.take (thread.keyWidth * (sramWidth / 8)) = key :=
      List.take_of_length_le (length ▸ fits)
    rw [sized.keyRow_same empty inserted slot, whole, length, List.take_left] at same
    exact differ same
  · rw [(sized.rows_other empty inserted slot).1, List.take_replicate] at same
    exact nonzero (same ▸ beVal_replicate_zero _)

private theorem para_last (width : Nat) (positive : 0 < width) :
    (beBytes (bytesFor width) 1).getLast? = some 1 := by
  obtain ⟨count, size⟩ : ∃ count, bytesFor width = count + 1 :=
    ⟨bytesFor width - 1, by have := bytesFor_pos positive; omega⟩
  have split : beBytes (count + 1) 1 = beBytes count 0 ++ [1] := beBytes_append count 0 1
  rw [size, split, List.getLast?_concat]

/-- The value is sent without the action id, so the last parameter bit is never sent. -/
theorem faithful_no_paras (positive : 0 < width) (paraPositive : ∀ other ∈ paraWidths, 0 < other)
    (placeable : Placeable [width] paraWidths)
    (faithful : EntryFaithful [width] actionId paraWidths) : paraWidths = [] := by
  rcases List.eq_nil_or_concat paraWidths with none | ⟨front, last, rfl⟩
  · exact none
  exfalso
  rw [List.concat_eq_append] at paraPositive placeable faithful
  have paraShort := paras_bound placeable
  have keyShort := slices_bound placeable
  have lastPositive : 0 < last := paraPositive last (by simp)
  obtain ⟨thread, sized, empty, carries, recovered⟩ := @faithful_plain [] _ _ _ placeable faithful _
    (Nat.two_pow_pos width) _ (plainKeys_widths front last 1)
    (plainKeys_small (Nat.one_lt_two_pow lastPositive.ne'))
  rw [← plainKeys_widths [] width 0, ← plainKeys_widths front last 1] at sized
  obtain ⟨key, value, other, after, _, paraPacked, _, inserted, _, _, decoded⟩ :=
    recovers_rows (plainKeys_positive (by simpa using positive) _) (plainKeys_positive paraPositive _)
      (by rw [plainKeys_widths]; simp at keyShort ⊢; omega)
      (by rw [plainKeys_widths]; exact paraShort) sized carries recovered
  have valueLength := length_combineToSingleKeyWith (keyInfos_nonempty (plainKeys_positive paraPositive 1))
    paraPacked
  rw [plainKeys_widths, Nat.mod_eq_of_lt paraShort, List.sum_append, List.sum_singleton] at valueLength
  have size : (plainKeys front last 1).length = front.length + 1 := by simp [plainKeys]
  simp only [Action.setActionParas, plainKeys_widths, size] at decoded
  rw [if_neg (Nat.succ_ne_zero _), if_pos (by simp), List.take_of_length_le (by simp)] at decoded
  obtain ⟨early, para, listed, here⟩ := Action.setActionParasFrom_append decoded
  have paraEq : para = ⟨last, beBytes (bytesFor last) 1⟩ := by
    have ends := congrArg List.getLast? listed
    rw [List.getLast?_concat, plainKeys, List.map_append, List.map_singleton,
      List.getLast?_concat] at ends
    exact (Option.some.inj ends).symm
  subst paraEq
  have even := Action.setActionPara_even lastPositive here (fun byte read =>
    sized.valueRow_beyond empty inserted (by rw [valueLength, bytesFor]; omega) read)
    (para_last last lastPositive)
  exact absurd even (by decide)

/-- Without parameters the sent value is empty, and an empty row reads as action zero. -/
theorem faithful_action_zero (positive : 0 < width) (placeable : Placeable [width] [])
    (faithful : EntryFaithful [width] actionId []) : actionId = 0 := by
  have keyShort := slices_bound placeable
  obtain ⟨thread, sized, empty, carries, recovered⟩ := @faithful_plain [] _ _ _ placeable faithful _
    (Nat.two_pow_pos width) [] rfl (by simp)
  rw [← plainKeys_widths [] width 0] at sized
  obtain ⟨key, value, other, after, _, paraPacked, _, inserted, _, ⟨high, low, highRead, lowRead, idEq⟩, _⟩ :=
    recovers_rows (plainKeys_positive (by simpa using positive) _) (by simp)
      (by rw [plainKeys_widths]; simp at keyShort ⊢; omega) (by simp) sized carries recovered
  obtain rfl : value = [] := (Option.some.inj paraPacked).symm
  have highZero := sized.valueRow_beyond empty inserted (Nat.zero_le _) highRead
  have lowZero := sized.valueRow_beyond empty inserted (Nat.zero_le _) lowRead
  rw [idEq, highZero, lowZero]
  rfl

/-- One key field, no parameters and action zero: the packers agree and the row is zero. -/
theorem faithful_single (positive : 0 < width) (placeable : Placeable [width] []) :
    EntryFaithful [width] 0 [] := by
  intro keys paras procId matcherId memory scratch thread phv keyWidth _ paraWidth _ sized empty _ carries
  obtain rfl : paras = [] := List.map_eq_nil_iff.mp paraWidth
  obtain ⟨⟨width, value⟩, rfl, rfl⟩ := List.map_eq_singleton_iff.mp keyWidth
  have keyShort := slices_bound placeable
  have short : width < 2 ^ 16 := by
    rw [List.sum_singleton] at keyShort
    omega
  have keyPositive : ∀ key ∈ [(width, value)], 0 < key.1 := by simpa using positive
  have matched := matchKey_carries keyPositive carries
  have packed := combineToSingleKeyWith_one (show 1 ≤ 1 by decide) width value positive short
  have own := combineToSingleKeyWith_one (show 0 ≤ 1 by decide) width value positive short
  have extracted : extract (exactUpdate procId matcherId [(width, value)] 0 []) =
      some (.insertSramEntry procId matcherId (keyInfoOf width value).field []) := by
    rw [extract_exactUpdate keyPositive (by simp) (by simpa using short) (by simp)]
    simp only [List.map_cons, List.map_nil, List.sum_singleton, packed, Option.bind_eq_bind,
      Option.bind_some]
    rfl
  rw [show [(width, value)].map (fun key => keyInfoOf key.1 key.2) = [keyInfoOf width value] from rfl,
    show ([(width, value)].map Prod.fst).sum = width from rfl, own] at matched
  have widthEq : thread.keyWidth = (width + 127) / 128 := sized.keyWidth
  have valueWidthEq : thread.valueWidth = 1 := sized.valueWidth
  have bytes : (keyInfoOf width value).field.length = (width + 7) / 8 := length_keyInfoOf_field ..
  have unit : sramWidth / 8 = 16 := rfl
  have fits : (keyInfoOf width value).field.length ≤ thread.keyWidth * (sramWidth / 8) := by
    rw [unit]
    omega
  obtain ⟨after, inserted⟩ : ∃ after, thread.insertSramEntry memory (keyInfoOf width value).field [] =
      some after := by
    obtain ⟨middle, keyWritten⟩ := writeSlices_isSome (sramWidth / 8)
      (MatcherThread.sramRow (keyInfoOf width value).field) 0 (keyInfoOf width value).field
      (thread.keyBlocks (MatcherThread.keySum (keyInfoOf width value).field % thread.depth)) memory.srams
      (by rw [MatcherThread.length_keyBlocks, unit]; omega)
    obtain ⟨final, valueWritten⟩ := writeSlices_isSome (sramWidth / 8)
      (MatcherThread.sramRow (keyInfoOf width value).field) 0 []
      (thread.valueBlocks (MatcherThread.keySum (keyInfoOf width value).field % thread.depth)) middle
      (by rw [MatcherThread.length_valueBlocks, valueWidthEq]; simp)
    refine ⟨{ memory with srams := final }, ?_⟩
    rw [sized.insertSramEntry_eq, keyWritten]
    simp only [Option.bind_eq_bind, Option.bind_some, valueWritten]
    rfl
  have stored := sized.keyRow_same empty inserted ⟨rfl, rfl⟩
  have values :=
    sized.valueRow_same empty inserted (show thread.SameSlot (keyInfoOf width value).field _ from ⟨rfl, rfl⟩)
  rw [List.take_of_length_le fits] at stored
  rw [valueWidthEq] at values
  have looked := @MatcherThread.Sized.getMatchRes_eq _ _ _ after _ sized scratch fits
  rw [stored, List.take_left, if_pos rfl, values] at looked
  refine ⟨{ phv with
    hit := true, matchValue := some (List.replicate 16 0), matchValueLen := 16, nextActionId := 0 },
    ?_, rfl, rfl, rfl⟩
  simp only [deliver, extracted, inserted, MatcherThread.generateMatchKeyAndMatch, matched, looked,
    Option.bind_eq_bind, Option.bind_some]
  rfl

/-- An entry of a schema reaches its packets exactly when the schema has one key field and the
action has id zero and no parameters: with more fields the two packers disagree, and the value
that carries the action id and the parameters is not the one that is sent. -/
theorem entryFaithful_iff (keyWidths : List Nat) (actionId : Nat) (paraWidths : List Nat)
    (nonempty : keyWidths ≠ []) (keyPositive : ∀ width ∈ keyWidths, 0 < width)
    (paraPositive : ∀ width ∈ paraWidths, 0 < width) (placeable : Placeable keyWidths paraWidths) :
    EntryFaithful keyWidths actionId paraWidths ↔
      keyWidths.length = 1 ∧ paraWidths = [] ∧ actionId = 0 := by
  constructor
  · intro faithful
    obtain ⟨widths, width, rfl⟩ := (List.eq_nil_or_concat' keyWidths).resolve_left nonempty
    obtain rfl := faithful_one_key keyPositive paraPositive placeable faithful
    have positive : 0 < width := keyPositive width (by simp)
    obtain rfl := faithful_no_paras positive paraPositive placeable faithful
    exact ⟨rfl, rfl, faithful_action_zero positive placeable faithful⟩
  · rintro ⟨one, rfl, rfl⟩
    obtain ⟨width, rfl⟩ := List.length_eq_one_iff.mp one
    exact faithful_single (keyPositive width (by simp)) placeable

theorem entryFaithful_iff_byte_key :
    Placeable [8] [] ∧ (EntryFaithful [8] 0 [] ↔ [8].length = 1 ∧ ([] : List Nat) = [] ∧ 0 = 0) :=
  ⟨by unfold Placeable; decide,
    entryFaithful_iff [8] 0 [] (by simp) (by simp) (by simp) (by unfold Placeable; decide)⟩

/-- The entry "key 5, action 1" of a table with one byte of key: the packet with that byte hits
and runs action 0. -/
theorem entry_action_id_lost :
    (plainThread 1 1 (plainFields [] 8)).Sized [8].sum (16 + [].sum) ∧
      MatcherThread.Empty Memory.fresh (plainThread 1 1 (plainFields [] 8)) ∧
      List.Forall₂ (fun fd key => fd.fdLen = key.1 ∧ Carries (plainPhv 8 5) fd key.2)
        (plainFields [] 8) [(8, 5)] ∧
      ((deliver Memory.fresh (fun _ => 0) (plainThread 1 1 (plainFields [] 8))
        (exactUpdate 0 0 [(8, 5)] 1 []) (plainPhv 8 5)).map fun phv => (phv.hit, phv.nextActionId)) =
          some (true, 0) ∧
      ¬ Recovers 1 [] (deliver Memory.fresh (fun _ => 0) (plainThread 1 1 (plainFields [] 8))
        (exactUpdate 0 0 [(8, 5)] 1 []) (plainPhv 8 5)) := by
  have outcome : ((deliver Memory.fresh (fun _ => 0) (plainThread 1 1 (plainFields [] 8))
      (exactUpdate 0 0 [(8, 5)] 1 []) (plainPhv 8 5)).map fun phv => (phv.hit, phv.nextActionId)) =
        some (true, 0) := by
    decide
  have sized := @plainThread_sized 8 16 (plainFields [] 8) (by decide)
  refine ⟨sized, fun _ _ _ => rfl,
    plainPhv_carries (show [].sum + 8 ≤ 2560 by decide) (by decide), outcome, ?_⟩
  rintro ⟨phv, delivered, _, actionEq, _⟩
  rw [delivered] at outcome
  have idEq := congrArg Prod.snd (Option.some.inj outcome)
  exact absurd (actionEq.symm.trans idEq) (by decide)

end Faithful

end Ipbm.System
