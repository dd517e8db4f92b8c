import Mathlib.Data.List.Basic

/-! Banked byte memories. A record wider than one bank is sliced over several
banks at the same row; the write walks the banks with a running offset into the
record, as a loop of block copies does, and faults once the offset has left it. -/

set_option autoImplicit false

namespace Ipbm.Lib

/-- Banks of bytes, by bank and byte address. -/
abbrev Banks : Type := Nat → Nat → UInt8

def writeBytes (banks : Banks) (bank address : Nat) (bytes : List UInt8) : Banks :=
  fun otherBank other =>
    if otherBank = bank ∧ address ≤ other ∧ other < address + bytes.length then
      bytes.getD (other - address) 0
    else
      banks otherBank other

def readBytes (banks : Banks) (bank address count : Nat) : List UInt8 :=
  (List.range count).map fun index => banks bank (address + index)

def clearBank (banks : Banks) (bank count : Nat) : Banks :=
  fun otherBank other => if otherBank = bank ∧ other < count then 0 else banks otherBank other

/-- The slices of `data` from slice `index` on, each copied to its bank at row `row`. -/
def writeSlices (unit row : Nat) (data : List UInt8) : Nat → List Nat → Banks → Option Banks
  | _, [], banks => some banks
  | index, bank :: rest, banks =>
      if index * unit ≤ data.length then
        writeSlices unit row data (index + 1) rest
          (writeBytes banks bank (row * unit) ((data.drop (index * unit)).take unit))
      else
        none

def readSlices (unit row : Nat) (selected : List Nat) (banks : Banks) : List UInt8 :=
  selected.flatMap fun bank => readBytes banks bank (row * unit) unit

@[simp] theorem length_readBytes (banks : Banks) (bank address count : Nat) :
    (readBytes banks bank address count).length = count := by
  simp [readBytes]

@[simp] theorem length_readSlices (unit row : Nat) (selected : List Nat) (banks : Banks) :
    (readSlices unit row selected banks).length = selected.length * unit := by
  simp [readSlices, List.length_flatMap]

theorem readBytes_congr {left right : Banks} {bank address count : Nat}
    (same : ∀ index, index < count → left bank (address + index) = right bank (address + index)) :
    readBytes left bank address count = readBytes right bank address count := by
  apply List.map_congr_left
  intro index member
  exact same index (List.mem_range.mp member)

theorem readSlices_congr {left right : Banks} {unit row : Nat} {selected : List Nat}
    (same : ∀ bank ∈ selected, ∀ index, index < unit →
      left bank (row * unit + index) = right bank (row * unit + index)) :
    readSlices unit row selected left = readSlices unit row selected right := by
  apply List.flatMap_congr
  intro bank member
  exact readBytes_congr (same bank member)

theorem readSlices_zero {unit row : Nat} {selected : List Nat} {banks : Banks}
    (zero : ∀ bank ∈ selected, ∀ index, index < unit → banks bank (row * unit + index) = 0) :
    readSlices unit row selected banks = List.replicate (selected.length * unit) 0 := by
  rw [List.eq_replicate_iff]
  refine ⟨length_readSlices .., ?_⟩
  intro byte member
  obtain ⟨bank, selectedBank, member⟩ := List.mem_flatMap.mp member
  obtain ⟨index, inside, rfl⟩ := List.mem_map.mp member
  exact zero bank selectedBank index (List.mem_range.mp inside)

theorem writeBytes_frame {banks : Banks} {bank address : Nat} {bytes : List UInt8}
    {otherBank other : Nat}
    (outside : otherBank ≠ bank ∨ other < address ∨ address + bytes.length ≤ other) :
    writeBytes banks bank address bytes otherBank other = banks otherBank other := by
  unfold writeBytes
  rw [if_neg]
  omega

theorem readBytes_writeBytes (banks : Banks) (bank address count : Nat) (bytes : List UInt8)
    (fits : bytes.length ≤ count) :
    readBytes (writeBytes banks bank address bytes) bank address count =
      bytes ++ (readBytes banks bank address count).drop bytes.length := by
  apply List.ext_getElem
  · simp
    omega
  · intro index inside _
    have bound : index < count := by simpa using inside
    by_cases written : index < bytes.length
    · simp [readBytes, writeBytes, written]
    · have beyond : bytes.length ≤ index := by omega
      simp [readBytes, writeBytes, written, List.getElem_append_right beyond, Nat.add_sub_cancel' beyond]

theorem writeSlices_frame {unit row index : Nat} {data : List UInt8} {selected : List Nat}
    {banks after : Banks} {bank address : Nat}
    (written : writeSlices unit row data index selected banks = some after)
    (outside : bank ∉ selected ∨ address < row * unit ∨ row * unit + unit ≤ address) :
    after bank address = banks bank address := by
  induction selected generalizing index banks with
  | nil =>
      cases written
      rfl
  | cons first rest ih =>
      unfold writeSlices at written
      split at written
      · have slice : ((data.drop (index * unit)).take unit).length ≤ unit := List.length_take_le ..
        rw [ih written (outside.imp_left fun absent member => absent (List.mem_cons_of_mem _ member))]
        apply writeBytes_frame
        rcases outside with absent | below | above
        · exact .inl fun same => absent (same ▸ List.mem_cons_self)
        · exact .inr (.inl below)
        · exact .inr (.inr (by omega))
      · cases written

/-- A record that reaches into the last selected bank, or ends right before it, is written. -/
theorem writeSlices_isSome (unit row index : Nat) (data : List UInt8) (selected : List Nat)
    (banks : Banks) (reaches : (index + selected.length - 1) * unit ≤ data.length) :
    ∃ after, writeSlices unit row data index selected banks = some after := by
  induction selected generalizing index banks with
  | nil => exact ⟨banks, rfl⟩
  | cons first rest ih =>
      simp only [List.length_cons] at reaches
      have here : index * unit ≤ data.length :=
        Nat.le_trans (Nat.mul_le_mul_right unit (by omega)) reaches
      obtain ⟨after, written⟩ := ih (index + 1)
        (writeBytes banks first (row * unit) ((data.drop (index * unit)).take unit))
        (by rwa [show index + 1 + rest.length - 1 = index + (rest.length + 1) - 1 by omega])
      exact ⟨after, by rw [writeSlices, if_pos here, written]⟩

/-- What a sliced write leaves in its row: the record, then what the row held behind it. -/
theorem readSlices_writeSlices {unit row index : Nat} {data : List UInt8} {selected : List Nat}
    {banks after : Banks} (distinct : selected.Nodup)
    (written : writeSlices unit row data index selected banks = some after) :
    readSlices unit row selected after =
      (data.drop (index * unit)).take (selected.length * unit) ++
        (readSlices unit row selected banks).drop (data.length - index * unit) := by
  induction selected generalizing index banks with
  | nil => simp [readSlices]
  | cons first rest ih =>
      obtain ⟨fresh, distinct⟩ := List.nodup_cons.mp distinct
      unfold writeSlices at written
      split at written
      case isFalse => cases written
      case isTrue here =>
        let slice := (data.drop (index * unit)).take unit
        have sliceLength : slice.length = min unit (data.length - index * unit) := by simp [slice]
        have head : readBytes after first (row * unit) unit =
            slice ++ (readBytes banks first (row * unit) unit).drop slice.length := by
          rw [← readBytes_writeBytes _ _ _ _ _ (by omega)]
          apply readBytes_congr
          intro offset inside
          exact writeSlices_frame written (.inl fresh)
        have untouched : readSlices unit row rest (writeBytes banks first (row * unit) slice) =
            readSlices unit row rest banks := by
          apply readSlices_congr
          intro bank member offset inside
          exact writeBytes_frame (.inl fun same => fresh (same ▸ member))
        have tail := ih distinct written
        rw [untouched] at tail
        have advance : (index + 1) * unit = index * unit + unit := Nat.succ_mul ..
        change readBytes after first (row * unit) unit ++ readSlices unit row rest after = _
        change _ = _ ++ (readBytes banks first (row * unit) unit ++ readSlices unit row rest banks).drop _
        rw [head, tail, List.drop_append, length_readBytes, advance, List.append_assoc]
        rcases Nat.le_total unit (data.length - index * unit) with full | last
        · -- this slice fills its bank
          have gone : (readBytes banks first (row * unit) unit).drop slice.length = [] := by
            apply List.drop_eq_nil_of_le
            simp [sliceLength, full]
          have goneAll : (readBytes banks first (row * unit) unit).drop (data.length - index * unit) = [] :=
            List.drop_eq_nil_of_le (by simpa using full)
          have joined : (data.drop (index * unit)).take ((first :: rest).length * unit) =
              slice ++ (data.drop (index * unit + unit)).take (rest.length * unit) := by
            rw [List.length_cons, Nat.succ_mul, Nat.add_comm (rest.length * unit), List.take_add,
              List.drop_drop]
          rw [gone, goneAll, joined, Nat.sub_add_eq]
          simp
        · -- the record ends in this bank
          have whole : slice = data.drop (index * unit) :=
            List.take_of_length_le (by simpa using last)
          have wholeAll : (data.drop (index * unit)).take ((first :: rest).length * unit) =
              data.drop (index * unit) := by
            apply List.take_of_length_le
            rw [List.length_drop, List.length_cons, Nat.succ_mul]
            omega
          have none : data.drop (index * unit + unit) = [] := List.drop_eq_nil_of_le (by omega)
          rw [wholeAll, none, whole, List.length_drop, Nat.sub_eq_zero_of_le last,
            Nat.sub_add_eq, Nat.sub_eq_zero_of_le last]
          simp

/-- A record written over the row it belongs to. -/
def layOver (room : Nat) (row record : List UInt8) : List UInt8 :=
  record.take room ++ row.drop record.length

theorem readSlices_writeSlices_start {unit row : Nat} {data : List UInt8} {selected : List Nat}
    {banks after : Banks} (distinct : selected.Nodup)
    (written : writeSlices unit row data 0 selected banks = some after) :
    readSlices unit row selected after =
      layOver (selected.length * unit) (readSlices unit row selected banks) data := by
  have kept := readSlices_writeSlices distinct written
  rwa [Nat.zero_mul, List.drop_zero, Nat.sub_zero] at kept

/-- Whether a sliced write succeeds does not depend on what is stored. -/
theorem writeSlices_isSome_congr (unit row index : Nat) (data : List UInt8) (selected : List Nat)
    (left right : Banks) :
    (writeSlices unit row data index selected left).isSome =
      (writeSlices unit row data index selected right).isSome := by
  induction selected generalizing index left right with
  | nil => rfl
  | cons first rest ih =>
      unfold writeSlices
      split
      · exact ih ..
      · rfl

/-- A sliced write keeps two memories alike wherever they are. -/
theorem writeSlices_alike {unit row index : Nat} {data : List UInt8} {selected : List Nat}
    {left after : Banks} (written : writeSlices unit row data index selected left = some after)
    (right : Banks) :
    ∃ other, writeSlices unit row data index selected right = some other ∧
      ∀ bank address, left bank address = right bank address → after bank address = other bank address := by
  induction selected generalizing index left right with
  | nil =>
      cases written
      exact ⟨right, rfl, fun bank address same => same⟩
  | cons first rest ih =>
      unfold writeSlices at written
      split at written
      case isFalse => cases written
      case isTrue here =>
        obtain ⟨other, done, alike⟩ := ih written
          (writeBytes right first (row * unit) ((data.drop (index * unit)).take unit))
        refine ⟨other, by rw [writeSlices, if_pos here, done], fun bank address same => alike bank address ?_⟩
        unfold writeBytes
        split
        · rfl
        · exact same

/-- Different rows share no byte. -/
theorem row_outside {row otherRow unit index : Nat} (different : otherRow ≠ row)
    (inside : index < unit) :
    otherRow * unit + index < row * unit ∨ row * unit + unit ≤ otherRow * unit + index := by
  rcases Nat.lt_or_gt_of_ne different with below | above
  · have bound := Nat.mul_le_mul_right unit below
    rw [Nat.succ_mul] at bound
    omega
  · have bound := Nat.mul_le_mul_right unit above
    rw [Nat.succ_mul] at bound
    omega

/-! Striped banks: every slice has its own selection of banks. -/

structure Striped (selections : Nat → List Nat) (count : Nat) : Prop where
  nodup : ∀ slice < count, (selections slice).Nodup
  disjoint : ∀ slice < count, ∀ other < count, ∀ bank ∈ selections slice, bank ∈ selections other →
    slice = other

/-- A sliced write changes one row of one slice. -/
theorem Striped.readSlices_written {selections : Nat → List Nat} {count unit row slice : Nat}
    {data : List UInt8} {banks after : Banks} (striped : Striped selections count) (inside : slice < count)
    (written : writeSlices unit row data 0 (selections slice) banks = some after) {other otherRow : Nat}
    (otherInside : other < count) :
    readSlices unit otherRow (selections other) after =
      if other = slice ∧ otherRow = row then
        layOver ((selections slice).length * unit) (readSlices unit row (selections slice) banks) data
      else
        readSlices unit otherRow (selections other) banks := by
  split
  case isTrue same =>
    rw [same.1, same.2]
    exact readSlices_writeSlices_start (striped.nodup slice inside) written
  case isFalse different =>
    apply readSlices_congr
    intro bank member index below
    apply writeSlices_frame written
    by_cases shared : bank ∈ selections slice
    · have same := striped.disjoint other otherInside slice inside bank member shared
      exact .inr (row_outside (fun row => different ⟨same, row⟩) below)
    · exact .inl shared

end Ipbm.Lib
