import Ipbm.Dataplane.Gateway
import Ipbm.Lib.Traversal
import Mathlib.Data.List.Induction
import Mathlib.Tactic.Ring
import Mathlib.Tactic.IntervalCases

/-! What a gateway reads from a packet, and the bitmap of a gateway whose
expression vector is exactly full. -/

set_option autoImplicit false

namespace Ipbm.Dataplane
open Lib

namespace Gateway

/-- The bytes behind the first, while they and the first byte stay within 32 bits. -/
theorem lowBytes_eq {temp : Nat} {bytes : List UInt8} (nonempty : bytes ≠ [])
    (positive : 0 < temp) (small : temp ≤ 8) (fits : 8 * bytes.length ≤ 32 + (8 - temp)) :
    lowBytes temp bytes =
      some (beVal bytes / 2 ^ (8 - temp), 8 * bytes.length - (8 - temp)) := by
  induction bytes with
  | nil => exact absurd rfl nonempty
  | cons byte rest ih =>
      cases rest with
      | nil =>
          simp only [lowBytes, beVal_cons, Nat.shiftRight_eq_div_pow, List.length_cons, List.length_nil,
            Nat.pow_zero, Nat.mul_one, beVal_nil, Nat.add_zero]
          congr 2
          omega
      | cons next rest =>
          simp only [List.length_cons] at fits
          have low := ih (by simp) (by simp only [List.length_cons]; omega)
          simp only [List.length_cons] at low
          have offset : 8 * (rest.length + 1) - (8 - temp) < 32 := by omega
          have whole : 256 ^ (rest.length + 1) =
              2 ^ (8 - temp) * 2 ^ (8 * (rest.length + 1) - (8 - temp)) := by
            rw [pow_256, ← Nat.pow_add]
            congr 1
            omega
          have split : beVal (byte :: next :: rest) / 2 ^ (8 - temp) =
              byte.toNat * 2 ^ (8 * (rest.length + 1) - (8 - temp)) + beVal (next :: rest) / 2 ^
                  (8 - temp) := by
            rw [beVal_cons, List.length_cons, whole, Nat.mul_left_comm,
              Nat.mul_add_div (Nat.two_pow_pos _)]
          have bound : beVal (byte :: next :: rest) / 2 ^ (8 - temp) < 2 ^ 32 := by
            rw [Nat.div_lt_iff_lt_mul (Nat.two_pow_pos _), ← Nat.pow_add]
            refine Nat.lt_of_lt_of_le (beVal_lt _) ?_
            rw [pow_256]
            exact Nat.pow_le_pow_right (by decide) (by simp only [List.length_cons]; omega)
          rw [lowBytes, low]
          · simp only [Option.bind_eq_bind, Option.bind_some, shl32, if_pos offset]
            rw [Nat.add_mod_mod, Nat.shiftLeft_eq, Nat.add_comm, ← split, Nat.mod_eq_of_lt bound,
              List.length_cons, List.length_cons]
            congr 2
            omega
          · simp

private theorem withoutHigh_eq (byte : UInt8) {shift : Nat} (small : shift ≤ 8) :
    withoutHigh byte shift = byte.toNat % 2 ^ (8 - shift) := by
  have whole : (256 : Nat) = 2 ^ shift * 2 ^ (8 - shift) := by
    rw [← Nat.pow_add, Nat.add_sub_cancel' small]
  rw [withoutHigh, toNat_u8, Nat.shiftLeft_eq, Nat.shiftRight_eq_div_pow, whole,
    Nat.mod_mul_right_div_self, Nat.mul_div_cancel _ (Nat.two_pow_pos _)]

/-- A field of at most 32 bits in the bytes it touches. -/
theorem fieldValue_eq {bytes : List UInt8} {beginOffset temp width : Nat} (nonempty : bytes ≠ [])
    (first : beginOffset < 8) (positive : 0 < temp) (last : temp ≤ 8)
    (span : beginOffset + width + (8 - temp) = 8 * bytes.length) (short : width ≤ 32) :
    fieldValue beginOffset temp bytes = some (bitSlice bytes beginOffset width) := by
  have tail : 8 * bytes.length - (beginOffset + width) = 8 - temp := by omega
  cases bytes with
  | nil => exact absurd rfl nonempty
  | cons byte rest =>
      cases rest with
      | nil =>
          simp only [List.length_cons, List.length_nil] at span tail
          have bits : (2 : Nat) ^ (8 - beginOffset) = 2 ^ (8 - temp) * 2 ^ width := by
            rw [← Nat.pow_add]
            congr 1
            omega
          simp only [fieldValue, bitSlice, List.length_cons, List.length_nil, tail, beVal_cons, Nat.pow_zero,
            Nat.mul_one, beVal_nil, Nat.add_zero]
          rw [withoutHigh_eq byte first.le, Nat.shiftRight_eq_div_pow, bits, Nat.mod_mul_right_div_self]
      | cons next rest =>
          simp only [List.length_cons] at span tail
          have low := lowBytes_eq (show next :: rest ≠ [] by simp) positive last
            (by simp only [List.length_cons]; omega)
          simp only [List.length_cons] at low
          generalize offsetEq : 8 * (rest.length + 1) - (8 - temp) = offset at low
          have offsetBound : offset < 32 := by omega
          have whole : 256 ^ (rest.length + 1) = 2 ^ (8 - temp) * 2 ^ offset := by
            rw [pow_256, ← Nat.pow_add]
            congr 1
            omega
          have lowBound : beVal (next :: rest) / 2 ^ (8 - temp) < 2 ^ offset := by
            rw [Nat.div_lt_iff_lt_mul (Nat.two_pow_pos _), Nat.mul_comm, ← whole]
            exact beVal_lt _
          have value : bitSlice (byte :: next :: rest) beginOffset width =
              byte.toNat % 2 ^ (8 - beginOffset) * 2 ^ offset + beVal (next :: rest) / 2 ^ (8 - temp) := by
            have bits : (2 : Nat) ^ width = 2 ^ offset * 2 ^ (8 - beginOffset) := by
              rw [← Nat.pow_add]
              congr 1
              omega
            rw [bitSlice, List.length_cons, List.length_cons, tail, beVal_cons, List.length_cons, whole,
              Nat.mul_left_comm, Nat.mul_add_div (Nat.two_pow_pos _), bits, Nat.mod_mul,
              Nat.mul_add_mod_self_right, Nat.mod_eq_of_lt lowBound, Nat.mul_comm byte.toNat,
              Nat.mul_add_div (Nat.two_pow_pos _), Nat.div_eq_of_lt lowBound, Nat.add_zero,
              Nat.add_comm, Nat.mul_comm (2 ^ offset)]
          have bound : bitSlice (byte :: next :: rest) beginOffset width < 2 ^ 32 :=
            Nat.lt_of_lt_of_le (bitSlice_lt _ _ _) (Nat.pow_le_pow_right (by decide) short)
          rw [fieldValue, low]
          · simp only [Option.bind_eq_bind, Option.bind_some, shl32, if_pos offsetBound]
            rw [withoutHigh_eq byte first.le, Nat.add_mod_mod, Nat.shiftLeft_eq, Nat.add_comm, ← value,
              Nat.mod_eq_of_lt bound]
            rfl
          · simp

/-- A field of 1 to 32 bits that lies in the packet is read as the number its bits denote. -/
theorem getValue_field {field : FieldInfo} {phv : Phv} {hi : HeaderInfo} (kind : field.fdType = .field)
    (header : phv.parsedHeaders[field.hdrId]? = some hi) (positive : 0 < field.fdLen)
    (short : field.fdLen ≤ 32)
    (inside : hi.hdrOffset + field.internalOffset + field.fdLen ≤ 8 * phv.packet.length) :
    getValue (.field field) phv =
      some (bitSlice phv.packet (hi.hdrOffset + field.internalOffset) field.fdLen) := by
  simp only [getValue, kind, header, Option.bind_eq_bind, Option.bind_some]
  generalize hi.hdrOffset + field.internalOffset = start at inside
  generalize countEq : (start + field.fdLen + 7) / 8 - start / 8 = count
  have room : start / 8 + count ≤ phv.packet.length := by omega
  have length : ((phv.packet.drop (start / 8)).take count).length = count := by
    rw [List.length_take, List.length_drop]
    omega
  have moved := bitSlice_window phv.packet start field.fdLen count (by omega) room
  rw [copyOut, if_pos room, Option.bind_some, moved]
  apply fieldValue_eq
  · exact List.length_pos_iff.mp (by omega)
  · exact Nat.mod_lt _ (by decide)
  · split <;> omega
  · split <;> omega
  · rw [length]
    split <;> omega
  · exact short

theorem getValue_constant {value : Nat} (small : value < 2 ^ 32) (phv : Phv) :
    getValue (.constant ⟨32, getUints value 32⟩) phv = some value := by
  have bytes : getUints value 32 = beBytes 4 value := by
    simp [getUints, bytesFor, List.range_succ, beBytes, Nat.shiftRight_eq_div_pow]
  have encoded := beVal_beBytes 4 value
  rw [Nat.mod_eq_of_lt (Nat.lt_of_lt_of_eq small (by norm_num))] at encoded
  rw [getValue, bytes, if_pos ⟨by simp [bytesFor], by simp [bytesFor]⟩,
    List.take_of_length_le (by simp [bytesFor]), encoded]

/-- Condition results as the number a switch key writes, the first condition leading. -/
def bitString (results : List Bool) : Nat :=
  results.foldl (fun bits holds => 2 * bits + holds.toNat) 0

/-- The results as they stand in the byte of the data plane. -/
def padded (results : List Bool) : Nat := bitString results * 2 ^ (8 - results.length)

theorem bitString_concat (results : List Bool) (holds : Bool) :
    bitString (results ++ [holds]) = 2 * bitString results + holds.toNat := by
  simp [bitString]

theorem bitString_lt (results : List Bool) : bitString results < 2 ^ results.length := by
  induction results using List.reverseRecOn with
  | nil => simp [bitString]
  | append_singleton results holds ih =>
      rw [bitString_concat, List.length_append, List.length_singleton, Nat.pow_succ]
      have bit : holds.toNat ≤ 1 := Bool.toNat_le holds
      omega

private theorem padded_concat {results : List Bool} {holds : Bool} (room : results.length < 8) :
    padded (results ++ [holds]) = (padded results + holds.toNat <<< (7 - results.length)) % 256 := by
  have exponent : 8 - results.length = 7 - results.length + 1 := by omega
  have sum : padded results + holds.toNat <<< (7 - results.length) =
      (2 * bitString results + holds.toNat) * 2 ^ (7 - results.length) := by
    rw [padded, Nat.shiftLeft_eq, exponent, Nat.pow_succ, Nat.add_mul]
    ring
  have bound : (2 * bitString results + holds.toNat) * 2 ^ (7 - results.length) < 256 := by
    have whole : 2 ^ (results.length + 1) * 2 ^ (7 - results.length) = 256 := by
      rw [← Nat.pow_add, show results.length + 1 + (7 - results.length) = 8 by omega]
    rw [← whole]
    refine Nat.mul_lt_mul_of_pos_right ?_ (Nat.two_pow_pos _)
    have small := bitString_lt (results ++ [holds])
    rwa [bitString_concat, List.length_append] at small
  rw [sum, Nat.mod_eq_of_lt bound, padded, bitString_concat, List.length_append, List.length_singleton]
  congr 2
  omega

private theorem bitmap_prefix {exps : List RelationExp} {phv : Phv} {results : List Bool}
    (evaluated : exps.mapM (conditionHolds phv) = some results) (few : exps.length ≤ 8) {count : Nat}
    (inside : count ≤ exps.length) :
    (List.range count).foldlM (fun bits index => do
      let exp ← exps[index]?
      let holds ← conditionHolds phv exp
      if index < 8 then return (bits + holds.toNat <<< (7 - index)) % 256 else none) 0 =
      some (padded (results.take count)) := by
  induction count with
  | zero => simp [padded, bitString]
  | succ count ih =>
      have here : count < exps.length := inside
      have same := length_of_mapM_some evaluated
      have result := getElem_of_mapM_some evaluated here
      rw [List.getElem?_eq_getElem (by omega)] at result
      have length : (results.take count).length = count := by
        rw [List.length_take]
        omega
      rw [List.range_succ, List.foldlM_append, ih here.le]
      simp only [Option.bind_eq_bind, Option.bind_some, List.foldlM_cons, List.foldlM_nil,
        List.getElem?_eq_getElem here, result, if_pos (show count < 8 by omega), Option.pure_def]
      rw [List.take_add_one, List.getElem?_eq_getElem (by omega), Option.toList_some,
        padded_concat (by omega), length]

theorem bitmap_full {gateway : Gateway} {phv : Phv} {results : List Bool}
    (evaluated : gateway.exps.mapM (conditionHolds phv) = some results)
    (few : gateway.exps.length ≤ 8) (full : gateway.capacity = gateway.exps.length) :
    gateway.bitmap phv = some (padded results) := by
  have done := bitmap_prefix evaluated few le_rfl
  rw [List.take_of_length_le (length_of_mapM_some evaluated).le] at done
  rw [bitmap, full, done]

private theorem foldlM_range_stuck {σ : Type} {step : σ → Nat → Option σ} {index count : Nat}
    (inside : index < count) (stuck : ∀ state, step state index = none) (start : σ) :
    (List.range count).foldlM step start = none := by
  obtain ⟨rest, split⟩ := Nat.exists_eq_add_of_lt inside
  rw [split, Nat.add_right_comm, List.range_add, List.range_succ, List.foldlM_append, List.foldlM_append]
  cases (List.range index).foldlM step start with
  | none => rfl
  | some state => simp [stuck]

/-- Unused capacity is read. -/
theorem bitmap_overrun {gateway : Gateway} (phv : Phv) (spare : gateway.exps.length < gateway.capacity) :
    gateway.bitmap phv = none :=
  foldlM_range_stuck spare (fun bits => by simp) 0

/-- A ninth expression has no bit. -/
theorem bitmap_many {gateway : Gateway} (phv : Phv) (many : 8 < gateway.capacity) :
    gateway.bitmap phv = none :=
  foldlM_range_stuck many (fun bits => by simp) 0

/-- The storage of the expression vector: what doubling from nothing can reach. -/
structure StorageValid (gateway : Gateway) : Prop where
  doubled : gateway.capacity = 0 ∨ ∃ exponent, gateway.capacity = 2 ^ exponent
  holdsAll : gateway.exps.length ≤ gateway.capacity

theorem insertExp_storage {gateway : Gateway} (valid : gateway.StorageValid) (exp : RelationExp) :
    (gateway.insertExp exp).StorageValid := by
  obtain ⟨doubled, holdsAll⟩ := valid
  constructor
  · by_cases spare : gateway.exps.length < gateway.capacity
    · simpa [insertExp, grownCapacity, spare] using doubled
    · obtain empty | ⟨exponent, power⟩ := doubled
      · exact .inr ⟨0, by simp [insertExp, grownCapacity, empty]⟩
      · have positive := Nat.two_pow_pos exponent
        refine .inr ⟨exponent + 1, ?_⟩
        simp only [insertExp, grownCapacity, power ▸ spare, if_false, power, positive.ne', Nat.pow_succ]
        omega
  · simp only [insertExp, grownCapacity, List.length_append, List.length_singleton]
    split
    · omega
    · split <;> omega

theorem apply_storage {gateway : Gateway} (valid : gateway.StorageValid) (request : GatewayRequest) :
    (gateway.apply request).StorageValid := by
  cases request with
  | clearRelationExp => exact ⟨valid.doubled, Nat.zero_le _⟩
  | insertRelationExp exp => exact insertExp_storage valid exp
  | clearResMap => exact ⟨valid.doubled, valid.holdsAll⟩
  | modResMap key entry => exact ⟨valid.doubled, valid.holdsAll⟩
  | setDefaultGateEntry entry => exact ⟨valid.doubled, valid.holdsAll⟩

/-- The gateway of a processor after some configuration requests. -/
def configured (history : List GatewayRequest) : Gateway := history.foldl Gateway.apply fresh

theorem configured_storage (history : List GatewayRequest) : (configured history).StorageValid := by
  induction history using List.reverseRecOn with
  | nil => exact ⟨.inl rfl, le_rfl⟩
  | append_singleton history request ih =>
      rw [configured, List.foldl_append]
      exact apply_storage ih request

/-- A cleared vector of some capacity after insertions. -/
structure Refilled (before : Nat) (gateway : Gateway) : Prop where
  grows : before ≤ gateway.capacity
  kept : gateway.exps.length ≤ before → gateway.capacity = before
  tight : before < gateway.exps.length → gateway.capacity < 2 * gateway.exps.length

private theorem insertExp_refilled {before : Nat} {gateway : Gateway} (valid : gateway.StorageValid)
    (refilled : Refilled before gateway) (exp : RelationExp) : Refilled before (gateway.insertExp exp) := by
  obtain ⟨grows, kept, tight⟩ := refilled
  have holdsAll := valid.holdsAll
  by_cases spare : gateway.exps.length < gateway.capacity
  · constructor <;> simp only [insertExp, grownCapacity, spare, if_true, List.length_append,
      List.length_singleton] <;> omega
  · constructor <;> simp only [insertExp, grownCapacity, spare, if_false, List.length_append,
      List.length_singleton] <;> split <;> omega

theorem insertAll_refilled {gateway : Gateway} (valid : gateway.StorageValid) {before : Nat}
    (refilled : Refilled before gateway) (exps : List RelationExp) :
    (exps.foldl insertExp gateway).StorageValid ∧ Refilled before (exps.foldl insertExp gateway) := by
  induction exps generalizing gateway with
  | nil => exact ⟨valid, refilled⟩
  | cons exp rest ih => exact ih (insertExp_storage valid exp) (insertExp_refilled valid refilled exp)

theorem insertAll_exps (gateway : Gateway) (exps : List RelationExp) :
    (exps.foldl insertExp gateway).exps = gateway.exps ++ exps := by
  induction exps generalizing gateway with
  | nil => simp
  | cons exp rest ih => simp [ih, insertExp]

theorem insertAll_resNext (gateway : Gateway) (exps : List RelationExp) :
    (exps.foldl insertExp gateway).resNext = gateway.resNext := by
  induction exps generalizing gateway with
  | nil => rfl
  | cons exp rest ih => rw [List.foldl_cons, ih, insertExp]

theorem small_power {exponent : Nat} (small : 2 ^ exponent < 16) : 2 ^ exponent ∈ [1, 2, 4, 8] := by
  have bounded : exponent < 4 := (Nat.pow_lt_pow_iff_right (by decide)).mp (small.trans_eq rfl)
  interval_cases exponent <;> decide

private theorem full_iff {gateway : Gateway} {before : Nat} (valid : gateway.StorageValid)
    (refilled : Refilled before gateway) (few : gateway.exps.length ≤ 8) (nonempty : gateway.exps ≠ []) :
    gateway.capacity = gateway.exps.length ↔
      before ≤ gateway.exps.length ∧ gateway.exps.length ∈ [1, 2, 4, 8] := by
  have positive : 0 < gateway.exps.length := List.length_pos_iff.mpr nonempty
  obtain ⟨grows, kept, tight⟩ := refilled
  obtain ⟨storage, holdsAll⟩ := valid
  constructor
  · intro full
    refine ⟨full ▸ grows, ?_⟩
    obtain empty | ⟨exponent, power⟩ := storage
    · omega
    · rw [← full, power]
      exact small_power (by omega)
  · rintro ⟨room, size⟩
    obtain empty | ⟨exponent, power⟩ := storage
    · omega
    · have reached := @small_power exponent
      rw [← power] at reached
      by_cases same : gateway.exps.length ≤ before
      · rw [kept same]
        omega
      · have bound := tight (by omega)
        simp only [List.mem_cons, List.not_mem_nil, or_false] at size reached
        omega

/-- The last row of a switch whose key is stored under `bits`. -/
def lastRow (rows : List (Int × GateEntry)) (bits : Nat) : Option GateEntry :=
  (rows.reverse.find? fun row => (row.1 % 256).toNat = bits).map Prod.snd

private theorem modifyAll_resNext (gateway : Gateway) (rows : List (Int × GateEntry)) (bits : Nat) :
    (rows.foldl (fun gateway row => gateway.modifyResMap row.1 row.2) gateway).resNext bits =
      (lastRow rows bits <|> gateway.resNext bits) := by
  induction rows using List.reverseRecOn with
  | nil => rfl
  | append_singleton rows row ih =>
      rw [List.foldl_append, List.foldl_cons, List.foldl_nil, lastRow, List.reverse_append]
      by_cases here : (row.1 % 256).toNat = bits
      · simp [modifyResMap, here]
      · have kept := Function.update_of_ne (Ne.symm here) (some row.2)
          (rows.foldl (fun gateway row => gateway.modifyResMap row.1 row.2) gateway).resNext
        simp only [modifyResMap] at kept ih ⊢
        rw [kept, ih, lastRow]
        simp [here]

theorem modifyAll_rest (gateway : Gateway) (rows : List (Int × GateEntry)) :
    (rows.foldl (fun gateway row => gateway.modifyResMap row.1 row.2) gateway).exps = gateway.exps ∧
    (rows.foldl (fun gateway row => gateway.modifyResMap row.1 row.2) gateway).capacity = gateway.capacity ∧
    (rows.foldl (fun gateway row => gateway.modifyResMap row.1 row.2) gateway).defaultEntry =
      gateway.defaultEntry := by
  induction rows generalizing gateway with
  | nil => exact ⟨rfl, rfl, rfl⟩
  | cons row rest ih => exact ih (gateway.modifyResMap row.1 row.2)

/-- The requests that write one gateway. -/
def push (exps : List RelationExp) (default : GateEntry) (rows : List (Int × GateEntry)) :
    List GatewayRequest :=
  .clearRelationExp :: exps.map .insertRelationExp ++
    .setDefaultGateEntry default :: rows.map fun row => .modResMap row.1 row.2

theorem configured_push (history : List GatewayRequest) (exps : List RelationExp)
    (default : GateEntry) (rows : List (Int × GateEntry)) :
    configured (history ++ push exps default rows) =
      rows.foldl (fun gateway row => gateway.modifyResMap row.1 row.2)
        ((exps.foldl insertExp (configured history).clear).setDefaultEntry default) := by
  simp only [configured, push, List.foldl_append, List.foldl_cons, List.foldl_map]
  rfl

/-- A pushed gateway decides by the padded results, provided its vector ends exactly full. -/
theorem execute_push {history : List GatewayRequest} {exps : List RelationExp} {default : GateEntry}
    {rows : List (Int × GateEntry)} {phv : Phv} {results : List Bool}
    (evaluated : exps.mapM (conditionHolds phv) = some results) (nonempty : exps ≠ [])
    (few : exps.length ≤ 8) : (configured (history ++ push exps default rows)).execute phv =
      if (configured history).capacity ≤ exps.length ∧ exps.length ∈ [1, 2, 4, 8] then
        some { phv with nextOp := (lastRow rows (padded results)).getD default }
      else none := by
  generalize before : (configured history).clear = cleared
  have storage : cleared.StorageValid := by
    rw [← before]
    exact apply_storage (configured_storage history) .clearRelationExp
  have refill : Refilled (configured history).capacity cleared := by
    rw [← before]
    exact ⟨le_rfl, fun _ => rfl, fun absurdity => absurd absurdity (Nat.not_lt_zero _)⟩
  obtain ⟨filled, refilled⟩ := insertAll_refilled storage refill exps
  have all : (exps.foldl insertExp cleared).exps = exps := by
    rw [insertAll_exps, ← before]
    rfl
  have full := full_iff filled refilled (by rwa [all]) (by rwa [all])
  have noRow : (exps.foldl insertExp cleared).resNext = fun _ => none := by
    rw [insertAll_resNext, ← before]
    rfl
  rw [configured_push, before, execute]
  generalize exps.foldl insertExp cleared = inserted at filled all full noRow
  obtain ⟨sameExps, sameCapacity, sameDefault⟩ := modifyAll_rest (inserted.setDefaultEntry default) rows
  have next := modifyAll_resNext (inserted.setDefaultEntry default) rows
  generalize rows.foldl _ _ = final at sameExps sameCapacity sameDefault next
  simp only [setDefaultEntry, noRow] at sameExps sameCapacity sameDefault next
  rw [all] at full sameExps
  by_cases fits : (configured history).capacity ≤ exps.length ∧ exps.length ∈ [1, 2, 4, 8]
  · have reads : final.bitmap phv = some (padded results) :=
      bitmap_full (by rwa [sameExps]) (by rwa [sameExps]) (by rw [sameCapacity, sameExps, full.mpr fits])
    rw [if_pos fits, reads, Option.bind_eq_bind, Option.bind_some, next, sameDefault]
    cases lastRow rows (padded results) with
    | none => rfl
    | some entry => rfl
  · have spare : final.exps.length < final.capacity := by
      rw [sameExps, sameCapacity]
      refine lt_of_le_of_ne (all ▸ filled.holdsAll) fun equal => fits (full.mp equal.symm)
    rw [if_neg fits, bitmap_overrun phv spare]
    rfl

end Gateway

end Ipbm.Dataplane
