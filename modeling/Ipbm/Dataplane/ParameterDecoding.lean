import Ipbm.Dataplane.ExecutorProperties

/-! The parameters of an action as the bit ranges of a matched value. -/

set_option autoImplicit false

namespace Ipbm.Dataplane
open Lib

namespace Action

/-- The bits behind a parameter in the last byte that it touches. -/
def behind (rightOffset : Nat) : Nat := (8 - rightOffset) % 8

private theorem clearHigh_eq {bytes : List UInt8} {shift : Nat} (small : shift < 8) (nonempty : bytes ≠ []) :
    clearHigh shift bytes = some (beBytes bytes.length (beVal bytes % 2 ^ (8 * bytes.length - shift))) := by
  cases bytes with
  | nil => exact absurd rfl nonempty
  | cons byte rest =>
      have first : (u8 ((u8 (byte.toNat <<< shift)).toNat >>> shift)).toNat = byte.toNat % 2 ^
          (8 - shift) := by
        have whole : 256 = 2 ^ shift * 2 ^ (8 - shift) := by
          rw [← Nat.pow_add, Nat.add_sub_cancel' small.le]
        rw [toNat_u8, toNat_u8, Nat.shiftLeft_eq, Nat.shiftRight_eq_div_pow, Nat.mul_comm]
        nth_rewrite 1 [whole]
        rw [Nat.mul_mod_mul_left, Nat.mul_div_cancel_left _ (Nat.two_pow_pos shift)]
        exact Nat.mod_eq_of_lt ((Nat.mod_le _ _).trans_lt (byte_lt byte))
      have split : 2 ^ (8 * (byte :: rest).length - shift) = 256 ^ rest.length * 2 ^ (8 - shift) := by
        rw [pow_256, ← Nat.pow_add, List.length_cons]
        congr 1
        omega
      have restSmall := beVal_lt rest
      have fits : beVal (byte :: rest) % (256 ^ rest.length * 2 ^ (8 - shift)) < 256 ^
          (byte :: rest).length :=
        (Nat.mod_le _ _).trans_lt (beVal_lt _)
      refine congrArg some (beVal_injective (by simp) ?_)
      rw [beVal_beBytes, split, Nat.mod_eq_of_lt fits, beVal_cons, first, beVal_cons, Nat.mod_mul,
        Nat.mul_add_mod_self_right, Nat.mod_eq_of_lt restSmall, Nat.mul_comm byte.toNat,
        Nat.mul_add_div (Nat.pow_pos (by decide)),
        Nat.div_eq_of_lt restSmall, Nat.add_zero, Nat.mul_comm, Nat.add_comm]

private theorem clearLow_eq {bytes : List UInt8} {rightOffset : Nat} (small : rightOffset < 8)
    (nonempty : bytes ≠ []) :
    clearLow rightOffset bytes =
      some (beBytes bytes.length (beVal bytes / 2 ^ behind rightOffset * 2 ^ behind rightOffset)) := by
  obtain ⟨front, last, rfl⟩ := List.eq_nil_or_concat' bytes |>.resolve_left nonempty
  have cleared : (if rightOffset = 0 then last else u8
    (last.toNat >>> (8 - rightOffset) <<< (8 - rightOffset))).toNat =
      last.toNat / 2 ^ behind rightOffset * 2 ^ behind rightOffset := by
    unfold behind
    split
    case isTrue aligned =>
      subst aligned
      simp
    case isFalse crossing =>
      rw [Nat.mod_eq_of_lt (by omega : 8 - rightOffset < 8), toNat_u8, Nat.shiftRight_eq_div_pow,
        Nat.shiftLeft_eq]
      exact Nat.mod_eq_of_lt ((Nat.div_mul_le_self _ _).trans_lt (byte_lt last))
  have whole : 256 = 2 ^ (8 - behind rightOffset) * 2 ^ behind rightOffset := by
    rw [← Nat.pow_add, Nat.sub_add_cancel (by unfold behind; omega)]
  have value : beVal (front ++ [last]) / 2 ^ behind rightOffset * 2 ^ behind rightOffset =
      beVal front * 256 + last.toNat / 2 ^ behind rightOffset * 2 ^ behind rightOffset := by
    rw [beVal_append, beVal_cons, List.length_singleton, List.length_nil, Nat.pow_zero, Nat.mul_one,
      beVal_nil, Nat.add_zero, Nat.pow_one, whole, ← Nat.mul_assoc, Nat.add_comm,
      Nat.add_mul_div_right _ _ (Nat.two_pow_pos _), Nat.add_mul,
      Nat.add_comm]
  simp only [clearLow, List.getLast?_concat, Option.bind_eq_bind, Option.bind_some, List.dropLast_concat]
  refine congrArg some ?_
  rw [value, ← cleared, List.length_append, List.length_singleton, beBytes_append, beBytes_beVal]

/-- The copy of a parameter is its number, shifted in front of the bits behind it. -/
theorem valueNew_eq {value : List UInt8} {start len : Nat} (positive : 0 < len)
    (long : bytesFor (start + len) ≤ value.length) :
    valueNew value start len = some (beBytes ((start + len + 7) / 8 - start / 8)
      (bitSlice value start len * 2 ^ behind ((start + len) % 8))) := by
  unfold bytesFor at long
  generalize countEq : (start + len + 7) / 8 - start / 8 = count
  have room : start / 8 + count ≤ value.length := by omega
  have span : start % 8 + len + behind ((start + len) % 8) = 8 * count := by
    unfold behind
    omega
  have window := bitSlice_window value start len count (by omega) room
  have length : ((value.drop (start / 8)).take count).length = count := by
    rw [List.length_take, List.length_drop]
    omega
  unfold valueNew
  rw [countEq, copyOut, if_pos room, Option.bind_eq_bind, Option.bind_some, window]
  generalize (value.drop (start / 8)).take count = copy at length ⊢
  have nonempty : ∀ bytes : List UInt8, bytes.length = count → bytes ≠ [] := by
    intro bytes same empty
    rw [empty, List.length_nil] at same
    omega
  rw [clearHigh_eq (Nat.mod_lt _ (by decide)) (nonempty copy length), Option.bind_some,
    clearLow_eq (Nat.mod_lt _ (by decide)) (nonempty _ (by rw [length_beBytes, length])),
    length_beBytes, length, beVal_beBytes]
  generalize behind ((start + len) % 8) = empty at span ⊢
  have fits : beVal copy % 2 ^ (8 * count - start % 8) < 256 ^ count :=
    (Nat.mod_le _ _).trans_lt (length ▸ beVal_lt copy)
  have upper : 8 * count - start % 8 = empty + len := by omega
  have lower : 8 * count - (start % 8 + len) = empty := by omega
  rw [Nat.mod_eq_of_lt fits, bitSlice, length, lower, upper, Nat.pow_add, Nat.mod_mul_right_div_self]

private theorem shifted_byte {shift : Nat} (small : shift < 8) (value : Nat) :
    u8 ((u8 value).toNat >>> shift + (u8 ((u8 (value / 256)).toNat <<< (8 - shift))).toNat) =
      u8 (value / 2 ^ shift) := by
  have whole : 256 = 2 ^ shift * 2 ^ (8 - shift) := by
    rw [← Nat.pow_add, Nat.add_sub_cancel' small.le]
  have split : value / 2 ^ shift = value / 256 * 2 ^ (8 - shift) + value % 256 / 2 ^ shift := by
    have parts := Nat.div_add_mod value 256
    nth_rewrite 1 [← parts, whole]
    rw [Nat.mul_assoc, Nat.mul_add_div (Nat.two_pow_pos shift), Nat.mul_comm]
  apply UInt8.toNat_inj.mp
  simp only [toNat_u8, Nat.shiftRight_eq_div_pow, Nat.shiftLeft_eq, Nat.add_mod_mod]
  rw [split, Nat.add_comm, Nat.add_mod, Nat.mod_mul_mod, ← Nat.add_mod]

private theorem paraByte_eq {count index number rightOffset : Nat} (small : rightOffset < 8)
    (low : index < count) (fits : number * 2 ^ behind rightOffset < 256 ^ count) :
    paraByte (beBytes count (number * 2 ^ behind rightOffset)) rightOffset index =
      some (u8 (number / 256 ^ (count - 1 - index))) := by
  unfold paraByte
  rw [beBytes_getElem? low, Option.bind_eq_bind, Option.bind_some]
  by_cases aligned : rightOffset = 0
  · rw [if_pos aligned, aligned]
    simp only [behind, Nat.sub_zero, Nat.mod_self, Nat.pow_zero, Nat.mul_one]
    rfl
  · have shift : behind rightOffset = 8 - rightOffset := Nat.mod_eq_of_lt (by omega)
    rw [shift] at fits ⊢
    have back : 8 - (8 - rightOffset) = rightOffset := Nat.sub_sub_self small.le
    have byte := shifted_byte (by omega : 8 - rightOffset < 8)
      (number * 2 ^ (8 - rightOffset) / 256 ^ (count - 1 - index))
    have unshifted : number * 2 ^ (8 - rightOffset) / 256 ^ (count - 1 - index) / 2 ^ (8 - rightOffset) =
        number / 256 ^ (count - 1 - index) := by
      rw [Nat.div_right_comm, Nat.mul_div_cancel _ (Nat.two_pow_pos _)]
    rw [back, unshifted, Nat.div_div_eq_div_mul, ← Nat.pow_succ] at byte
    rw [if_neg aligned]
    by_cases first : index = 0
    · subst first
      -- nothing is in front of the first byte
      rw [Nat.sub_zero, Nat.succ_eq_add_one, Nat.sub_add_cancel (by omega), Nat.div_eq_of_lt fits] at byte
      rw [if_pos rfl, Nat.sub_zero, ← byte]
      simp only [toNat_u8, Nat.zero_mod, Nat.zero_shiftLeft, Nat.add_zero]
      rfl
    · have previous : count - 1 - (index - 1) = count - 1 - index + 1 := by omega
      rw [if_neg first, beBytes_getElem? (by omega), previous, Option.bind_some, ← byte]
      rfl

/-- A parameter is the bits that it takes of the value, right-aligned. -/
theorem setActionPara_eq {value : List UInt8} {start len : Nat} (positive : 0 < len)
    (long : bytesFor (start + len) ≤ value.length) :
    setActionPara value start len = some ⟨len, beBytes (bytesFor len) (bitSlice value start len)⟩ := by
  have size : bytesFor len ≤ (start + len + 7) / 8 - start / 8 := by
    unfold bytesFor
    omega
  have span : start % 8 + len + behind ((start + len) % 8) = 8 * ((start + len + 7) / 8 - start / 8) := by
    unfold behind
    omega
  have fits : bitSlice value start len * 2 ^ behind ((start + len) % 8) < 256 ^
      ((start + len + 7) / 8 - start / 8) := by
    rw [pow_256]
    calc
      bitSlice value start len * 2 ^ behind ((start + len) % 8)
      _ < 2 ^ len * 2 ^ behind ((start + len) % 8) :=
        Nat.mul_lt_mul_of_pos_right (bitSlice_lt _ _ _) (Nat.two_pow_pos _)
      _ = 2 ^ (len + behind ((start + len) % 8)) := (Nat.pow_add _ _ _).symm
      _ ≤ _ := Nat.pow_le_pow_right (by decide) (by omega)
  unfold setActionPara
  rw [valueNew_eq positive long, Option.bind_eq_bind, Option.bind_some, length_beBytes,
    if_neg (Nat.not_lt.mpr size)]
  generalize (start + len + 7) / 8 - start / 8 = count at size fits
  rw [mapM_eq_some_map fun index member => paraByte_eq (Nat.mod_lt _ (by decide))
    (by have := List.mem_range.mp member; omega) fits]
  refine congrArg some (congrArg (Data.mk len) (List.ext_getElem? fun index => ?_))
  by_cases low : index < bytesFor len
  · have same : count - 1 - (count - bytesFor len + index) = bytesFor len - 1 - index := by omega
    rw [List.getElem?_map, List.getElem?_range low, Option.map_some, beBytes_getElem? low, same]
  · rw [List.getElem?_eq_none (by simpa using low), List.getElem?_eq_none (by simpa using low)]

private theorem setActionParasFrom_eq {value : List UInt8} {widths : List Nat} {offset : Nat}
    (positive : ∀ width ∈ widths, 0 < width) (long : bytesFor (offset + widths.sum) ≤ value.length) :
    ∃ paras : List Data, setActionParasFrom value offset widths = some paras ∧ paras.length = widths.length ∧
      ∀ index width, widths[index]? = some width → paras[index]? = some
        (Data.mk width (beBytes (bytesFor width)
          (bitSlice value (offset + (widths.take index).sum) width))) := by
  induction widths generalizing offset with
  | nil => exact ⟨[], rfl, rfl, fun index width found => by cases found⟩
  | cons width widths ih =>
      rw [List.forall_mem_cons] at positive
      rw [List.sum_cons, ← Nat.add_assoc] at long
      have here : setActionPara value offset width = _ := setActionPara_eq positive.1 (by
        unfold bytesFor at long ⊢
        omega)
      obtain ⟨paras, decoded, length, each⟩ := ih positive.2 long
      refine ⟨⟨width, beBytes (bytesFor width) (bitSlice value offset width)⟩ :: paras, ?_,
        congrArg (· + 1) length, fun index other found => ?_⟩
      · rw [setActionParasFrom, here, decoded]
        rfl
      · cases index with
        | zero =>
            cases found
            rfl
        | succ index =>
            rw [List.take_succ_cons, List.sum_cons, ← Nat.add_assoc]
            exact each index other found

end Action

/-- An action with the parameters that its member `action_paras` holds. -/
structure ActionObject where
  action : Action
  actionParas : List Data
  deriving DecidableEq, Repr

namespace ActionObject

/-- The parameters are appended to the member one by one. -/
def pushActionParas (value : List UInt8) : Nat → List Nat → ActionObject → Option ActionObject
  | _, [], object => some object
  | curOffset, len :: lens, object => do
      let para ← Action.setActionPara value curOffset len
      pushActionParas value (curOffset + len) lens { object with actionParas := object.actionParas ++ [para] }

def setActionParas (object : ActionObject) (value : Option (List UInt8)) : Option ActionObject :=
  let object := { object with actionParas := [] }
  if object.action.paraNum = 0 then some object
  else if object.action.paraNum ≤ object.action.actionParaLens.length then do
    pushActionParas (← value) 16 (object.action.actionParaLens.take object.action.paraNum) object
  else none

private theorem pushActionParas_eq (value : List UInt8) (widths : List Nat) (offset : Nat)
    (object : ActionObject) :
    pushActionParas value offset widths object =
      (Action.setActionParasFrom value offset widths).map fun paras =>
      { object with actionParas := object.actionParas ++ paras } := by
  induction widths generalizing offset object with
  | nil =>
      rw [pushActionParas, Action.setActionParasFrom, Option.map_some, List.append_nil]
  | cons width widths ih =>
      rw [pushActionParas, Action.setActionParasFrom]
      cases Action.setActionPara value offset width with
      | none => rfl
      | some para =>
          simp only [Option.bind_eq_bind, Option.bind_some, ih]
          cases Action.setActionParasFrom value (offset + width) widths with
          | none => rfl
          | some paras =>
              simp only [Option.map_some, Option.bind_some, List.append_assoc, List.singleton_append]
              rfl

/-- The call leaves in the member what the action decodes, whatever it held before. -/
theorem setActionParas_eq (object : ActionObject) (value : Option (List UInt8)) :
    object.setActionParas value = (object.action.setActionParas value).map fun paras =>
      { object with actionParas := paras } := by
  unfold setActionParas Action.setActionParas
  dsimp only
  split
  · rfl
  · split
    · cases value with
      | none => rfl
      | some value => exact pushActionParas_eq value _ 16 _
    · rfl

/-- The parameters are the bit ranges of the value behind the action id, one after the other. -/
theorem setActionParas_exact {object : ActionObject} {value : List UInt8}
    (number : object.action.paraNum = object.action.actionParaLens.length)
    (positive : ∀ width ∈ object.action.actionParaLens, 0 < width)
    (long : bytesFor (16 + object.action.actionParaLens.sum) ≤ value.length) :
    ∃ actionParas : List Data, object.setActionParas (some value) = some { object with actionParas } ∧
      actionParas.length = object.action.paraNum ∧
      ∀ index width, object.action.actionParaLens[index]? = some width → actionParas[index]? = some
        (Data.mk width (beBytes (bytesFor width)
          (bitSlice value (16 + (object.action.actionParaLens.take index).sum) width))) := by
  obtain ⟨paras, decoded, length, each⟩ := Action.setActionParasFrom_eq positive long
  refine ⟨paras, ?_, length.trans number.symm, each⟩
  rw [setActionParas_eq, Action.setActionParas]
  by_cases none_ : object.action.paraNum = 0
  · have empty := List.length_eq_zero_iff.mp (number.symm.trans none_)
    rw [empty, Action.setActionParasFrom] at decoded
    cases decoded
    rw [if_pos none_, Option.map_some]
  · rw [if_neg none_, if_pos number.le, number, List.take_length, Option.bind_eq_bind,
      Option.bind_some, decoded, Option.map_some]

/-- Parameters of 5, 12 and 19 bits over one of an earlier call. -/
theorem setActionParas_three : ∃ actionParas : List Data,
    (ActionObject.mk ⟨[], 3, [5, 12, 19]⟩ [⟨8, [7]⟩]).setActionParas (some [0, 0, 0x55, 0x44, 0x33,
      0x22, 0x11, 0x66]) = some ⟨⟨[], 3, [5, 12, 19]⟩, actionParas⟩ ∧ actionParas.length = 3 ∧
      ∀ index width, [5, 12, 19][index]? = some width → actionParas[index]? = some
        (Data.mk width (beBytes (bytesFor width)
          (bitSlice [0, 0, 0x55, 0x44, 0x33, 0x22, 0x11, 0x66] (16 + ([5, 12, 19].take index).sum) width))) :=
  setActionParas_exact rfl (by decide) (by decide)

end ActionObject
end Ipbm.Dataplane
