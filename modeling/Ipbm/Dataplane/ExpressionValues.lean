import Mathlib.Data.Nat.Bitwise
import Ipbm.Dataplane.OperandReads

/-! Action expressions as expressions over bit vectors. -/

set_option autoImplicit false

namespace Ipbm.Dataplane
open Lib

/-- A bit vector with its width. -/
structure Word where
  width : Nat
  bits : BitVec width
  deriving DecidableEq, Repr

/-- The bit vector of a value of 1 to 32 bits that fits its width. -/
def Data.word (data : Data) : Option Word :=
  if 0 < data.dataLen ∧ data.dataLen ≤ 32 then
    (getValue data).bind fun value => if value < 2 ^ data.dataLen then some ⟨data.dataLen, value⟩ else none
  else
    none

theorem Data.word_eq_some_iff {data : Data} {word : Word} : data.word = some word ↔
    data.dataLen = word.width ∧ 0 < word.width ∧ word.width ≤ 32 ∧ getValue data = some word.bits.toNat := by
  obtain ⟨width, bits⟩ := word
  unfold Data.word
  constructor
  · intro is
    split at is
    · obtain ⟨value, read, fits⟩ := Option.bind_eq_some_iff.mp is
      split at fits
      · cases fits
        have small : value < 2 ^ data.dataLen := ‹_›
        refine ⟨rfl, ‹_ ∧ _›.1, ‹_ ∧ _›.2, ?_⟩
        simpa only [BitVec.natCast_eq_ofNat, BitVec.toNat_ofNat, Nat.mod_eq_of_lt small] using read
      · cases fits
    · cases is
  · rintro ⟨same, positive, short, read⟩
    cases same
    simp only [positive, short, and_self, if_true, read, Option.bind_some, bits.isLt, BitVec.natCast_eq_ofNat,
      BitVec.ofNat_toNat, BitVec.setWidth_eq]

/-- The operators of the expressions on bit vectors; the right operand of `~` is not there. -/
def OpCode.apply (op : OpCode) (left right : Word) : Option Word :=
  match op with
  | .add => some ⟨32, left.bits.setWidth 32 + right.bits.setWidth 32⟩
  | .sub => some ⟨32, left.bits.setWidth 32 - right.bits.setWidth 32⟩
  | .shiftLeft => some ⟨left.width, left.bits <<< right.bits.toNat⟩
  | .shiftRight => some ⟨left.width, left.bits >>> right.bits.toNat⟩
  | .bitAnd => some ⟨left.width, left.bits &&& right.bits.setWidth left.width⟩
  | .bitOr => some ⟨left.width, left.bits ||| right.bits.setWidth left.width⟩
  | .bitXor => some ⟨left.width, left.bits ^^^ right.bits.setWidth left.width⟩
  | _ => none

/-- Where the source computes such an operator: a shift by a whole 32-bit word is undefined, and
bits of a wider operand stay in the last byte of the narrower one. -/
def OpCode.Computed (op : OpCode) (left right : Word) : Prop :=
  match op with
  | .shiftLeft | .shiftRight => right.bits.toNat < 32
  | .bitOr | .bitXor => right.bits.toNat / 2 ^ left.width % 2 ^ padding left.width = 0
  | _ => True

instance (op : OpCode) (left right : Word) : Decidable (op.Computed left right) := by
  unfold OpCode.Computed
  cases op <;> infer_instance

section

variable {data first second : Data} {word left right : Word}

private theorem getData_word {value : Nat} {bits : BitVec word.width} (positive : 0 < word.width)
    (short : word.width ≤ 32) : (getData word.width value).bind Data.word = some ⟨word.width, bits⟩ ↔
      value % 256 ^ bytesFor word.width = bits.toNat := by
  have few : bytesFor word.width ≤ 4 := by
    unfold bytesFor
    omega
  have read : getValue ⟨word.width, beBytes (bytesFor word.width) value⟩ =
      some (value % 256 ^ bytesFor word.width) := by
    simp only [getValue, Nat.min_eq_right few, length_beBytes, le_refl, if_true]
    rw [List.take_of_length_le (length_beBytes _ _).le, beVal_beBytes]
  rw [getData, if_pos few, Option.bind_some, Data.word_eq_some_iff, read]
  simp only [positive, short, true_and, Option.some.injEq]

private theorem getData_word_of_lt {value : Nat} {bits : BitVec word.width} (positive : 0 < word.width)
    (short : word.width ≤ 32) (small : value < 2 ^ word.width) :
    (getData word.width value).bind Data.word = some ⟨word.width, bits⟩ ↔ value = bits.toNat := by
  rw [getData_word positive short, pow_bytesFor, Nat.mod_eq_of_lt]
  exact small.trans_le (Nat.le_mul_of_pos_right _ (Nat.two_pow_pos _))

private theorem getData_word_32 (value : Nat) (bits : BitVec 32) :
    (getData 32 (value % 2 ^ 32)).bind Data.word = some ⟨32, bits⟩ ↔ value % 2 ^ 32 = bits.toNat :=
  @getData_word_of_lt ⟨32, 0⟩ _ bits (by decide) (by decide) (Nat.mod_lt _ (by decide))

private theorem lt_word (short : word.width ≤ 32) : word.bits.toNat < 2 ^ 32 :=
  word.bits.isLt.trans_le (Nat.pow_le_pow_right (by decide) short)

private theorem bitCompute_shiftLeft (isLeft : first.word = some left) (isRight : second.word = some right) :
    (bitCompute .shiftLeft first second).bind Data.word = some ⟨left.width, left.bits <<< right.bits.toNat⟩ ↔
      right.bits.toNat < 32 := by
  obtain ⟨width, positive, short, read⟩ := Data.word_eq_some_iff.mp isLeft
  obtain ⟨-, -, -, shift⟩ := Data.word_eq_some_iff.mp isRight
  simp only [bitCompute, read, shift, width, shl32, Option.bind_eq_bind, Option.bind_some,
    Nat.min_eq_left short]
  by_cases inside : right.bits.toNat < 32
  · simp only [inside, if_true, Option.bind_some, iff_true]
    rw [getData_word_of_lt positive short (Nat.mod_lt _ (Nat.two_pow_pos _)), BitVec.toNat_shiftLeft]
    exact Nat.mod_mod_of_dvd _ (Nat.pow_dvd_pow 2 short)
  · simp only [inside, if_false, Option.bind_none, reduceCtorEq]

private theorem bitCompute_shiftRight (isLeft : first.word = some left) (isRight : second.word = some right) :
    (bitCompute .shiftRight first second).bind Data.word = some ⟨left.width, left.bits >>> right.bits.toNat⟩ ↔
      right.bits.toNat < 32 := by
  obtain ⟨width, positive, short, read⟩ := Data.word_eq_some_iff.mp isLeft
  obtain ⟨-, -, -, shift⟩ := Data.word_eq_some_iff.mp isRight
  simp only [bitCompute, read, shift, width, Option.bind_eq_bind, Option.bind_some]
  by_cases inside : right.bits.toNat < 32
  · simp only [inside, if_true, iff_true]
    have small := (left.bits >>> right.bits.toNat).isLt
    rw [BitVec.toNat_ushiftRight] at small
    rw [getData_word_of_lt positive short small, BitVec.toNat_ushiftRight]
  · simp only [inside, if_false, Option.bind_none, reduceCtorEq]

private theorem bitCompute_and (isLeft : first.word = some left) (isRight : second.word = some right) :
    (bitCompute .and first second).bind Data.word =
      some ⟨left.width, left.bits &&& right.bits.setWidth left.width⟩ := by
  obtain ⟨width, positive, short, read⟩ := Data.word_eq_some_iff.mp isLeft
  obtain ⟨-, -, -, other⟩ := Data.word_eq_some_iff.mp isRight
  simp only [bitCompute, read, other, width, Option.bind_eq_bind, Option.bind_some]
  have small : left.bits.toNat &&& right.bits.toNat < 2 ^ left.width :=
    Nat.and_le_left.trans_lt left.bits.isLt
  rw [getData_word_of_lt positive short small, BitVec.toNat_and, BitVec.toNat_setWidth,
    ← Nat.mod_eq_of_lt small, Nat.and_mod_two_pow, Nat.mod_eq_of_lt left.bits.isLt]

private theorem mod_mul_eq_iff {value size count low : Nat} (positive : 0 < size)
    (right : value % size = low) :
    value % (size * count) = low ↔ value / size % count = 0 := by
  rw [Nat.mod_mul, right, Nat.add_eq_left, Nat.mul_eq_zero, or_iff_right positive.ne']

private theorem bitCompute_or (isLeft : first.word = some left) (isRight : second.word = some right) :
    (bitCompute .or first second).bind Data.word =
        some ⟨left.width, left.bits ||| right.bits.setWidth left.width⟩ ↔
      right.bits.toNat / 2 ^ left.width % 2 ^ padding left.width = 0 := by
  obtain ⟨width, positive, short, read⟩ := Data.word_eq_some_iff.mp isLeft
  obtain ⟨-, -, -, other⟩ := Data.word_eq_some_iff.mp isRight
  simp only [bitCompute, read, other, width, Option.bind_eq_bind, Option.bind_some]
  have low : (left.bits.toNat ||| right.bits.toNat) % 2 ^ left.width =
      left.bits.toNat ||| right.bits.toNat % 2 ^ left.width := by
    rw [Nat.or_mod_two_pow, Nat.mod_eq_of_lt left.bits.isLt]
  rw [getData_word positive short, pow_bytesFor, BitVec.toNat_or, BitVec.toNat_setWidth,
    mod_mul_eq_iff (Nat.two_pow_pos _) low, Nat.or_div_two_pow, Nat.div_eq_of_lt left.bits.isLt, Nat.zero_or]

private theorem bitCompute_xor (isLeft : first.word = some left) (isRight : second.word = some right) :
    (bitCompute .xor first second).bind Data.word =
        some ⟨left.width, left.bits ^^^ right.bits.setWidth left.width⟩ ↔
      right.bits.toNat / 2 ^ left.width % 2 ^ padding left.width = 0 := by
  obtain ⟨width, positive, short, read⟩ := Data.word_eq_some_iff.mp isLeft
  obtain ⟨-, -, -, other⟩ := Data.word_eq_some_iff.mp isRight
  simp only [bitCompute, read, other, width, Option.bind_eq_bind, Option.bind_some]
  have low : (left.bits.toNat ^^^ right.bits.toNat) % 2 ^ left.width =
      left.bits.toNat ^^^ right.bits.toNat % 2 ^ left.width := by
    rw [Nat.xor_mod_two_pow, Nat.mod_eq_of_lt left.bits.isLt]
  rw [getData_word positive short, pow_bytesFor, BitVec.toNat_xor, BitVec.toNat_setWidth,
    mod_mul_eq_iff (Nat.two_pow_pos _) low, Nat.xor_div_two_pow,
    Nat.div_eq_of_lt left.bits.isLt, Nat.zero_xor]

private theorem complement_mod {value width total : Nat} (small : value < 2 ^ width) (wider : width ≤ total) :
    (2 ^ total - 1 - value) % 2 ^ width = 2 ^ width - 1 - value := by
  have split : 2 ^ total = 2 ^ width * (2 ^ (total - width) - 1) + 2 ^ width := by
    rw [← Nat.mul_add_one, Nat.sub_add_cancel (Nat.two_pow_pos _), ← Nat.pow_add, Nat.add_sub_cancel' wider]
  rw [split, Nat.sub_sub, Nat.add_sub_assoc (by omega), Nat.mul_add_mod, Nat.mod_eq_of_lt (by omega)]
  omega

private theorem bitCompute_neg (isLeft : first.word = some left) :
    (bitCompute .neg first {}).bind Data.word = some ⟨left.width, ~~~ left.bits⟩ ↔ left.width % 8 = 0 := by
  obtain ⟨width, positive, short, read⟩ := Data.word_eq_some_iff.mp isLeft
  have fits := left.bits.isLt
  have whole := width_add_padding left.width
  have small : left.bits.toNat < 2 ^ (8 * bytesFor left.width) :=
    fits.trans_le (Nat.pow_le_pow_right (by decide) (by omega))
  -- the C++ type that the complement is cast to has at least the bytes of the value
  have cast : (if left.width ≤ 8 then 2 ^ 8 - 1 - left.bits.toNat % 2 ^ 8
      else if left.width ≤ 16 then 2 ^ 16 - 1 - left.bits.toNat % 2 ^ 16
      else if left.width ≤ 32 then 2 ^ 32 - 1 - left.bits.toNat else 0) % 2 ^ (8 * bytesFor left.width) =
      2 ^ (8 * bytesFor left.width) - 1 - left.bits.toNat := by
    have bytes : bytesFor left.width = (left.width + 7) / 8 := rfl
    by_cases one : left.width ≤ 8
    · rw [if_pos one, Nat.mod_eq_of_lt (fits.trans_le (Nat.pow_le_pow_right (by decide) one)),
        complement_mod small (by omega)]
    by_cases two : left.width ≤ 16
    · rw [if_neg one, if_pos two, Nat.mod_eq_of_lt (fits.trans_le (Nat.pow_le_pow_right (by decide) two)),
        complement_mod small (by omega)]
    · rw [if_neg one, if_neg two, if_pos short, complement_mod small (by omega)]
  simp only [bitCompute, read, width, Option.bind_eq_bind, Option.bind_some]
  rw [getData_word positive short, pow_256, cast, BitVec.toNat_not]
  have equal : 2 ^ (8 * bytesFor left.width) - 1 - left.bits.toNat = 2 ^ left.width - 1 - left.bits.toNat ↔
      2 ^ (8 * bytesFor left.width) = 2 ^ left.width := by omega
  rw [equal, Nat.pow_right_inj (le_refl 2)]
  unfold bytesFor
  omega

end

namespace Primitive

section

variable (phv : Phv) (actionParas : List Data)

/-- What an expression means as an expression over bit vectors. -/
def meaning : ExpTreeNode → Option Word
  | .nil => none
  | .node (.operator .bitNeg) operand _ => (meaning operand).map fun word => ⟨word.width, ~~~ word.bits⟩
  | .node (.operator op) left right => do op.apply (← meaning left) (← meaning right)
  | .node opt _ _ => (getOpValAny opt phv actionParas).bind Data.word

end

/-- The nodes whose values an expression is computed from. -/
def evaluated : ExpTreeNode → List ExpTreeNode
  | .nil => []
  | .node (.operator .bitNeg) operand right => .node (.operator .bitNeg) operand right :: evaluated operand
  | .node (.operator op) left right => .node (.operator op) left right :: (evaluated left ++ evaluated right)
  | .node opt left right => [.node opt left right]

section

variable {phv : Phv} {actionParas : List Data}

/-- The value of an expression is the bit vector that it means. -/
def Evaluates (phv : Phv) (actionParas : List Data) (tree : ExpTreeNode) : Prop :=
  (execute phv actionParas tree).bind Data.word = meaning phv actionParas tree

/-- The operator at a node is one that the source computes on its operands. -/
def ComputedAt (phv : Phv) (actionParas : List Data) : ExpTreeNode → Prop
  | .node (.operator .bitNeg) operand _ => ∀ word ∈ meaning phv actionParas operand, word.width % 8 = 0
  | .node (.operator op) left
    right => ∀ first ∈ meaning phv actionParas left, ∀ second ∈ meaning phv actionParas right,
      op.Computed first second
  | _ => True

instance (tree : ExpTreeNode) : Decidable (ComputedAt phv actionParas tree) := by
  unfold ComputedAt
  split <;> infer_instance

private theorem self_mem_evaluated {tree : ExpTreeNode} {word : Word}
    (means : meaning phv actionParas tree = some word) :
    tree ∈ evaluated tree := by
  cases tree with
  | nil => cases means
  | node opt left right =>
      cases opt with
      | operator op => cases op <;> exact List.mem_cons_self
      | _ => exact List.mem_cons_self

private theorem binary_evaluates {op : OpCode} {left right : ExpTreeNode} {first second : Data}
    {before after : Word} {word : Word} (isLeft : execute phv actionParas left = some first)
    (isRight : execute phv actionParas right = some second)
    (leftWord : first.word = some before) (rightWord : second.word = some after)
    (means : op.apply before after = some word) :
    (execute phv actionParas (.node (.operator op) left right)).bind Data.word = some word ↔
      op.Computed before after := by
  obtain ⟨-, -, leftShort, leftValue⟩ := Data.word_eq_some_iff.mp leftWord
  obtain ⟨-, -, rightShort, rightValue⟩ := Data.word_eq_some_iff.mp rightWord
  have leftSmall := lt_word leftShort
  have rightSmall := lt_word rightShort
  cases op with
  | add =>
      cases means
      simp only [execute, isLeft, isRight, leftValue, rightValue, Option.bind_eq_bind,
        Option.bind_some, OpCode.Computed, iff_true]
      rw [getData_word_32, BitVec.toNat_add, BitVec.toNat_setWidth, BitVec.toNat_setWidth, ← Nat.add_mod]
  | sub =>
      cases means
      simp only [execute, isLeft, isRight, leftValue, rightValue, Option.bind_eq_bind,
        Option.bind_some, OpCode.Computed, iff_true]
      rw [getData_word_32, BitVec.toNat_sub, BitVec.toNat_setWidth, BitVec.toNat_setWidth,
        Nat.mod_eq_of_lt leftSmall, Nat.mod_eq_of_lt rightSmall, Nat.add_comm]
  | shiftLeft =>
      cases means
      simp only [execute, isLeft, isRight, Option.bind_eq_bind, Option.bind_some]
      exact bitCompute_shiftLeft leftWord rightWord
  | shiftRight =>
      cases means
      simp only [execute, isLeft, isRight, Option.bind_eq_bind, Option.bind_some]
      exact bitCompute_shiftRight leftWord rightWord
  | bitAnd =>
      cases means
      simp only [execute, isLeft, isRight, Option.bind_eq_bind, Option.bind_some, OpCode.Computed, iff_true]
      exact bitCompute_and leftWord rightWord
  | bitOr =>
      cases means
      simp only [execute, isLeft, isRight, Option.bind_eq_bind, Option.bind_some]
      exact bitCompute_or leftWord rightWord
  | bitXor =>
      cases means
      simp only [execute, isLeft, isRight, Option.bind_eq_bind, Option.bind_some]
      exact bitCompute_xor leftWord rightWord
  | _ => cases means

section

variable {op : OpCode} {left right : ExpTreeNode}

private theorem meaning_binary (binary : op ≠ .bitNeg) :
    meaning phv actionParas (.node (.operator op) left right) =
    (meaning phv actionParas left).bind fun before => (meaning phv actionParas right).bind
      (op.apply before) := by
  cases op <;> first | rfl | exact absurd rfl binary

private theorem evaluated_binary (binary : op ≠ .bitNeg) : evaluated (.node (.operator op) left right) =
    .node (.operator op) left right :: (evaluated left ++ evaluated right) := by
  cases op <;> first | rfl | exact absurd rfl binary

private theorem computedAt_binary {before after : Word} (binary : op ≠ .bitNeg)
    (leftMeans : meaning phv actionParas left = some before)
    (rightMeans : meaning phv actionParas right = some after) :
    ComputedAt phv actionParas (.node (.operator op) left right) ↔ op.Computed before after := by
  have unfolded : ComputedAt phv actionParas (.node (.operator op) left right) ↔
      ∀ first ∈ meaning phv actionParas left, ∀ second ∈ meaning phv actionParas right,
          op.Computed first second := by
    cases op <;> first | exact Iff.rfl | exact absurd rfl binary
  simp only [unfolded, leftMeans, rightMeans, Option.mem_some, forall_eq']

end

private theorem executed_of_evaluates {tree : ExpTreeNode} {word : Word}
    (means : meaning phv actionParas tree = some word)
    (evaluates : ∀ node ∈ evaluated tree, Evaluates phv actionParas node) :
    ∃ data, execute phv actionParas tree = some data ∧ data.word = some word :=
  Option.bind_eq_some_iff.mp ((evaluates tree (self_mem_evaluated means)).trans means)

/-- An expression and the expressions in it have the values that they mean as bit vectors exactly
if no operator shifts by 32 bits or more, no `|` or `^` has an operand with bits in the rest of
the last byte of the other one, and `~` is only used on whole bytes. -/
theorem evaluates_iff {tree : ExpTreeNode} {word : Word} (means : meaning phv actionParas tree = some word) :
    (∀ node ∈ evaluated tree, Evaluates phv actionParas node) ↔
      ∀ node ∈ evaluated tree, ComputedAt phv actionParas node := by
  induction tree generalizing word with
  | nil => cases means
  | node opt left right leftIH rightIH =>
      cases opt with
      | operator op =>
          by_cases unary : op = .bitNeg
          · subst unary
            obtain ⟨before, leftMeans, same⟩ := Option.map_eq_some_iff.mp means
            simp only [evaluated, List.forall_mem_cons, ← leftIH leftMeans]
            refine and_congr_left fun evaluates => ?_
            obtain ⟨first, isLeft, leftWord⟩ := executed_of_evaluates leftMeans evaluates
            simp only [Evaluates, means, ← same, execute, isLeft, Option.bind_eq_bind,
              Option.bind_some, ComputedAt, leftMeans, Option.mem_some, forall_eq']
            exact bitCompute_neg leftWord
          · rw [meaning_binary unary] at means
            obtain ⟨before, leftMeans, rest⟩ := Option.bind_eq_some_iff.mp means
            obtain ⟨after, rightMeans, applied⟩ := Option.bind_eq_some_iff.mp rest
            simp only [evaluated_binary unary, List.forall_mem_cons, List.forall_mem_append,
              ← leftIH leftMeans, ← rightIH rightMeans]
            refine and_congr_left fun ⟨leftEvaluates, rightEvaluates⟩ => ?_
            obtain ⟨first, isLeft, leftWord⟩ := executed_of_evaluates leftMeans leftEvaluates
            obtain ⟨second, isRight, rightWord⟩ := executed_of_evaluates rightMeans rightEvaluates
            rw [computedAt_binary unary leftMeans rightMeans, Evaluates, meaning_binary unary, means]
            exact binary_evaluates isLeft isRight leftWord rightWord applied
      | _ =>
          -- an operand is read as it is
          simp only [evaluated, List.forall_mem_singleton, Evaluates, ComputedAt, execute, meaning]

private def barePhv : Phv := ⟨[], [], [], 0, 0, 0xffff, 2, none, 0, false, 0, 0, .zero⟩

/-- A time to live of 8 bits without 1, as a number of 32 bits. -/
theorem evaluates_decrement :
    meaning barePhv [⟨8, [64]⟩] (.node (.operator .sub) (.node (.param 0) .nil .nil)
      (.node (.constant ⟨32, [0, 0, 0, 1]⟩) .nil .nil)) = some ⟨32, 63⟩ ∧
    ∀ node ∈ evaluated (.node (.operator .sub) (.node (.param 0) .nil .nil)
      (.node (.constant ⟨32, [0, 0, 0, 1]⟩) .nil .nil)), Evaluates barePhv [⟨8, [64]⟩] node := by
  have means : meaning barePhv [⟨8, [64]⟩] (.node (.operator .sub) (.node (.param 0) .nil .nil)
      (.node (.constant ⟨32, [0, 0, 0, 1]⟩) .nil .nil)) = some ⟨32, 63⟩ := by decide
  exact ⟨means, (evaluates_iff means).mpr (by decide)⟩

/-- The complement of a parameter of 4 bits has 8 bits. -/
theorem not_evaluates_complement : ¬ ∀ tree, ∀ word, meaning barePhv [⟨4, [5]⟩] tree = some word →
    Evaluates barePhv [⟨4, [5]⟩] tree := by
  intro always
  have evaluates := always (.node (.operator .bitNeg) (.node (.param 0) .nil .nil) .nil) ⟨4, 10⟩ (by decide)
  unfold Evaluates at evaluates
  revert evaluates
  decide

end

end Primitive
end Ipbm.Dataplane
