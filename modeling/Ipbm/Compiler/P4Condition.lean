import Ipbm.Compiler.P4Parameter
import Ipbm.Lib.BinaryCounter

/-! Conditions of P4 pipelines as truth tables (`parse` of `p4r/p4_parameter.h`). A row is a bit
string with `true` for the character `1`. -/

set_option autoImplicit false

namespace Ipbm.Compiler.P4r
open Lib

/-! ### The source -/

/-- One more, from the last character on. -/
def incTemp (temp : List Bool) : List Bool := (increment temp.reverse).reverse

/-- What the counter passes before it comes to `target`, in less than `fuel` turns. -/
def countTo (target : List Bool) : Nat → List Bool → Option (List (List Bool))
  | 0, _ => none
  | fuel + 1, temp =>
      if target = incTemp temp then some [] else (countTo target fuel (incTemp temp)).map (incTemp temp :: ·)

/-- The counter stands at a row of the table when the next one is looked for. -/
def notRows (fuel : Nat) (zero : List Bool) : List (List Bool) → List Bool → Option (List (List Bool))
  | [], temp => countTo zero fuel temp
  | row :: rest, temp => do
      let passed ← countTo row fuel temp
      let later ← notRows fuel zero rest row
      return passed ++ later

/-- An empty table has no first row to take the width from. -/
def notApply (fuel : Nat) (rows : List (List Bool)) : Option (List (List Bool)) := do
  let first ← rows.head?
  notRows fuel (List.replicate first.length false) rows (List.replicate first.length true)

def andApply (first second : List (List Bool)) : List (List Bool) :=
  first.flatMap fun row => second.map (row ++ ·)

def orApply (fuel : Nat) (first second : List (List Bool)) : Option (List (List Bool)) := do
  let notSecond ← notApply fuel second
  let notFirst ← notApply fuel first
  return (andApply first notSecond ++ andApply notFirst second ++ andApply first second).mergeSort
    fun row other => decide (row ≤ other)

/-- The loops of a negation take less than `fuel` turns. -/
def P4Parameter.parse (fuel : Nat) : P4Parameter → Option (List P4Parameter × List (List Bool))
  | .null => none
  | .expression op left right =>
      if op = "d2b" then
        parse fuel right
      else if op = "not" then do
        let (atoms, rows) ← parse fuel right
        return (atoms, ← notApply fuel rows)
      else if op = "and" then do
        let (leftAtoms, leftRows) ← parse fuel left
        let (rightAtoms, rightRows) ← parse fuel right
        return (leftAtoms ++ rightAtoms, andApply leftRows rightRows)
      else if op = "or" then do
        let (leftAtoms, leftRows) ← parse fuel left
        let (rightAtoms, rightRows) ← parse fuel right
        return (leftAtoms ++ rightAtoms, ← orApply fuel leftRows rightRows)
      else
        some ([.expression op left right], [[true]])
  | parameter => some ([parameter], [[true]])

/-! ### Tables -/

/-- The rows are the bit strings of a width that satisfy a condition, in increasing order. -/
structure Tabulates (width : Nat) (holds : List Bool → Bool) (rows : List (List Bool)) : Prop where
  increasing : rows.Pairwise (· < ·)
  mem_iff : ∀ bits, bits ∈ rows ↔ bits.length = width ∧ holds bits = true

namespace Tabulates

variable {width leftWidth rightWidth fuel : Nat} {holds leftHolds rightHolds : List Bool → Bool}
  {rows leftRows rightRows : List (List Bool)}

theorem filter_assignments (width : Nat) (holds : List Bool → Bool) :
    Tabulates width holds ((assignments width).filter holds) where
  increasing := (pairwise_assignments width).filter _
  mem_iff bits := by rw [List.mem_filter, mem_assignments]

theorem unique {other : List (List Bool)} (one : Tabulates width holds rows)
    (two : Tabulates width holds other) :
    rows = other := by
  refine List.Perm.eq_of_pairwise (fun first second _ _ less more =>
    absurd more less.asymm) one.increasing two.increasing ?_
  refine (List.perm_ext_iff_of_nodup (one.increasing.imp ne_of_lt) (two.increasing.imp ne_of_lt)).mpr
    fun bits => ?_
  rw [one.mem_iff, two.mem_iff]

end Tabulates

/-! ### Negation -/

theorem incTemp_binary (width number : Nat) : incTemp (binary width number) = binary width (number + 1) := by
  rw [incTemp, binary, List.reverse_reverse, increment_binaryLE, binary]

/-- The counter passes all numbers up to its target. -/
theorem countTo_eq {width first target fuel : Nat} {temp : List Bool}
    (next : incTemp temp = binary width first)
    (before : ∀ number, first ≤ number → number < target → binary width target ≠ binary width number)
    (le : first ≤ target) (enough : target - first < fuel) :
    countTo (binary width target) fuel temp =
      some ((List.range' first (target - first)).map (binary width)) := by
  induction fuel generalizing first temp with
  | zero => exact absurd enough (Nat.not_lt_zero _)
  | succ fuel ih =>
      rw [countTo, next]
      rcases Nat.eq_or_lt_of_le le with same | less
      · rw [same, if_pos rfl, Nat.sub_self]
        rfl
      · obtain ⟨count, size⟩ : ∃ count, target - first = count + 1 := ⟨target - first - 1, by omega⟩
        have rest : target - (first + 1) = count := by omega
        rw [if_neg (before first (le_refl first) less),
          ih (incTemp_binary width first) (fun number low =>
            before number (Nat.le_of_succ_le low)) less (by omega), rest, size,
          List.range'_succ, List.map_cons, Option.map_some]

private theorem range'_around {first middle stop : Nat} (low : first ≤ middle) (high : middle < stop) :
    List.range' first (stop - first) =
      List.range' first (middle - first) ++ middle :: List.range' (middle + 1) (stop - (middle + 1)) := by
  have behind : first + (middle - first) = middle := by omega
  have size : stop - first = middle - first + (stop - (middle + 1) + 1) := by omega
  rw [size, ← List.range'_append_1, behind, List.range'_succ]

/-- Between the rows of a table the counter passes the numbers that are not in it. -/
theorem notRows_eq {width first fuel : Nat} {numbers : List Nat} {temp : List Bool}
    (increasing : numbers.Pairwise (· < ·)) (inside : ∀ number ∈ numbers, first ≤ number ∧ number < 2 ^ width)
    (next : incTemp temp = binary width first) (started : numbers ≠ [] ∨ 0 < first) (le : first ≤ 2 ^ width)
    (enough : 2 ^ width < fuel) :
    notRows fuel (binary width 0) (numbers.map (binary width)) temp =
      some (((List.range' first (2 ^ width - first)).filter (· ∉ numbers)).map (binary width)) := by
  induction numbers generalizing first temp with
  | nil =>
      have positive := started.resolve_left fun nonempty => nonempty rfl
      rw [List.map_nil, notRows, ← binary_wraps, countTo_eq next ?_ le (by omega)]
      · simp only [List.not_mem_nil, not_false_eq_true, decide_true, List.filter_true]
      · intro number low small same
        rw [binary_wraps] at same
        have zero := binary_inj (Nat.two_pow_pos width) small same
        omega
  | cons number rest ih =>
      rw [List.pairwise_cons] at increasing
      have here := inside number List.mem_cons_self
      have passed := @countTo_eq width first number fuel temp next (fun other _ less same =>
        less.ne (binary_inj here.2 (less.trans here.2) same).symm) here.1 (by omega)
      have later := ih increasing.2 (fun other member =>
        ⟨increasing.1 other member, (inside other (List.mem_cons_of_mem _ member)).2⟩)
        (incTemp_binary width number) (.inr (Nat.succ_pos number)) here.2
      have before : (List.range' first (number - first)).filter (· ∉ number :: rest) =
          List.range' first (number - first) := by
        rw [List.filter_eq_self]
        intro other member
        have low := List.mem_range'_1.mp member
        simp only [List.mem_cons, not_or, decide_eq_true_eq]
        exact ⟨by omega, fun listed => by have := increasing.1 other listed; omega⟩
      have behind : (List.range' (number + 1) (2 ^ width - (number + 1))).filter (· ∉ number :: rest) =
          (List.range' (number + 1) (2 ^ width - (number + 1))).filter (· ∉ rest) := by
        refine List.filter_congr fun other member => ?_
        have low := List.mem_range'_1.mp member
        have ne : other ≠ number := by omega
        simp only [List.mem_cons, ne, false_or]
      rw [List.map_cons, notRows, passed, Option.bind_eq_bind, Option.bind_some, later,
        range'_around here.1 here.2, List.filter_append, before, List.filter_cons_of_neg (by simp),
        behind, List.map_append]
      rfl

namespace Tabulates

variable {width leftWidth rightWidth fuel : Nat} {holds leftHolds rightHolds : List Bool → Bool}
  {rows leftRows rightRows : List (List Bool)}

private theorem numbers (table : Tabulates width holds rows) :
    rows = ((List.range (2 ^ width)).filter (holds ∘ binary width)).map (binary width) := by
  rw [table.unique (filter_assignments width holds), assignments, List.filter_map]

theorem notApply (table : Tabulates width holds rows) (nonempty : rows ≠ []) (enough : 2 ^ width < fuel) :
    ∃ notRows, P4r.notApply fuel rows = some notRows ∧ Tabulates width (fun bits => !holds bits) notRows := by
  obtain ⟨first, rest, split⟩ := List.exists_cons_of_ne_nil nonempty
  have length : first.length = width := ((table.mem_iff first).mp (split ▸ List.mem_cons_self)).1
  have listed := table.numbers
  have start : incTemp (List.replicate width true) = binary width 0 := by
    rw [← binary_ones, incTemp_binary, Nat.sub_add_cancel (Nat.two_pow_pos width), binary_wraps]
  have done := notRows_eq (List.pairwise_lt_range.filter (holds ∘ binary width)) (fun number member =>
    ⟨Nat.zero_le number, List.mem_range.mp (List.mem_filter.mp member).1⟩) start
    (.inl fun empty => nonempty (by rw [listed, empty, List.map_nil])) (Nat.zero_le _) enough
  refine ⟨_, ?_, filter_assignments width _⟩
  rw [P4r.notApply, split, List.head?_cons, Option.bind_eq_bind, Option.bind_some, length,
    ← split, ← binary_zero]
  nth_rewrite 1 [listed]
  rw [done, assignments, List.filter_map, Nat.sub_zero, ← List.range_eq_range']
  refine congrArg (fun numbers => some (List.map (binary width) numbers))
    (List.filter_congr fun number member => ?_)
  simp only [List.mem_filter, member, true_and, Function.comp_apply, Bool.not_eq_true, Bool.decide_eq_false]

private theorem append_lt {first second : List Bool} (length : first.length = second.length)
    (less : first < second) (firstRest secondRest : List Bool) :
    first ++ firstRest < second ++ secondRest := by
  induction first generalizing second with
  | nil =>
      cases second with
      | nil => exact absurd less (lt_irrefl _)
      | cons bit rest => cases length
  | cons bit rest ih =>
      cases second with
      | nil => cases length
      | cons other others =>
          rw [List.cons_append, List.cons_append, List.cons_lt_cons_iff]
          rcases List.cons_lt_cons_iff.mp less with here | ⟨same, later⟩
          · exact .inl here
          · exact .inr ⟨same, ih (Nat.succ.inj length) later⟩

private theorem append_lt_left {first second : List Bool} (less : first < second) (front : List Bool) :
    front ++ first < front ++ second := by
  induction front with
  | nil => exact less
  | cons bit rest ih => exact List.cons_lt_cons_iff.mpr (.inr ⟨rfl, ih⟩)

/-- A condition on the first bits and one on those behind them. -/
def both (width : Nat) (first second : List Bool → Bool) (bits : List Bool) : Bool :=
  first (bits.take width) && second (bits.drop width)

theorem andApply (left : Tabulates leftWidth leftHolds leftRows)
    (right : Tabulates rightWidth rightHolds rightRows) :
    Tabulates (leftWidth + rightWidth) (both leftWidth leftHolds rightHolds)
      (P4r.andApply leftRows rightRows) where
  increasing := by
    refine List.pairwise_flatMap.mpr ⟨fun row _ => List.pairwise_map.mpr (right.increasing.imp fun less =>
      append_lt_left less row), left.increasing.imp_of_mem fun {first second} member other less => ?_⟩
    intro bits isFirst others isSecond
    obtain ⟨firstRest, _, rfl⟩ := List.mem_map.mp isFirst
    obtain ⟨secondRest, _, rfl⟩ := List.mem_map.mp isSecond
    exact append_lt (((left.mem_iff first).mp member).1.trans
      ((left.mem_iff second).mp other).1.symm) less _ _
  mem_iff bits := by
    unfold P4r.andApply both
    rw [List.mem_flatMap, Bool.and_eq_true]
    constructor
    · intro ⟨row, isRow, member⟩
      obtain ⟨rest, isRest, rfl⟩ := List.mem_map.mp member
      obtain ⟨length, holds⟩ := (left.mem_iff row).mp isRow
      obtain ⟨restLength, restHolds⟩ := (right.mem_iff rest).mp isRest
      rw [← length, List.length_append, restLength, List.take_left, List.drop_left]
      exact ⟨rfl, holds, restHolds⟩
    · intro ⟨length, holds, restHolds⟩
      refine ⟨bits.take leftWidth, (left.mem_iff _).mpr ⟨?_, holds⟩, List.mem_map.mpr ⟨bits.drop leftWidth,
        (right.mem_iff _).mpr ⟨?_, restHolds⟩, List.take_append_drop _ _⟩⟩
      · rw [List.length_take, length, Nat.min_eq_left (Nat.le_add_right _ _)]
      · rw [List.length_drop, length, Nat.add_sub_cancel_left]

/-- A row satisfies one of two conditions in exactly one of three ways. -/
theorem orApply (left : Tabulates leftWidth leftHolds leftRows)
    (right : Tabulates rightWidth rightHolds rightRows)
    (leftSome : leftRows ≠ []) (rightSome : rightRows ≠ []) (leftEnough : 2 ^ leftWidth < fuel)
    (rightEnough : 2 ^ rightWidth < fuel) : ∃ rows, P4r.orApply fuel leftRows rightRows = some rows ∧
      Tabulates (leftWidth + rightWidth) (fun bits => leftHolds (bits.take leftWidth) || rightHolds
        (bits.drop leftWidth)) rows := by
  obtain ⟨notRight, isNotRight, notRightTable⟩ := right.notApply rightSome rightEnough
  obtain ⟨notLeft, isNotLeft, notLeftTable⟩ := left.notApply leftSome leftEnough
  have onlyLeft := left.andApply notRightTable
  have onlyRight := notLeftTable.andApply right
  have inBoth := left.andApply right
  refine ⟨_, by rw [P4r.orApply, isNotRight, isNotLeft]; rfl, ?_, fun bits => ?_⟩
  · have sorted := @List.pairwise_mergeSort (List Bool) (fun row other => decide (row ≤ other))
      (fun _ _ _ less more => by simp only [decide_eq_true_eq] at less more ⊢; exact less.trans more)
      (fun row other => by simpa using le_total row other)
      (P4r.andApply leftRows notRight ++ P4r.andApply notLeft rightRows ++ P4r.andApply leftRows rightRows)
    have distinct : (P4r.andApply leftRows notRight ++ P4r.andApply notLeft rightRows ++
        P4r.andApply leftRows rightRows).Nodup := by
      refine List.nodup_append'.mpr ⟨List.nodup_append'.mpr ⟨onlyLeft.increasing.imp ne_of_lt,
        onlyRight.increasing.imp ne_of_lt, ?_⟩, inBoth.increasing.imp ne_of_lt, ?_⟩
      · intro bits one two
        have first := ((onlyLeft.mem_iff bits).mp one).2
        have second := ((onlyRight.mem_iff bits).mp two).2
        simp_all [both]
      · intro bits one two
        have second := ((inBoth.mem_iff bits).mp two).2
        rcases List.mem_append.mp one with one | one
        · have first := ((onlyLeft.mem_iff bits).mp one).2
          simp_all [both]
        · have first := ((onlyRight.mem_iff bits).mp one).2
          simp_all [both]
    refine (sorted.and ((List.mergeSort_perm _ _).nodup_iff.mpr distinct)).imp fun less => ?_
    exact lt_of_le_of_ne (of_decide_eq_true less.1) less.2
  · rw [List.mem_mergeSort, List.mem_append, List.mem_append, onlyLeft.mem_iff, onlyRight.mem_iff,
      inBoth.mem_iff]
    simp only [both]
    cases leftHolds (bits.take leftWidth) <;> cases rightHolds (bits.drop leftWidth) <;> simp

end Tabulates

/-! ### Conditions -/

namespace P4Parameter

def connectives : List String := ["d2b", "not", "and", "or"]

/-- A boolean expression: connectives over atoms, which are all other parameters. -/
inductive Condition : P4Parameter → Prop where
  | atom {parameter} : parameter ≠ .null →
      (∀ op left right, parameter = .expression op left right → op ∉ connectives) →
      Condition parameter
  | d2b {left right} : Condition right → Condition (.expression "d2b" left right)
  | not {left right} : Condition right → Condition (.expression "not" left right)
  | and {left right} : Condition left → Condition right → Condition (.expression "and" left right)
  | or {left right} : Condition left → Condition right → Condition (.expression "or" left right)

/-- The occurrences of atoms from left to right. -/
def atoms : P4Parameter → List P4Parameter
  | .expression op left right =>
      if op = "d2b" ∨ op = "not" then atoms right
      else if op = "and" ∨ op = "or" then atoms left ++ atoms right
      else [.expression op left right]
  | parameter => [parameter]

/-- The value of an expression for one bit for each occurrence of an atom. -/
def holds : P4Parameter → List Bool → Bool
  | .expression op left right, bits =>
      if op = "d2b" then holds right bits
      else if op = "not" then !holds right bits
      else if op = "and" then
        holds left (bits.take left.atoms.length) && holds right (bits.drop left.atoms.length)
      else if op = "or" then
        holds left (bits.take left.atoms.length) || holds right (bits.drop left.atoms.length)
      else bits = [true]
  | _, bits => bits = [true]

/-- A condition has a row that satisfies it and one that does not. -/
theorem Condition.undecided {parameter : P4Parameter} (condition : Condition parameter) (value : Bool) :
    ∃ bits, bits.length = parameter.atoms.length ∧ parameter.holds bits = value := by
  induction condition generalizing value with
  | @atom parameter present plain =>
      refine ⟨[value], ?_⟩
      cases parameter with
      | expression op left right =>
          have other := plain op left right rfl
          simp only [connectives, List.mem_cons, List.not_mem_nil, or_false, not_or] at other
          cases value <;> simp [atoms, holds, other]
      | null => exact absurd rfl present
      | _ => cases value <;> exact ⟨rfl, rfl⟩
  | d2b _ ih =>
      obtain ⟨bits, length, same⟩ := ih value
      exact ⟨bits, by simpa [atoms] using length, by simpa [holds] using same⟩
  | not _ ih =>
      obtain ⟨bits, length, same⟩ := ih !value
      exact ⟨bits, by simpa [atoms] using length, by simp [holds, same]⟩
  | and _ _ leftIH rightIH =>
      obtain ⟨first, firstLength, firstSame⟩ := leftIH value
      obtain ⟨second, secondLength, secondSame⟩ := rightIH value
      refine ⟨first ++ second, by simp [atoms, firstLength, secondLength], ?_⟩
      simp [holds, ← firstLength, firstSame, secondSame]
  | or _ _ leftIH rightIH =>
      obtain ⟨first, firstLength, firstSame⟩ := leftIH value
      obtain ⟨second, secondLength, secondSame⟩ := rightIH value
      refine ⟨first ++ second, by simp [atoms, firstLength, secondLength], ?_⟩
      simp [holds, ← firstLength, firstSame, secondSame]

private theorem Condition.nonempty {parameter : P4Parameter} (condition : Condition parameter)
    {rows : List (List Bool)} (table : Tabulates parameter.atoms.length parameter.holds rows) :
    rows ≠ [] := by
  obtain ⟨bits, length, holds⟩ := condition.undecided true
  exact List.ne_nil_of_mem ((table.mem_iff bits).mpr ⟨length, holds⟩)

private theorem Condition.parse_tabulates {parameter : P4Parameter}
    (condition : Condition parameter) {fuel : Nat} (enough : 2 ^ parameter.atoms.length < fuel) :
    ∃ rows, parameter.parse fuel = some (parameter.atoms, rows) ∧
      Tabulates parameter.atoms.length parameter.holds rows := by
  induction condition with
  | @atom parameter present plain =>
      have single : ∀ holds : List Bool → Bool, (∀ bits, holds bits = decide (bits = [true])) →
          Tabulates 1 holds [[true]] := by
        intro holds is
        refine ⟨List.pairwise_singleton _ _, fun bits => ?_⟩
        rw [List.mem_singleton, is, decide_eq_true_eq]
        exact ⟨fun same => ⟨same ▸ rfl, same⟩, And.right⟩
      cases parameter with
      | expression op left right =>
          have other := plain op left right rfl
          simp only [connectives, List.mem_cons, List.not_mem_nil, or_false, not_or] at other
          have own : atoms (.expression op left right) = [.expression op left right] := by simp [atoms, other]
          rw [own]
          exact ⟨[[true]], by simp [parse, other], single _ fun bits => by simp [holds, other]⟩
      | null => exact absurd rfl present
      | _ => exact ⟨[[true]], rfl, single _ fun _ => rfl⟩
  | @d2b left right condition ih =>
      have own : atoms (.expression "d2b" left right) = atoms right := by simp [atoms]
      rw [own] at enough ⊢
      obtain ⟨rows, parsed, table⟩ := ih enough
      exact ⟨rows, by simpa [parse] using parsed, table⟩
  | @not left right condition ih =>
      have own : atoms (.expression "not" left right) = atoms right := by simp [atoms]
      rw [own] at enough ⊢
      obtain ⟨rows, parsed, table⟩ := ih enough
      obtain ⟨notRows, negated, notTable⟩ := table.notApply (condition.nonempty table) enough
      exact ⟨notRows, by simp [parse, parsed, negated], notTable⟩
  | @and left right leftCondition rightCondition leftIH rightIH =>
      have own : atoms (.expression "and" left right) = atoms left ++ atoms right := by simp [atoms]
      rw [own, List.length_append] at enough ⊢
      obtain ⟨leftRows, leftParsed, leftTable⟩ :=
        leftIH ((Nat.pow_le_pow_right (by decide) (Nat.le_add_right _ _)).trans_lt enough)
      obtain ⟨rightRows, rightParsed, rightTable⟩ :=
        rightIH ((Nat.pow_le_pow_right (by decide) (Nat.le_add_left _ _)).trans_lt enough)
      exact ⟨_, by simp [parse, leftParsed, rightParsed], leftTable.andApply rightTable⟩
  | @or left right leftCondition rightCondition leftIH rightIH =>
      have own : atoms (.expression "or" left right) = atoms left ++ atoms right := by simp [atoms]
      rw [own, List.length_append] at enough ⊢
      have leftEnough := (Nat.pow_le_pow_right (by decide)
        (Nat.le_add_right left.atoms.length right.atoms.length)).trans_lt enough
      have rightEnough := (Nat.pow_le_pow_right (by decide)
        (Nat.le_add_left right.atoms.length left.atoms.length)).trans_lt enough
      obtain ⟨leftRows, leftParsed, leftTable⟩ := leftIH leftEnough
      obtain ⟨rightRows, rightParsed, rightTable⟩ := rightIH rightEnough
      obtain ⟨rows, joined, table⟩ := leftTable.orApply rightTable (leftCondition.nonempty leftTable)
        (rightCondition.nonempty rightTable) leftEnough rightEnough
      exact ⟨rows, by simp [parse, leftParsed, rightParsed, joined], table⟩

/-- With enough turns of its loops the parse of a condition returns its atoms and its truth table,
which is neither empty nor full. -/
theorem parse_truthTable {parameter : P4Parameter} (condition : Condition parameter) :
    ∃ rows, (∃ turns, ∀ fuel, turns < fuel → parameter.parse fuel = some (parameter.atoms, rows)) ∧
      (∀ bits, bits ∈ rows ↔ bits.length = parameter.atoms.length ∧ parameter.holds bits = true) ∧
      rows.Pairwise (· < ·) ∧ rows ≠ [] ∧ ∃ bits, bits.length = parameter.atoms.length ∧ bits ∉ rows := by
  have table := Tabulates.filter_assignments parameter.atoms.length parameter.holds
  refine ⟨_, ⟨2 ^ parameter.atoms.length, fun fuel enough => ?_⟩, table.mem_iff, table.increasing,
    condition.nonempty table, ?_⟩
  · obtain ⟨rows, parsed, own⟩ := condition.parse_tabulates enough
    rw [parsed, own.unique table]
  · obtain ⟨bits, length, fails⟩ := condition.undecided false
    refine ⟨bits, length, fun listed => ?_⟩
    have holds := ((table.mem_iff bits).mp listed).2
    rw [fails] at holds
    cases holds

/-- A header that is valid, or a comparison that fails. -/
def validOrNot : P4Parameter :=
  .expression "or" (.expression "d2b" .null (.field ["ipv4", "$valid$"]))
    (.expression "not" .null (.expression "==" (.field ["meta", "mark"]) (.hexstr "0x01")))

theorem parse_truthTable_validOrNot :
    ∃ rows, (∃ turns, ∀ fuel, turns < fuel → validOrNot.parse fuel = some (validOrNot.atoms, rows)) ∧
      (∀ bits, bits ∈ rows ↔ bits.length = validOrNot.atoms.length ∧ validOrNot.holds bits = true) ∧
      rows.Pairwise (· < ·) ∧ rows ≠ [] ∧ ∃ bits, bits.length = validOrNot.atoms.length ∧ bits ∉ rows :=
  parse_truthTable (.or (.d2b (.atom (by decide) (by simp)))
    (.not (.atom (by decide) (by simp [connectives]))))

end P4Parameter

end Ipbm.Compiler.P4r
