import Ipbm.Compiler.P4Stages
import Ipbm.Dataplane.BlockCopies
import Ipbm.System.TableCommands

/-! The copies of an entry. The compiler counts the blocks of a value for the widest action and its
id; the entry carries the parameters of its own action and no id. -/

set_option autoImplicit false

namespace Ipbm.System
open Lib Compiler Compiler.P4r Dataplane
open Controller (UpdateField TableUpdate TableRequest)

/-- The copies that an insert makes: one a block, so none for a width below zero. A mask is copied by
the lengths of its key. -/
def RequestInRange (keyWidth valueWidth : Int) : TableRequest → Prop
  | .insertSramEntry _ _ key value =>
      CopiesInRange (sramWidth / 8) keyWidth.toNat key.length ∧
        CopiesInRange (sramWidth / 8) valueWidth.toNat value.length
  | .insertTcamEntry _ _ key mask value =>
      CopiesInRange (tcamWidth / 8) keyWidth.toNat key.length ∧ key.length = mask.length ∧
        CopiesInRange (sramWidth / 8) valueWidth.toNat value.length

/-- The blocks that the compiler counts for some bits. -/
def blockCount (bits unit : Nat) : Nat := (TableManager.blocks bits unit).toNat

private theorem blockCount_eq {bits unit : Nat} (positive : 0 < unit) (small : bits + (unit - 1) < 2 ^ 31) :
    blockCount bits unit = (bits + (unit - 1)) / unit := by
  have same : (bits : Int) + ((unit : Int) - 1) = ((bits + (unit - 1) : Nat) : Int) := by omega
  rw [blockCount, TableManager.blocks, same, wrapInt_of_small (by omega) (by omega)]
  rfl

private theorem blockCount_of_overflow {bits unit : Nat} (positive : 0 < unit)
    (large : 2 ^ 31 ≤ bits + (unit - 1)) (short : unit ≤ 2 ^ 31) : blockCount bits unit * unit < bits := by
  have bound : wrapInt ((bits : Int) + ((unit : Int) - 1)) ≤ bits + (unit - 1) - 2 ^ 32 := by
    have bounds := wrapInt_bounds ((bits : Int) + ((unit : Int) - 1))
    have same : wrapInt ((bits : Int) + ((unit : Int) - 1)) % (2 ^ 32 : Nat) =
        ((bits : Int) + ((unit : Int) - 1)) % (2 ^ 32 : Nat) := Int.bmod_emod
    omega
  have cut : (((wrapInt ((bits : Int) + ((unit : Int) - 1))).tdiv unit).toNat : Int) * unit ≤
      max 0 (wrapInt ((bits : Int) + ((unit : Int) - 1))) := by
    rcases Int.le_total 0 (wrapInt ((bits : Int) + ((unit : Int) - 1))) with nonneg | negative
    · rw [Int.toNat_of_nonneg (Int.tdiv_nonneg nonneg (Int.natCast_nonneg _)), max_eq_right nonneg,
        Int.tdiv_eq_ediv_of_nonneg nonneg]
      exact Int.ediv_mul_le _ (by omega)
    · have quotient : 0 ≤ (-wrapInt ((bits : Int) + ((unit : Int) - 1))).tdiv unit :=
        Int.tdiv_nonneg (by omega) (Int.natCast_nonneg _)
      rw [Int.neg_tdiv] at quotient
      rw [Int.toNat_of_nonpos (by omega)]
      simp
  have counted : ((blockCount bits unit * unit : Nat) : Int) < bits := by
    rw [Nat.cast_mul]
    exact lt_of_le_of_lt cut (by omega)
  exact_mod_cast counted

/-- Blocks for a number of bits take its bytes exactly when the count does not overflow. -/
theorem blocks_inRange_iff {unit bits : Nat} (positive : 0 < unit) (short : unit * 8 ≤ 2 ^ 31) :
    CopiesInRange unit (blockCount bits (unit * 8)) (bytesFor bits) ↔ bits + (unit * 8 - 1) < 2 ^ 31 := by
  have size : 0 < unit * 8 := by omega
  have eight : blockCount bits (unit * 8) * (unit * 8) = blockCount bits (unit * 8) * unit * 8 := by
    rw [Nat.mul_assoc]
  rw [copiesInRange_iff positive]
  constructor
  · rintro ⟨-, held⟩
    by_contra large
    have lost := blockCount_of_overflow size (Nat.le_of_not_lt large) short
    unfold bytesFor at held
    omega
  · intro small
    have count := blockCount_eq size small
    have above : bits + (unit * 8 - 1) < (blockCount bits (unit * 8) + 1) * (unit * 8) := by
      rw [count]
      exact (Nat.div_lt_iff_lt_mul size).mp (Nat.lt_succ_self _)
    have below : blockCount bits (unit * 8) * (unit * 8) ≤ bits + (unit * 8 - 1) := by
      rw [count]
      exact Nat.div_mul_le_self ..
    rw [Nat.succ_mul] at above
    rw [Nat.sub_mul]
    unfold bytesFor
    omega

/-- An action that the table offers. -/
def Offers (emitted : P4Program) (p4Table : P4Table) (action : P4Action) : Prop :=
  ∃ actionId ∈ p4Table.actionIds, emitted.actions.find? (fun action => action.id = actionId) = some action

theorem Offers.width_le {emitted : P4Program} {p4Table : P4Table} {action : P4Action}
    (offers : Offers emitted p4Table action) :
    16 + (P4Program.parameterWidths action).sum ≤ emitted.valueWidth p4Table := by
  obtain ⟨actionId, listed, found⟩ := offers
  apply Nat.add_le_add_left
  refine foldl_along (fun done widest => ∀ actionId ∈ done, ∀ action,
    emitted.actions.find? (fun action => action.id = actionId) = some action →
      (P4Program.parameterWidths action).sum ≤ widest) ?_ (fun _ member =>
        nomatch member) actionId listed action found
  intro done last widest _ before other member action isAction
  rcases List.mem_append.mp member with earlier | here
  · have bound := before other earlier action isAction
    split
    · exact Nat.le_trans bound (Nat.le_max_left ..)
    · exact bound
  · cases List.mem_singleton.mp here
    simp only [isAction]
    exact Nat.le_max_right ..

/-- A table that was compiled from P4. -/
structure CompiledTable (emitted : P4Program) (surroundings : P4Surroundings) (p4Table : P4Table)
    (table : Table) : Prop where
  widest : surroundings.valueWidth p4Table = emitted.valueWidth p4Table
  keyed : surroundings.keys p4Table ≠ []
  made : ∃ headers actions tableId,
    TableManager.makeTable headers actions tableId (emitted.printTable surroundings p4Table) = some table

/-- The bits of a block for the keys. -/
def keyUnit (table : Table) : Nat := if table.matchType = .exact then sramWidth else tcamWidth

theorem CompiledTable.memories {emitted : P4Program} {surroundings : P4Surroundings}
    {p4Table : P4Table} {table : Table} (compiled : CompiledTable emitted surroundings p4Table table) :
    table.keyMemory.width = some (TableManager.blocks table.keyWidthVec.sum (keyUnit table)) ∧
      table.valueMemory.width = some (TableManager.blocks (emitted.valueWidth p4Table) sramWidth) := by
  obtain ⟨headers, actions, tableId, made⟩ := compiled.made
  unfold TableManager.makeTable at made
  rw [if_neg (show (emitted.printTable surroundings p4Table).keys ≠ [] from compiled.keyed)] at made
  obtain ⟨fields, _, made⟩ := Option.bind_eq_some_iff.mp made
  cases made
  have width : TableManager.valueWidthOf (emitted.printTable surroundings p4Table).optionalStmts =
      some (emitted.valueWidth p4Table : Int) := by
    rw [← compiled.widest]
    rfl
  constructor
  · unfold keyUnit
    have sram : IpsaConfiguration.sramWidth = sramWidth := rfl
    have tcam : IpsaConfiguration.tcamWidth = tcamWidth := rfl
    by_cases exact : TableManager.tableMatchType (emitted.printTable surroundings p4Table).keys = .exact
    · simp only [exact, if_true, sram]
    · simp only [exact, if_false, tcam, reduceCtorEq]
  · change some ((Option.map (TableManager.blocks · sramWidth) _).getD 1) = _
    rw [width, Option.map_some, Option.getD_some]

private theorem widths_of (fields : List UpdateField) (bytes : UpdateField → List UInt8) :
    (fields.map fun field => (field.width, bytes field)).map Prod.fst = fields.map UpdateField.width := by
  rw [List.map_map]
  rfl

/-- The lengths that a request carries. -/
theorem extract_lengths {update : TableUpdate} {request : TableRequest}
    (sent : Controller.extract update = some request) :
    let keyLength := bytesFor (update.keys.map UpdateField.width).sum
    let valueLength := bytesFor (update.actionPara.map UpdateField.width).sum
    (update.matchType = .exact ∧ ∃ key value,
      request = .insertSramEntry update.procId update.matcherId key value ∧
        key.length = keyLength ∧ value.length = valueLength) ∨
      (update.matchType ≠ .exact ∧ ∃ key mask value,
        request = .insertTcamEntry update.procId update.matcherId key mask value ∧
        key.length = keyLength ∧ mask.length = keyLength ∧ value.length = valueLength) := by
  unfold Controller.extract at sent
  cases type : update.matchType <;> rw [type] at sent
  case exact =>
    obtain ⟨⟨packed, keyWidth⟩, isPacked, sent⟩ := Option.bind_eq_some_iff.mp sent
    obtain ⟨⟨paras, valueWidth⟩, arePacked, sent⟩ := Option.bind_eq_some_iff.mp sent
    obtain ⟨key, isKey, sent⟩ := Option.bind_eq_some_iff.mp sent
    obtain ⟨value, isValue, sent⟩ := Option.bind_eq_some_iff.mp sent
    cases sent
    refine .inl ⟨rfl, key, value, rfl, ?_, ?_⟩
    · rw [packUpdate_length isPacked isKey, widths_of]
    · rw [packUpdate_length arePacked isValue, widths_of]
  all_goals
    obtain ⟨⟨packed, masks, keyWidth⟩, isTernary, sent⟩ := Option.bind_eq_some_iff.mp sent
    obtain ⟨⟨paras, valueWidth⟩, arePacked, sent⟩ := Option.bind_eq_some_iff.mp sent
    obtain ⟨key, isKey, sent⟩ := Option.bind_eq_some_iff.mp sent
    obtain ⟨mask, isMask, sent⟩ := Option.bind_eq_some_iff.mp sent
    obtain ⟨value, isValue, sent⟩ := Option.bind_eq_some_iff.mp sent
    obtain ⟨⟨packedKey, width⟩, isPacked, isTernary⟩ := Option.bind_eq_some_iff.mp isTernary
    obtain ⟨⟨packedMask, _⟩, _, isTernary⟩ := Option.bind_eq_some_iff.mp isTernary
    cases sent
    cases isTernary
    refine .inr ⟨by simp, key, mask, value, rfl, ?_, ?_, ?_⟩
    · rw [packUpdate_length isPacked isKey, widths_of]
    · rw [getString_length isMask, packUpdate_width isPacked, widths_of]
    · rw [packUpdate_length arePacked isValue, widths_of]

/-- An entry of one of a table's actions. -/
structure EntryOf (emitted : P4Program) (p4Table : P4Table) (table : Table) (action : P4Action)
    (update : TableUpdate) : Prop where
  offered : Offers emitted p4Table action
  matchType : update.matchType = table.matchType
  keys : (update.keys.map UpdateField.width).map Int.ofNat = table.keyWidthVec
  paras : update.actionPara.map UpdateField.width = P4Program.parameterWidths action

theorem EntryOf.keyBits {emitted : P4Program} {p4Table : P4Table} {table : Table} {action : P4Action}
    {update : TableUpdate} (entry : EntryOf emitted p4Table table action update) :
    table.keyWidthVec.sum = ((update.keys.map UpdateField.width).sum : Nat) := by
  rw [← entry.keys, Nat.cast_list_sum]
  rfl

/-- The copies of an entry are in range exactly when the width of the key does not overflow and the
parameters of its action end in the last block that the compiler counts for the widest one. -/
theorem entry_inRange_iff {emitted : P4Program} {surroundings : P4Surroundings} {p4Table : P4Table}
    {table : Table} {action : P4Action} {update : TableUpdate} {request : TableRequest}
    (compiled : CompiledTable emitted surroundings p4Table table)
    (entry : EntryOf emitted p4Table table action update) (sent : Controller.extract update = some request) :
    ∃ keyWidth valueWidth, table.keyMemory.width = some keyWidth ∧ table.valueMemory.width = some valueWidth ∧
      (RequestInRange keyWidth valueWidth request ↔
        table.keyWidthVec.sum + (keyUnit table - 1 : Nat) < 2 ^ 31 ∧
          (blockCount (emitted.valueWidth p4Table) sramWidth - 1) * (sramWidth / 8) ≤
            bytesFor (P4Program.parameterWidths action).sum ∧
          bytesFor (P4Program.parameterWidths action).sum ≤
            blockCount (emitted.valueWidth p4Table) sramWidth * (sramWidth / 8)) := by
  obtain ⟨keyMemory, valueMemory⟩ := compiled.memories
  refine ⟨_, _, keyMemory, valueMemory, ?_⟩
  have values : CopiesInRange (sramWidth / 8)
    (TableManager.blocks (emitted.valueWidth p4Table) sramWidth).toNat
      (bytesFor (P4Program.parameterWidths action).sum) ↔ _ := copiesInRange_iff (by decide)
  have bits := entry.keyBits
  rcases extract_lengths sent with ⟨exact, key, value, rfl, keyLength, valueLength⟩ |
    ⟨ternary, key, mask, value, rfl, keyLength, maskLength, valueLength⟩
  · have keys :=
      @blocks_inRange_iff (sramWidth / 8) (update.keys.map UpdateField.width).sum (by decide) (by decide)
    rw [RequestInRange, keyLength, valueLength, entry.paras, keyUnit, if_pos (entry.matchType ▸ exact), bits]
    exact and_congr (keys.trans (by rw [← Nat.cast_add]; exact Nat.cast_lt.symm)) values
  · have keys :=
      @blocks_inRange_iff (tcamWidth / 8) (update.keys.map UpdateField.width).sum (by decide) (by decide)
    rw [RequestInRange, maskLength, keyLength, valueLength, entry.paras, keyUnit,
      if_neg (entry.matchType ▸ ternary), bits, and_iff_right rfl]
    exact and_congr (keys.trans (by rw [← Nat.cast_add]; exact Nat.cast_lt.symm)) values

/-- A count that does not overflow leaves room for the parameters of every action. -/
theorem Offers.fits {emitted : P4Program} {p4Table : P4Table} {action : P4Action}
    (offers : Offers emitted p4Table action) (small : emitted.valueWidth p4Table + (sramWidth - 1) < 2 ^ 31) :
    bytesFor (P4Program.parameterWidths action).sum ≤
      blockCount (emitted.valueWidth p4Table) sramWidth * (sramWidth / 8) := by
  have wide := ((copiesInRange_iff (by decide)).mp
    ((blocks_inRange_iff (by decide : 0 < sramWidth / 8) (by decide)).mpr small)).2
  have narrow := offers.width_le
  change bytesFor (emitted.valueWidth p4Table) ≤ blockCount (emitted.valueWidth p4Table) sramWidth *
    (sramWidth / 8) at wide
  unfold bytesFor at wide ⊢
  omega

/-- A table with an action without parameters and one with an address. -/
def addressProgram : P4Program where
  actions := [{ name := "drop", id := 0 }, { name := "set", id := 1, parameters := [("a", some 128)] }]
  pipelines := []

def addressTable : P4Table := { name := "t", actionIds := [0, 1], defaultActionId := 0 }

def addressSurroundings : P4Surroundings where
  operands _ := []
  values _ := []
  headers _ := []
  keys _ := [(.field "hdr" "h" "f", .exact)]
  maxSize _ := 1024
  valueWidth := addressProgram.valueWidth

def compiledAddressTable : Table where
  tableId := 0
  missActionId := 0
  keyWidthVec := [8]
  keyMemory := { width := some 1, depth := some 1 }
  valueMemory := { width := some 2, depth := some 1 }
  fieldInfos := [{ fieldLength := 8 }]

theorem addressTable_compiled :
    CompiledTable addressProgram addressSurroundings addressTable compiledAddressTable :=
  ⟨rfl, by decide, fun _ => some { fieldLength := 8 }, [], 0, by decide +kernel⟩

def addressUpdate (para : List UpdateField) : TableUpdate where
  procId := 0
  matcherId := 0
  actionId := 0
  matchType := .exact
  keys := [{ width := 8, value := [5] }]
  actionPara := para

/-- The widest action itself fills its blocks. -/
theorem entry_inRange_address : ∃ keyWidth valueWidth,
    compiledAddressTable.keyMemory.width = some keyWidth ∧
      compiledAddressTable.valueMemory.width = some valueWidth ∧
      RequestInRange keyWidth valueWidth (.insertSramEntry 0 0 [5] (List.replicate 16 1)) := by
  have entry : EntryOf addressProgram addressTable compiledAddressTable
    { name := "set", id := 1, parameters := [("a", some 128)] }
      (addressUpdate [{ width := 128, value := List.replicate 16 1 }]) :=
    ⟨⟨1, by decide, by decide⟩, rfl, rfl, rfl⟩
  have sent : Controller.extract (addressUpdate [{ width := 128, value := List.replicate 16 1 }]) =
      some (.insertSramEntry 0 0 [5] (List.replicate 16 1)) := by decide
  obtain ⟨keyWidth, valueWidth, key, value, inRange⟩ := entry_inRange_iff addressTable_compiled entry sent
  exact ⟨keyWidth, valueWidth, key, value, inRange.mpr (by decide)⟩

/-- An entry of the action without parameters copies a negative number of bytes to the second block. -/
theorem not_entry_inRange_drop :
    CompiledTable addressProgram addressSurroundings addressTable compiledAddressTable ∧
    EntryOf addressProgram addressTable compiledAddressTable { name := "drop", id := 0 } (addressUpdate []) ∧
    Controller.extract (addressUpdate []) = some (.insertSramEntry 0 0 [5] []) ∧
    compiledAddressTable.keyMemory.width = some 1 ∧ compiledAddressTable.valueMemory.width = some 2 ∧
    ¬ RequestInRange 1 2 (.insertSramEntry 0 0 [5] []) := by
  refine ⟨addressTable_compiled,
    ⟨⟨0, by decide, by decide⟩, rfl, rfl, rfl⟩, by decide, rfl, rfl, fun inRange => ?_⟩
  exact absurd (inRange.2.nonneg 1 (by decide)) (by decide)

end Ipbm.System
