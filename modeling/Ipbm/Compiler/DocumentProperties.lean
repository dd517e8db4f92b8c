import Ipbm.Compiler.Document
import Ipbm.Lib.Traversal

/-! What a configuration is written as, member by member, and that the text of any
configuration reads back. -/

set_option autoImplicit false

namespace Ipbm.Compiler
open Lib Dataplane

namespace IpsaValue

theorem toJson_makeDict (entries : List (String × IpsaValue)) : (makeDict entries).toJson =
    .object ((OrderedMap.ofEntries entries).map fun entry => (entry.1, entry.2.toJson)) := toJson_dict _

@[simp] theorem at?_makeDict (entries : List (String × IpsaValue)) (key : String) :
    (makeDict entries).toJson.at? key =
      ((entries.find? fun entry => entry.1 = key).map Prod.snd).map toJson := by
  rw [toJson_makeDict, Json.at?, OrderedMap.find_map_value, OrderedMap.find_ofEntries]

theorem Fits.of_find {entries : List (String × IpsaValue)} (fits : (makeDict entries).Fits) {key : String}
    {entry : String × IpsaValue} (here : entries.find? (fun other => other.1 = key) = some entry) :
    entry.2.Fits := by
  have found : OrderedMap.find (OrderedMap.ofEntries entries) key = some entry.2 := by
    rw [OrderedMap.find_ofEntries, here]
    rfl
  exact fits_dict.mp fits (key, entry.2) (OrderedMap.mem_of_find found)

theorem fits_makeDict {entries : List (String × IpsaValue)} (distinct : (entries.map Prod.fst).Nodup) :
    (makeDict entries).Fits ↔ ∀ entry ∈ entries, entry.2.Fits :=
  ⟨fun fits _ member => fits.of_find (find?_of_key distinct member),
    fun all => fits_dict.mpr fun entry member => all entry (OrderedMap.mem_of_mem_ofEntries member)⟩

theorem getInt_toJson {value : Int} (fits : (integer value).Fits) :
    (integer value).toJson.getInt = some value := by
  have range := fits_integer.mp fits
  rw [toJson, Json.getInt, Int.bmod_eq_of_le (by omega) (by omega)]

@[simp] theorem getString_toJson (text : String) : (IpsaValue.string text).toJson.getString = some text := rfl

theorem elements_toJson (items : List IpsaValue) : (list items).toJson.elements = items.map toJson := by
  rw [toJson_list, Json.elements]

/-- A list that is written element by element is read element by element. -/
theorem mapM_written {α β : Type} {items : List α} {document : α → Option IpsaValue} {values : List IpsaValue}
    (written : items.mapM document = some values) (fits : (list values).Fits) (read : Json → Option β)
    (meaning : α → Option β)
    (each : ∀ item ∈ items, ∀ value, document item = some value → value.Fits →
      read value.toJson = meaning item) :
    (list values).toJson.elements.mapM read = items.mapM meaning := by
  rw [elements_toJson]
  induction items generalizing values with
  | nil =>
      cases written
      rfl
  | cons item items ih =>
      obtain ⟨first, others, here, later, rfl⟩ := mapM_cons_some written
      have parts := fits_list.mp fits
      have rest := ih later (fits_list.mpr fun value member => parts value (List.mem_cons_of_mem _ member))
        fun item member => each item (List.mem_cons_of_mem _ member)
      rw [List.map_cons, List.mapM_cons, List.mapM_cons, rest,
        each item List.mem_cons_self first here (parts first List.mem_cons_self)]

theorem mapM_documents {α β : Type} {items : List α} {document : α → IpsaValue}
    (fits : (list (items.map document)).Fits) (read : Json → Option β) (meaning : α → Option β)
    (each : ∀ item ∈ items, (document item).Fits → read (document item).toJson = meaning item) :
    (list (items.map document)).toJson.elements.mapM read = items.mapM meaning := by
  have written : items.mapM (fun item => some (document item)) = some (items.map document) :=
    mapM_eq_some_map fun item _ => rfl
  refine mapM_written written fits read meaning ?_
  intro item member value same valueFits
  cases same
  exact each item member valueFits

end IpsaValue

/-! ### No text of a document needs an escape -/

open IpsaValue

/-- The entries of a map, none of which needs an escape. -/
def PlainEntries (entries : List (String × IpsaValue)) : Prop :=
  ∀ entry ∈ entries, PlainText entry.1 ∧ entry.2.Plain

theorem plainEntries_nil : PlainEntries [] := fun _ member => absurd member List.not_mem_nil

theorem plainEntries_cons {key : String} {value : IpsaValue} {rest : List (String × IpsaValue)}
    (plainKey : PlainText key) (plainValue : value.Plain) (plainRest : PlainEntries rest) :
    PlainEntries ((key, value) :: rest) :=
  List.forall_mem_cons.mpr ⟨⟨plainKey, plainValue⟩, plainRest⟩

theorem PlainEntries.makeDict {entries : List (String × IpsaValue)} (plain : PlainEntries entries) :
    (makeDict entries).Plain :=
  .dict (OrderedMap.ordered_ofEntries _) (fun entry member =>
    (plain entry (OrderedMap.mem_of_mem_ofEntries member)).1)
    fun entry member => (plain entry (OrderedMap.mem_of_mem_ofEntries member)).2

theorem plain_map {α : Type} {items : List α} {document : α → IpsaValue}
    (each : ∀ item ∈ items, (document item).Plain) : (list (items.map document)).Plain :=
  .list (List.forall_mem_map.mpr each)

theorem plain_mapM {α : Type} {items : List α} {document : α → Option IpsaValue} {values : List IpsaValue}
    (written : items.mapM document = some values)
    (each : ∀ item ∈ items, ∀ value, document item = some value → value.Plain) :
    (list values).Plain := by
  refine .list fun value member => ?_
  obtain ⟨item, inside, same⟩ := mem_of_mapM_some written member
  exact each item inside value same

theorem plain_makeInts (values : List Int) : (makeInts values).Plain :=
  plain_map fun value _ => .integer value

theorem plain_fieldDocument (field : HeaderField) : (fieldDocument field).Plain := by
  have typeText : PlainText (fieldTypeText field.type) := by cases field.type <;> decide
  exact (plainEntries_cons (by decide) (.string typeText) <| plainEntries_cons (by decide) (.integer _) <|
    plainEntries_cons (by decide) (.integer _) <| plainEntries_cons (by decide)
      (.integer _) plainEntries_nil).makeDict

theorem plain_operandDocument (operand : Option Operand) : (operandDocument operand).Plain := by
  have tagged {type : String} {value : IpsaValue} (plainType : PlainText type) (plainValue : value.Plain) :
      (makeDict [("type", .string type), ("value", value)]).Plain :=
    (plainEntries_cons (by decide) (.string plainType) <| plainEntries_cons
      (by decide) plainValue plainEntries_nil).makeDict
  match operand with
  | none => exact .null
  | some (.constant value) => exact tagged (by decide) (.integer value)
  | some (.parameter parameterId) => exact tagged (by decide) (.integer parameterId)
  | some (.field none) => exact tagged (by decide) .null
  | some (.field (some field)) => exact tagged (by decide) (plain_fieldDocument field)
  | some (.expression op left right) =>
      have opText : PlainText (operatorText op) := by cases op <;> decide
      exact tagged (by decide) (plainEntries_cons (by decide) (.string opText) <|
        plainEntries_cons (by decide) (plain_operandDocument left) <|
        plainEntries_cons (by decide) (plain_operandDocument right) plainEntries_nil).makeDict

theorem plain_action {action : Action} {value : IpsaValue}
    (written : action.document = some value) : value.Plain := by
  obtain ⟨primitives, each, same⟩ := Option.bind_eq_some_iff.mp written
  cases same
  refine (plainEntries_cons (by decide) (.integer _) <| plainEntries_cons (by decide) (.integer _) <|
    plainEntries_cons (by decide) (plain_makeInts _) <| plainEntries_cons
      (by decide) ?_ plainEntries_nil).makeDict
  refine plain_mapM each fun assign _ value written => ?_
  obtain ⟨lvalue, _, written⟩ := Option.bind_eq_some_iff.mp written
  obtain ⟨rvalue, _, same⟩ := Option.bind_eq_some_iff.mp written
  cases same
  exact (plainEntries_cons (by decide) (plain_fieldDocument _) <|
    plainEntries_cons (by decide) (plain_operandDocument (some rvalue)) plainEntries_nil).makeDict

theorem plain_gatewayEntry (entry : GatewayEntry) : entry.document.Plain := by
  cases entry <;>
    exact (plainEntries_cons (by decide) (.string (by decide)) <|
      plainEntries_cons (by decide) (.integer _) plainEntries_nil).makeDict

theorem plain_nextTableEntry (entry : Int × GatewayEntry) : (nextTableEntryDocument entry).Plain :=
  (plainEntries_cons (by decide) (.integer _) <|
    plainEntries_cons (by decide) (plain_gatewayEntry entry.2) plainEntries_nil).makeDict

theorem plain_nextTable {table : NextTable} {value : IpsaValue}
    (written : table.document = some value) : value.Plain := by
  obtain ⟨default, _, same⟩ := Option.bind_eq_some_iff.mp written
  cases same
  exact (plainEntries_cons (by decide) (plain_gatewayEntry default) <| plainEntries_cons (by decide)
    (plain_map fun entry _ => plain_nextTableEntry entry) plainEntries_nil).makeDict

theorem plain_gateway {gateway : Gateway} {value : IpsaValue}
    (written : gateway.document = some value) : value.Plain := by
  obtain ⟨nextTable, tableWritten, same⟩ := Option.bind_eq_some_iff.mp written
  cases same
  exact (plainEntries_cons (by decide) (plain_map fun exp _ =>
    plain_operandDocument (some (.expression exp.op exp.left exp.right))) <|
    plainEntries_cons (by decide) (plain_nextTable tableWritten) plainEntries_nil).makeDict

theorem plain_keyMemory {memory : TableMemory} {value : IpsaValue}
    (written : memory.keyDocument = some value) :
    value.Plain := by
  obtain ⟨width, _, written⟩ := Option.bind_eq_some_iff.mp written
  obtain ⟨depth, _, same⟩ := Option.bind_eq_some_iff.mp written
  cases same
  have typeText : PlainText (memoryTypeText memory.type) := by cases memory.type <;> decide
  exact (plainEntries_cons (by decide) (.string typeText) <| plainEntries_cons (by decide)
    (plain_makeInts _) <|
    plainEntries_cons (by decide) (.integer _) <| plainEntries_cons (by decide)
      (.integer _) plainEntries_nil).makeDict

theorem plain_valueMemory {memory : TableMemory} {value : IpsaValue}
    (written : memory.valueDocument = some value) :
    value.Plain := by
  obtain ⟨width, _, same⟩ := Option.bind_eq_some_iff.mp written
  cases same
  exact (plainEntries_cons (by decide) (plain_makeInts _) <|
    plainEntries_cons (by decide) (.integer _) plainEntries_nil).makeDict

theorem plain_actionProc (pair : Int × Int) : (actionProcDocument pair).Plain :=
  (plainEntries_cons (by decide) (.integer _) <| plainEntries_cons (by decide)
    (.integer _) plainEntries_nil).makeDict

theorem plain_table {table : Table} {value : IpsaValue} (written : table.document = some value) :
    value.Plain := by
  obtain ⟨keyMemory, keyWritten, written⟩ := Option.bind_eq_some_iff.mp written
  obtain ⟨valueMemory, valueWritten, same⟩ := Option.bind_eq_some_iff.mp written
  cases same
  have matchText : PlainText (matchTypeText table.matchType) := by cases table.matchType <;> decide
  exact (plainEntries_cons (by decide) (.integer _) <| plainEntries_cons (by decide) (.integer _) <|
    plainEntries_cons (by decide) (.integer _) <|
    plainEntries_cons (by decide) (plain_map fun pair _ => plain_actionProc pair) <|
    plainEntries_cons (by decide) (.string matchText) <| plainEntries_cons (by decide)
      (plain_keyMemory keyWritten) <|
    plainEntries_cons (by decide) (plain_valueMemory valueWritten) <|
    plainEntries_cons (by decide) (plain_map fun field _ =>
      plain_fieldDocument field) plainEntries_nil).makeDict

theorem plain_tcamEntry (entry : ParserTcamEntry) : entry.document.Plain :=
  (plainEntries_cons (by decide) (.integer _) <| plainEntries_cons (by decide) (.integer _) <|
    plainEntries_cons (by decide) (.integer _) plainEntries_nil).makeDict

theorem plain_sramEntry (entry : ParserSramEntry) : entry.document.Plain :=
  (plainEntries_cons (by decide) (.integer _) <| plainEntries_cons (by decide) (.integer _) <|
    plainEntries_cons (by decide) (.integer _) <| plainEntries_cons (by decide) (.integer _) <|
    plainEntries_cons (by decide) (plain_map fun field _ => plain_fieldDocument field) <|
    plainEntries_cons (by decide) (.integer _) plainEntries_nil).makeDict

theorem plain_level (level : Level) : (Level.document level).Plain := plain_map fun entry _ =>
  (plainEntries_cons (by decide) (plain_tcamEntry entry.parserTcamEntry) <|
    plainEntries_cons (by decide) (plain_sramEntry entry.parserSramEntry) plainEntries_nil).makeDict

theorem plain_parserDocument (levels : List Level) : (parserDocument levels).Plain :=
  (plainEntries_cons (by decide) (.integer _) <| plainEntries_cons (by decide)
    (plain_map fun level _ => plain_level level) plainEntries_nil).makeDict

theorem plain_metadata (metadata : List MetadataEntry) : (metadataDocument metadata).Plain :=
  plain_map fun entry _ =>
    (plainEntries_cons (by decide) (.integer _) <| plainEntries_cons (by decide) (.integer _) <|
    plainEntries_cons (by decide) (.integer _) plainEntries_nil).makeDict

theorem plain_gatewayRef {gateways : List Gateway} {gateway : GatewayRef} {value : IpsaValue}
    (written : gateway.document gateways = some value) : value.Plain := by
  cases gateway with
  | stage gatewayId =>
      obtain ⟨gateway, _, written⟩ := Option.bind_eq_some_iff.mp written
      exact plain_gateway written
  | own entry => exact plain_gateway written

theorem plain_processor {ipsa : Ipsa} {processor : Processor} {value : IpsaValue}
    (written : ipsa.processorDocument processor = some value) : value.Plain := by
  obtain ⟨ref, _, written⟩ := Option.bind_eq_some_iff.mp written
  obtain ⟨gateway, gatewayWritten, written⟩ := Option.bind_eq_some_iff.mp written
  obtain ⟨matcher, tables, written⟩ := Option.bind_eq_some_iff.mp written
  obtain ⟨executor, actions, same⟩ := Option.bind_eq_some_iff.mp written
  cases same
  have plainMatcher := plain_mapM tables fun tableId _ value written => by
    obtain ⟨table, _, written⟩ := Option.bind_eq_some_iff.mp written
    exact plain_table written
  have plainExecutor := plain_mapM actions fun actionId _ value written => by
    obtain ⟨action, _, written⟩ := Option.bind_eq_some_iff.mp written
    exact plain_action written
  exact (plainEntries_cons (by decide) (.integer _) <| plainEntries_cons (by decide)
    (plain_parserDocument _) <|
    plainEntries_cons (by decide) (plain_gatewayRef gatewayWritten) <| plainEntries_cons
      (by decide) plainMatcher <|
    plainEntries_cons (by decide) plainExecutor plainEntries_nil).makeDict

theorem toList_processorKey (index : Nat) :
    (processorKey index).toList = "processor_".toList ++ P4r.intText index := by
  rw [processorKey, String.toList_append, @String.toList_ofList (P4r.intText index)]

theorem plain_processorKey (index : Nat) : PlainText (processorKey index) := by
  intro c member
  rw [toList_processorKey] at member
  rcases List.mem_append.mp member with front | number
  · have plain : PlainText "processor_" := by decide
    exact plain c front
  · rw [P4r.intText, if_neg (by omega)] at number
    have digit := Nat.isDigit_of_mem_toDigits (by decide) (by decide) number
    refine ⟨?_, ?_, ?_⟩
    · rintro rfl
      cases digit
    · rintro rfl
      cases digit
    · rw [Char.isDigit, Bool.and_eq_true, decide_eq_true_iff, decide_eq_true_iff] at digit
      have low : (48 : UInt32).toNat ≤ c.val.toNat := UInt32.le_iff_toNat_le.mp digit.1
      exact (by decide : 0x20 ≤ (48 : UInt32).toNat).trans low

theorem plain_document {ipsa : Ipsa} {isIncremental : Nat} {metadata : List MetadataEntry} {value : IpsaValue}
    (written : ipsa.document isIncremental metadata = some value) : value.Plain := by
  obtain ⟨processors, each, same⟩ := Option.bind_eq_some_iff.mp written
  cases same
  have plainProcessors : PlainEntries (processors.zipIdx.map fun entry =>
      (processorKey entry.2, entry.1)) := by
    intro entry member
    obtain ⟨⟨processor, index⟩, inside, rfl⟩ := List.mem_map.mp member
    obtain ⟨source, _, written⟩ := mem_of_mapM_some each (List.fst_mem_of_mem_zipIdx inside)
    refine ⟨plain_processorKey _, ?_⟩
    cases source with
    | none =>
        cases written
        exact .null
    | some processor => exact plain_processor written
  exact (plainEntries_cons (by decide) (.integer _) <|
    plainEntries_cons (by decide) (plain_metadata metadata) plainProcessors).makeDict

/-! ### The members of the whole document -/

theorem processorKey_injective {left right : Nat} (same : processorKey left = processorKey right) :
    left = right := by
  have texts := congrArg String.toList same
  rw [toList_processorKey, toList_processorKey] at texts
  exact Int.ofNat.inj (P4r.intText_injective (List.append_cancel_left texts))

theorem processorKey_ne {key : String} (other : key.toList.head? ≠ some 'p') (index : Nat) :
    key ≠ processorKey index := by
  rintro rfl
  rw [toList_processorKey] at other
  exact other rfl

theorem find?_processorKey {values : List IpsaValue} {index : Nat} {value : IpsaValue}
    (here : values[index]? = some value) :
    (values.zipIdx.map fun (processor, index) => (processorKey index, processor)).find?
      (fun entry => entry.1 = processorKey index) = some (processorKey index, value) := by
  have keys : (values.zipIdx.map fun (processor, index) => (processorKey index, processor)).map Prod.fst =
      (List.range values.length).map processorKey := by
    rw [List.map_map, List.range_eq_range', ← List.zipIdx_map_snd, List.map_map]
    rfl
  have unique : ((values.zipIdx.map fun (processor, index) => (processorKey index, processor)).map
      Prod.fst).Nodup := by
    rw [keys]
    exact List.nodup_range.map fun left right same => processorKey_injective same
  exact find?_of_key unique (List.mem_map.mpr ⟨(value, index), List.mem_zipIdx_iff_getElem?.mpr here, rfl⟩)

/-- Every processor is found by its number, and the metadata by its name. -/
structure DocumentMembers (ipsa : Ipsa) (metadata : List MetadataEntry)
    (processors : List IpsaValue) (value : IpsaValue) :
    Prop where
  written : ipsa.processors.mapM ipsa.entryDocument = some processors
  isMetadata : value.toJson.at? "metadata" = some (metadataDocument metadata).toJson
  isProcessor : ∀ (index : Nat) processor, processors[index]? = some processor →
    value.toJson.at? (processorKey index) = some processor.toJson
  metadataFits : value.Fits → (metadataDocument metadata).Fits
  processorFits : ∀ (index : Nat) processor, processors[index]? = some processor → value.Fits → processor.Fits

theorem document_members {ipsa : Ipsa} {isIncremental : Nat} {metadata : List MetadataEntry}
    {value : IpsaValue} (written : ipsa.document isIncremental metadata = some value) :
    ∃ processors, DocumentMembers ipsa metadata processors value := by
  obtain ⟨processors, each, same⟩ := Option.bind_eq_some_iff.mp written
  cases same
  have found {index : Nat} {processor : IpsaValue} (here : processors[index]? = some processor) :
      (("is_incremental", integer isIncremental) :: ("metadata", metadataDocument metadata) ::
        processors.zipIdx.map fun (processor, index) => (processorKey index, processor)).find?
          (fun entry => entry.1 = processorKey index) = some (processorKey index, processor) := by
    rw [List.find?_cons_of_neg (by simpa using processorKey_ne (by decide) index),
      List.find?_cons_of_neg (by simpa using processorKey_ne (by decide) index), find?_processorKey here]
  refine ⟨processors, each, by simp, ?_, ?_, fun index processor here fits => fits.of_find (found here)⟩
  · intro index processor here
    rw [at?_makeDict, found here]
    rfl
  · intro fits
    have here : (("is_incremental", integer isIncremental) :: ("metadata", metadataDocument metadata) ::
        processors.zipIdx.map fun (processor, index) => (processorKey index, processor)).find?
          (fun entry => entry.1 = "metadata") = some ("metadata", metadataDocument metadata) := by simp
    exact fits.of_find here

end Ipbm.Compiler
