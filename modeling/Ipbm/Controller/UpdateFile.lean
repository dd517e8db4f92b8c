import Ipbm.Compiler.Runtime
import Ipbm.Controller.DesignReading
import Ipbm.Controller.ModTable

/-! The file of a table command: how the compiler writes it (`ipsa_tableupdate.h`) and how the
controller reads it (`controller/ctrl_mod_table.h`). -/

set_option autoImplicit false

namespace Ipbm.Controller
open Lib Dataplane Compiler IpsaValue

/-! ### What is written -/

def updateTypeText : TableUpdateType → String
  | .add => "ADD"
  | .mod => "MOD"
  | .del => "DEL"

def bytesDocument (bytes : List UInt8) : IpsaValue := makeInts (bytes.map fun byte => (byte.toNat : Int))

def parameterDocument (field : UpdateField) : IpsaValue :=
  makeDict [("width", .integer field.width), ("value", bytesDocument field.value)]

def keyDocument (field : UpdateField) : IpsaValue :=
  makeDict [("width", .integer field.width), ("value", bytesDocument field.value),
    ("mask", bytesDocument field.mask)]

def updateDocument (type : TableUpdateType) (update : TableUpdate) : IpsaValue :=
  makeDict [("type", .string (updateTypeText type)), ("proc_id", .integer update.procId),
    ("matcher_id", .integer update.matcherId), ("match_type", .string (matchTypeText update.matchType)),
    ("keys", .list (update.keys.map keyDocument)), ("action_id", .integer update.actionId),
    ("action_para", .list (update.actionPara.map parameterDocument))]

theorem fits_bytes (bytes : List UInt8) : (bytesDocument bytes).Fits := by
  rw [bytesDocument, makeInts, fits_list]
  intro value member
  obtain ⟨number, inside, rfl⟩ := List.mem_map.mp member
  obtain ⟨byte, _, rfl⟩ := List.mem_map.mp inside
  have small := byte.toNat_lt
  exact fits_integer.mpr (by omega)

namespace UpdateFile
open DesignFile

/-! ### What is read -/

/-- `operator[]` puts a null where a member is missing. -/
def elementsOf (json : Json) (key : String) : List Json := ((json.at? key).map Json.elements).getD []

def bytesOf (json : Json) (key : String) : Option (List UInt8) := do
  return (← (elementsOf json key).mapM Json.getInt).map fun byte => UInt8.ofNat (wrap 8 byte)

/-- The masks of exact keys are not read. -/
def exactField (json : Json) : Option UpdateField := do
  return { width := ← sizeAt json "width", value := ← bytesOf json "value" }

def ternaryField (json : Json) : Option UpdateField := do
  return ⟨← sizeAt json "width", ← bytesOf json "value", ← bytesOf json "mask"⟩

def extract (text : List Char) : Option TableRequest := do
  let json ← Json.parse text
  let _ ← stringAt json "type"
  let procId ← intAt json "proc_id"
  let matcherId ← intAt json "matcher_id"
  let actionId ← intAt json "action_id"
  let matchType := getMatchType (← stringAt json "match_type")
  let keys ← (elementsOf json "keys").mapM (if matchType = .exact then exactField else ternaryField)
  let actionPara ← (elementsOf json "action_para").mapM exactField
  Controller.extract { procId, matcherId, actionId, matchType, keys, actionPara }

/-! ### One for the other -/

theorem bytes_document (bytes : List UInt8) :
    ((bytesDocument bytes).toJson.elements.mapM Json.getInt).map (List.map fun byte => UInt8.ofNat
      (wrap 8 byte)) = some bytes := by
  have numbers := mapM_documents (fits_bytes bytes) Json.getInt some fun number _ => getInt_toJson
  rw [mapM_some] at numbers
  rw [bytesDocument, makeInts, numbers, Option.map_some, List.map_map]
  refine congrArg some ((List.map_congr_left fun byte _ => ?_).trans (List.map_id bytes))
  have small := byte.toNat_lt
  simp [wrap_natCast, Nat.mod_eq_of_lt small]

theorem bytesOf_makeDict {entries : List (String × IpsaValue)} {key : String} (bytes : List UInt8)
    (listed : (entries.find? fun entry => entry.1 = key).map Prod.snd = some (bytesDocument bytes)) :
    bytesOf (makeDict entries).toJson key = some bytes := by
  obtain ⟨numbers, read, same⟩ := Option.map_eq_some_iff.mp (bytes_document bytes)
  simp -implicitDefEqProofs [bytesOf, elementsOf, listed, read, same]

theorem exactField_parameter {field : UpdateField} (fits : (parameterDocument field).Fits) :
    exactField (parameterDocument field).toJson = some { width := field.width, value := field.value } := by
  have bounds : (integer field.width).Fits ∧ (bytesDocument field.value).Fits := by
    simpa [parameterDocument, fits_makeDict] using fits
  rw [exactField, parameterDocument, bytesOf_makeDict field.value (by simp)]
  simp -implicitDefEqProofs [sizeAt, getSize_toJson bounds.1]

theorem width_of_key {field : UpdateField} (fits : (keyDocument field).Fits) :
    sizeAt (keyDocument field).toJson "width" = some field.width := by
  have bounds : (integer field.width).Fits ∧ (bytesDocument field.value).Fits ∧
      (bytesDocument field.mask).Fits := by
    simpa [keyDocument, fits_makeDict] using fits
  simp -implicitDefEqProofs [sizeAt, keyDocument, getSize_toJson bounds.1]

theorem exactField_key {field : UpdateField} (fits : (keyDocument field).Fits) :
    exactField (keyDocument field).toJson = some { width := field.width, value := field.value } := by
  rw [exactField, width_of_key fits, keyDocument, bytesOf_makeDict field.value (by simp)]
  rfl

theorem ternaryField_key {field : UpdateField} (fits : (keyDocument field).Fits) :
    ternaryField (keyDocument field).toJson = some field := by
  rw [ternaryField, width_of_key fits, keyDocument, bytesOf_makeDict field.value (by simp),
    bytesOf_makeDict field.mask (by simp)]
  rfl

/-- An exact table has no use for the masks. -/
theorem extract_without_masks {update : TableUpdate} (exact : update.matchType = .exact) :
    Controller.extract
      { update with keys := update.keys.map fun field => { width := field.width, value := field.value } } =
      Controller.extract update := by
  simp [Controller.extract, exact, extractExact, List.map_map, Function.comp_def]

/-- The parameters have no masks. -/
theorem extract_unmasked (update : TableUpdate) :
    Controller.extract { update with
      actionPara := update.actionPara.map fun field => { width := field.width, value := field.value } } =
      Controller.extract update := by
  cases exact : update.matchType <;>
    simp [Controller.extract, exact, extractActionPara, List.map_map, Function.comp_def]

theorem plain_bytes (bytes : List UInt8) : (bytesDocument bytes).Plain := plain_makeInts _

theorem plain_update (type : TableUpdateType) (update : TableUpdate) :
    (updateDocument type update).Plain := by
  have typeText : PlainText (updateTypeText type) := by cases type <;> decide
  have matchText : PlainText (matchTypeText update.matchType) := by cases update.matchType <;> decide
  have plainKey (field : UpdateField) : (keyDocument field).Plain :=
    (plainEntries_cons (by decide) (.integer _) <| plainEntries_cons (by decide) (plain_bytes _) <|
      plainEntries_cons (by decide) (plain_bytes _) plainEntries_nil).makeDict
  have plainParameter (field : UpdateField) : (parameterDocument field).Plain :=
    (plainEntries_cons (by decide) (.integer _) <| plainEntries_cons (by decide)
      (plain_bytes _) plainEntries_nil).makeDict
  exact (plainEntries_cons (by decide) (.string typeText) <| plainEntries_cons (by decide) (.integer _) <|
    plainEntries_cons (by decide) (.integer _) <| plainEntries_cons (by decide) (.string matchText) <|
    plainEntries_cons (by decide) (plain_map fun field _ => plainKey field) <|
    plainEntries_cons (by decide) (.integer _) <|
    plainEntries_cons (by decide) (plain_map fun field _ => plainParameter field) plainEntries_nil).makeDict

theorem extract_emit {type : TableUpdateType} {update : TableUpdate}
    (fits : (updateDocument type update).Fits) :
    extract (IpsaOutput.emit 0 (updateDocument type update)) = Controller.extract update := by
  have bounds : (integer update.procId).Fits ∧ (integer update.matcherId).Fits ∧
      (list (update.keys.map keyDocument)).Fits ∧ (integer update.actionId).Fits ∧
      (list (update.actionPara.map parameterDocument)).Fits := by
    simpa [updateDocument, fits_makeDict] using fits
  obtain ⟨procFits, matcherFits, keysFit, actionFits, parametersFit⟩ := bounds
  have parameters := mapM_documents parametersFit exactField
    (fun field => some { width := field.width, value := field.value }) fun field _ => exactField_parameter
  rw [mapM_eq_some_map fun field _ => rfl] at parameters
  rw [extract, IpsaOutput.parse_emit (plain_update type update) fits 0]
  by_cases exact : update.matchType = .exact
  · have keys := mapM_documents keysFit exactField
      (fun field => some { width := field.width, value := field.value }) fun field _ => exactField_key
    rw [mapM_eq_some_map fun field _ => rfl] at keys
    rw [← extract_unmasked update, ← extract_without_masks (by exact exact)]
    simp -implicitDefEqProofs [updateDocument, stringAt, intAt, elementsOf, getInt_toJson procFits,
      getInt_toJson matcherFits, getInt_toJson actionFits, keys, parameters, exact]
  · have keys := mapM_documents keysFit ternaryField some fun field _ => ternaryField_key
    rw [mapM_some] at keys
    rw [← extract_unmasked update]
    simp -implicitDefEqProofs [updateDocument, stringAt, intAt, elementsOf, getInt_toJson procFits,
      getInt_toJson matcherFits, getInt_toJson actionFits, keys, parameters, exact]

end UpdateFile

end Ipbm.Controller
