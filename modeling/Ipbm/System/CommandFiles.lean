import Ipbm.Compiler.BuilderProperties
import Ipbm.Controller.UpdateFile
import Ipbm.System.TableCommands

/-! Table commands through their files. The runtime writes each command to a file, the
controller reads it, and the switch is left as if the controller had been given the command. -/

set_option autoImplicit false

namespace Ipbm.System
open Lib Compiler Dataplane
open Controller (UpdateField TableUpdate TableRequest)

/-- The numbers of tables and actions are of the type `int`. -/
def IsInt (value : Int) : Prop := -2 ^ 31 ≤ value ∧ value < 2 ^ 31

instance (value : Int) : Decidable (IsInt value) := inferInstanceAs (Decidable (_ ∧ _))

structure IntMembers (ipsa : Ipsa) : Prop where
  tables : ∀ entry ∈ ipsa.tables, IsInt entry.2.procId ∧ IsInt entry.2.id ∧
    ∀ width ∈ entry.2.keyWidthVec, IsInt width
  actions : ∀ entry ∈ ipsa.actions, IsInt entry.2.id ∧ ∀ width ∈ entry.2.actionParametersLengths, IsInt width

section

variable (inetPton : AddressFamily → List Char → Option (List UInt8)) (ipsa : Ipsa)

/-- The file that `emitUpdate` writes. -/
def commandFile (params : List String) : Option (List Char) := do
  let updater ← Rp4Runtime.emitUpdate ipsa params
  let update ← updateDocument inetPton updater
  return IpsaOutput.emit 0 (Controller.updateDocument updater.type update)

/-- What the switch is asked for. -/
def toRequest : TableRequest → Request
  | .insertSramEntry procId matcherId key value => .insertSramEntry procId matcherId key value
  | .insertTcamEntry procId matcherId key mask value => .insertTcamEntry procId matcherId key mask value

/-- One file after the other, each read by the controller and pushed. -/
def runFiles (pipeline : Pipeline) (commands : List (List String)) : Option Pipeline :=
  commands.foldlM (fun pipeline params => do
    let file ← commandFile inetPton ipsa params
    let request ← Controller.UpdateFile.extract file
    pipeline.apply (toRequest request)) pipeline

end

theorem isInt_withWidths {widths : List Int} (small : ∀ width ∈ widths, IsInt width) {texts : List String}
    {read : String × Int} (member : read ∈ Rp4Runtime.withWidths widths texts) : IsInt read.2 := by
  obtain ⟨⟨text, index⟩, _, rfl⟩ := List.mem_map.mp member
  change IsInt (widths.getD index 32)
  rw [List.getD_eq_getElem?_getD]
  cases found : widths[index]? with
  | none => exact ⟨by decide, by decide⟩
  | some width => exact small width (List.mem_of_getElem? found)

/-- The numbers in the file of a command. -/
theorem fits_updateDocument {inetPton : AddressFamily → List Char → Option (List UInt8)} {ipsa : Ipsa}
    (ints : IntMembers ipsa) {params : List String} {updater : TableUpdater}
    (emitted : Rp4Runtime.emitUpdate ipsa params = some updater) {update : TableUpdate}
    (isUpdate : updateDocument inetPton updater = some update) :
    (Controller.updateDocument updater.type update).Fits := by
  match params, emitted with
  | cmd :: tableName :: actionName :: texts, emitted =>
    obtain ⟨table, isTable, emitted⟩ := Option.bind_eq_some_iff.mp emitted
    obtain ⟨action, isAction, same⟩ := Option.bind_eq_some_iff.mp emitted
    cases same
    obtain ⟨keys, isKeys, isUpdate⟩ := Option.bind_eq_some_iff.mp isUpdate
    obtain ⟨parameters, areParameters, same⟩ := Option.bind_eq_some_iff.mp isUpdate
    cases same
    obtain ⟨procId, tableId, keyWidths⟩ := ints.tables _ (lookupName_mem isTable)
    obtain ⟨entry, listed, rfl⟩ := Option.map_eq_some_iff.mp isAction
    obtain ⟨actionId, parameterWidths⟩ := ints.actions _ (List.mem_of_find?_eq_some listed)
    have keysFit : ∀ field ∈ keys, (Controller.keyDocument field).Fits := by
      intro field member
      obtain ⟨key, inside, read⟩ := mem_of_mapM_some isKeys member
      obtain ⟨size, isSize, read⟩ := Option.bind_eq_some_iff.mp read
      obtain ⟨_, _, same⟩ := Option.bind_eq_some_iff.mp read
      cases same
      have width := eq_of_natural isSize ▸ isInt_withWidths keyWidths inside
      simpa [Controller.keyDocument, IpsaValue.fits_makeDict, Controller.fits_bytes,
        IpsaValue.fits_integer, IsInt] using width
    have parametersFit : ∀ field ∈ parameters, (Controller.parameterDocument field).Fits := by
      intro field member
      obtain ⟨parameter, inside, read⟩ := mem_of_mapM_some areParameters member
      obtain ⟨size, isSize, read⟩ := Option.bind_eq_some_iff.mp read
      obtain ⟨_, _, same⟩ := Option.bind_eq_some_iff.mp read
      cases same
      have width := eq_of_natural isSize ▸ isInt_withWidths parameterWidths inside
      simpa [Controller.parameterDocument, IpsaValue.fits_makeDict, Controller.fits_bytes,
        IpsaValue.fits_integer, IsInt] using width
    simpa [Controller.updateDocument, IpsaValue.fits_makeDict, IpsaValue.fits_list,
      IpsaValue.fits_integer] using ⟨procId, tableId, keysFit, actionId, parametersFit⟩

theorem commandFile_step {inetPton : AddressFamily → List Char → Option (List UInt8)} {ipsa : Ipsa}
    (ints : IntMembers ipsa) (pipeline : Pipeline) (params : List String) :
    (do
      let file ← commandFile inetPton ipsa params
      let request ← Controller.UpdateFile.extract file
      pipeline.apply (toRequest request)) =
    (do
      let command ← tableCommand inetPton ipsa params
      pipeline.apply command.toRequest) := by
  cases emitted : Rp4Runtime.emitUpdate ipsa params with
  | none => simp [commandFile, tableCommand, emitted]
  | some updater =>
      cases isUpdate : updateDocument inetPton updater with
      | none => simp [commandFile, tableCommand, emitted, isUpdate]
      | some update =>
          have read := Controller.UpdateFile.extract_emit (fits_updateDocument ints emitted isUpdate)
          simp only [commandFile, tableCommand, emitted, isUpdate, Option.bind_eq_bind,
            Option.bind_some, Option.pure_def, read]
          cases Controller.extract update with
          | none => rfl
          | some request => cases request <;> rfl

/-- Every session of table commands ends in the same switch, whether the commands go through
their files or not. -/
theorem runFiles_eq_runCommands {inetPton : AddressFamily → List Char → Option (List UInt8)} {ipsa : Ipsa}
    (ints : IntMembers ipsa) (pipeline : Pipeline) (commands : List (List String)) :
    runFiles inetPton ipsa pipeline commands = runCommands inetPton ipsa pipeline commands := by
  induction commands generalizing pipeline with
  | nil => rfl
  | cons params rest ih =>
      rw [runFiles, runCommands, List.foldlM_cons, List.foldlM_cons, commandFile_step ints]
      exact Option.bind_congr fun next _ => ih next

theorem byteIpsa_ints : IntMembers byteIpsa where
  tables entry member := by
    obtain rfl := List.mem_singleton.mp member
    exact ⟨by decide, by decide, by decide⟩
  actions entry member := by
    obtain rfl := List.mem_singleton.mp member
    exact ⟨by decide, by decide⟩

theorem runFiles_addAndMod :
    ∃ after, runFiles (fun _ _ => none) byteIpsa bytePipeline addAndMod = some after ∧
      lookupKey (fun _ => 0) after byteTable [7] = some (some (List.replicate 16 0)) := by
  have ran : (runCommands (fun _ _ => none) byteIpsa bytePipeline addAndMod).bind
      (fun after => lookupKey (fun _ => 0) after byteTable [7]) = some (some (List.replicate 16 0)) := by
    decide
  obtain ⟨after, ran, hits⟩ := Option.bind_eq_some_iff.mp ran
  exact ⟨after, (runFiles_eq_runCommands byteIpsa_ints _ _).trans ran, hits⟩

end Ipbm.System
