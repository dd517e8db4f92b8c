import Ipbm.Compiler.DocumentProperties
import Ipbm.Controller.DesignFile

/-! The controller reads from a configuration file what the configuration says. -/

set_option autoImplicit false

namespace Ipbm.Controller
open Lib Dataplane Compiler IpsaValue

namespace DesignFile

theorem getSize_toJson {size : Int} (fits : (integer size).Fits) :
    getSize (integer size).toJson = natural size := by
  rw [getSize, getInt_toJson fits]
  rfl

/-! ### Names -/

@[simp] theorem getFieldType_text (type : FieldType) : getFieldType (fieldTypeText type) = type := by
  cases type <;> rfl

@[simp] theorem getMatchType_text (type : MatchType) : getMatchType (matchTypeText type) = type := by
  cases type <;> rfl

@[simp] theorem getRelationCode_text (op : Rp4Operator) :
    getRelationCode (operatorText op) = Controller.getRelationCode op := by
  cases op <;> rfl

@[simp] theorem getOpCode_text (op : Rp4Operator) :
    getOpCode (operatorText op) = Controller.getOpCode op := by
  cases op <;> rfl

/-! ### Parser -/

theorem fieldInfo_document {field : HeaderField} (fits : (fieldDocument field).Fits) :
    fieldInfo (fieldDocument field).toJson = some (sentField field) := by
  have bounds : (integer field.headerId).Fits ∧ (integer field.fieldInternalOffset).Fits ∧
      (integer field.fieldLength).Fits := by
    simpa [fieldDocument, fits_makeDict] using fits
  simp [fieldInfo, fieldDocument, intAt, stringAt, getInt_toJson, bounds, sentField, wrap_natCast]

theorem fieldInfos_document {fields : List HeaderField} (fits : (list (fields.map fieldDocument)).Fits) :
    (list (fields.map fieldDocument)).toJson.elements.mapM fieldInfo = some (fields.map sentField) := by
  rw [mapM_documents fits fieldInfo (fun field => some (sentField field)) fun field _ => fieldInfo_document]
  exact mapM_eq_some_map fun field _ => rfl

theorem parserEntry_document {entry : LevelEntry} (fits : entry.document.Fits) :
    parserEntry entry.document.toJson = some (modParserEntry entry) := by
  have bounds : entry.parserTcamEntry.document.Fits ∧ entry.parserSramEntry.document.Fits := by
    simpa [LevelEntry.document, fits_makeDict] using fits
  have tcam : (integer entry.parserTcamEntry.currentState).Fits ∧ (integer entry.parserTcamEntry.entry).Fits ∧
      (integer entry.parserTcamEntry.mask).Fits := by
    simpa [ParserTcamEntry.document, fits_makeDict] using bounds.1
  have sram : (integer entry.parserSramEntry.headerId).Fits ∧
    (integer entry.parserSramEntry.headerLength).Fits ∧
      (integer entry.parserSramEntry.nextState).Fits ∧
      (integer entry.parserSramEntry.transitionFields.length).Fits ∧
      (list (entry.parserSramEntry.transitionFields.map fieldDocument)).Fits ∧
      (integer entry.parserSramEntry.acceptDrop).Fits := by
    simpa [ParserSramEntry.document, fits_makeDict] using bounds.2
  obtain ⟨headerId, headerLength, nextState, number, fields, acceptDrop⟩ := sram
  simp -implicitDefEqProofs [parserEntry, LevelEntry.document, ParserTcamEntry.document,
    ParserSramEntry.document, intAt, elementsAt, getInt_toJson, tcam, headerId, headerLength,
    nextState, number, acceptDrop, fieldInfos_document fields,
    modParserEntry, wrap_natCast]

theorem extractLevel_document {level : Level} (fits : (Level.document level).Fits) (procId : Int)
    (levelId : Nat) :
    extractLevel procId ((Level.document level).toJson, levelId) =
      some (level.map fun entry => .modParserEntry procId levelId (modParserEntry entry)) := by
  have entries := mapM_documents fits parserEntry (fun entry => some (modParserEntry entry))
    fun entry _ => parserEntry_document
  rw [mapM_eq_some_map fun entry _ => rfl] at entries
  simp [extractLevel, Level.document, entries]

theorem extractParser_document {levels : List Level} (fits : (parserDocument levels).Fits) (procId : Int) :
    extractParser (parserDocument levels).toJson procId = some (Controller.extractParser levels procId) := by
  have bounds : (integer levels.length).Fits ∧ (list (levels.map Level.document)).Fits := by
    simpa [parserDocument, fits_makeDict] using fits
  obtain ⟨number, inside⟩ := bounds
  have each : ∀ level ∈ levels, (Level.document level).Fits := fun level member =>
    fits_list.mp inside _ (List.mem_map_of_mem member)
  have entries : (list (levels.map Level.document)).toJson.elements.zipIdx.mapM
      (extractLevel procId) = some (levels.zipIdx.map fun level =>
        level.1.map fun entry => .modParserEntry procId level.2 (modParserEntry entry)) := by
    rw [elements_toJson, List.map_map, List.zipIdx_map, List.mapM_map]
    exact mapM_eq_some_map fun level member =>
      extractLevel_document (each level.1 (List.fst_mem_of_mem_zipIdx member)) procId level.2
  rw [Controller.extractParser, List.flatMap_def]
  simp -implicitDefEqProofs [extractParser, parserDocument, sizeAt, elementsAt,
    getSize_toJson number, entries]

/-! ### Gateway -/

theorem setGateParam_document {operand : Option Operand} (fits : (operandDocument operand).Fits) :
    setGateParam (operandDocument operand).toJson = Controller.setGateParam (operandDoc operand) := by
  match operand with
  | none =>
      simp [setGateParam, operandDocument, operandDoc, stringAt, toJson, Json.at?, Controller.setGateParam]
  | some (.constant value) =>
      have bound :
          (integer value).Fits := by simpa [operandDocument, Operand.document, fits_makeDict] using fits
      simp -implicitDefEqProofs [setGateParam, operandDocument, Operand.document, operandDoc,
        stringAt, intAt, getParameterType, getInt_toJson bound, Controller.setGateParam, wrap]
  | some (.parameter
    parameterId) => simp [setGateParam, operandDocument, Operand.document, operandDoc, stringAt,
    getParameterType, Controller.setGateParam]
  | some (.field none) =>
      have missing : fieldInfo IpsaValue.null.toJson = none := rfl
      simp [setGateParam, operandDocument, Operand.document, operandDoc, stringAt, getParameterType,
        Controller.setGateParam, missing]
  | some (.field (some field)) =>
      have bound : (fieldDocument
        field).Fits := by simpa [operandDocument, Operand.document, fits_makeDict] using fits
      simp -implicitDefEqProofs [setGateParam, operandDocument, Operand.document, operandDoc,
        stringAt, getParameterType, fieldInfo_document bound, Controller.setGateParam]
  | some (.expression op left right) =>
      simp [setGateParam, operandDocument, Operand.document, operandDoc, stringAt, getParameterType,
        Controller.setGateParam]

theorem relationExp_document {exp : Expression} (fits : exp.document.Fits) :
    relationExp exp.document.toJson = Controller.relationExp (exp.op, operandDoc exp.left,
      operandDoc exp.right) := by
  have bounds : (operandDocument exp.left).Fits ∧ (operandDocument exp.right).Fits := by
    simpa [Expression.document, Operand.document, fits_makeDict] using fits
  simp [relationExp, Expression.document, Operand.document, stringAt, setGateParam_document bounds.1,
    setGateParam_document bounds.2, Controller.relationExp]

theorem gateEntry_document {entry : GatewayEntry} (fits : entry.document.Fits) :
    gateEntry entry.document.toJson = some entry.toGateEntry := by
  cases entry with
  | table tableId matcherId =>
      have bound : (integer matcherId).Fits := by simpa [GatewayEntry.document, fits_makeDict] using fits
      simp [gateEntry, GatewayEntry.document, stringAt, intAt, getInt_toJson bound,
        getGateEntryType, GatewayEntry.toGateEntry]
  | stage stageId =>
      have bound : (integer stageId).Fits := by simpa [GatewayEntry.document, fits_makeDict] using fits
      simp [gateEntry, GatewayEntry.document, stringAt, intAt, getInt_toJson bound,
        getGateEntryType, GatewayEntry.toGateEntry]

theorem resMapEntry_document {entry : Int × GatewayEntry} (fits : (nextTableEntryDocument entry).Fits) :
    resMapEntry (nextTableEntryDocument entry).toJson = some (.modResMap entry.1 entry.2.toGateEntry) := by
  have bounds : (integer entry.1).Fits ∧ entry.2.document.Fits := by
    simpa [nextTableEntryDocument, fits_makeDict] using fits
  simp -implicitDefEqProofs [resMapEntry, nextTableEntryDocument, intAt, getInt_toJson bounds.1,
    gateEntry_document bounds.2]

theorem extractGateway_document {gateway : Compiler.Gateway} {value : IpsaValue}
    (written : gateway.document = some value) (fits : value.Fits) :
    ∃ doc, gateway.toIpsaValue = some doc ∧ extractGateway value.toJson = Controller.extractGateway doc := by
  obtain ⟨nextTable, tableWritten, same⟩ := Option.bind_eq_some_iff.mp written
  obtain ⟨default, isDefault, sameTable⟩ := Option.bind_eq_some_iff.mp tableWritten
  cases same
  cases sameTable
  have bounds : (list (gateway.expressions.map Expression.document)).Fits ∧ default.document.Fits ∧
      (list (gateway.nextTable.entries.map nextTableEntryDocument)).Fits := by
    simpa [fits_makeDict] using fits
  obtain ⟨expsFit, defaultFits, entriesFit⟩ := bounds
  have exps := mapM_documents expsFit relationExp
    (fun exp => Controller.relationExp (exp.op, operandDoc exp.left, operandDoc exp.right))
    fun exp _ => relationExp_document
  have entries := mapM_documents entriesFit resMapEntry
    (fun entry => some (.modResMap entry.1 entry.2.toGateEntry)) fun entry _ => resMapEntry_document
  rw [mapM_eq_some_map fun entry _ => rfl] at entries
  refine ⟨_, by rw [Compiler.Gateway.toIpsaValue, isDefault]; rfl, ?_⟩
  simp -implicitDefEqProofs [extractGateway, elementsAt, exps, entries, gateEntry_document defaultFits,
    Controller.extractGateway, List.mapM_map]
  rfl

/-! ### Tables -/

theorem mapM_some {α : Type} (items : List α) : items.mapM some = some items := by
  have each : ∀ item ∈ items, some item = some (id item) := fun item _ => rfl
  simpa using mapM_eq_some_map each

theorem configBytes_document {memory : TableMemory} {width : Int}
    (isWidth : memory.width = some width) {size : Nat}
    (isSize : natural width = some size) (depth : Nat) (entries : List (String × IpsaValue))
    (config : (entries.find? fun entry => entry.1 = "config").map Prod.snd =
      some (makeInts memory.config)) (fits : (makeInts memory.config).Fits) :
    configBytes (makeDict entries).toJson (depth * size) = Controller.configBytes memory depth := by
  have blocks : (makeInts memory.config).toJson.elements.mapM Json.getInt = some memory.config := by
    rw [makeInts, mapM_documents fits Json.getInt some fun block _ => getInt_toJson, mapM_some]
  simp -implicitDefEqProofs [configBytes, elementsAt, config, blocks, Controller.configBytes, isWidth, isSize]

theorem actionProc_document {pair : Int × Int} (fits : (actionProcDocument pair).Fits) :
    actionProc (actionProcDocument pair).toJson = some pair := by
  have bounds : (integer pair.1).Fits ∧ (integer pair.2).Fits := by
    simpa [actionProcDocument, fits_makeDict] using fits
  simp -implicitDefEqProofs [actionProc, actionProcDocument, intAt, getInt_toJson bounds.1,
    getInt_toJson bounds.2]

theorem extractThread_document {table : Table} {value : IpsaValue} (written : table.document = some value)
    (fits : value.Fits) (procId : Int) :
    extractThread procId value.toJson = Controller.extractThread procId table := by
  obtain ⟨keyMemory, keyWritten, written⟩ := Option.bind_eq_some_iff.mp written
  obtain ⟨valueMemory, valueWritten, same⟩ := Option.bind_eq_some_iff.mp written
  cases same
  obtain ⟨keyWidth, isKeyWidth, keyWritten⟩ := Option.bind_eq_some_iff.mp keyWritten
  obtain ⟨depth, isDepth, sameKey⟩ := Option.bind_eq_some_iff.mp keyWritten
  obtain ⟨valueWidth, isValueWidth, sameValue⟩ := Option.bind_eq_some_iff.mp valueWritten
  cases sameKey
  cases sameValue
  have bounds : (integer table.id).Fits ∧ (integer table.missActionId).Fits ∧
    (integer table.noTable.toNat).Fits ∧
      (list (table.actionToProc.map actionProcDocument)).Fits ∧
      ((makeInts table.keyMemory.config).Fits ∧ (integer keyWidth).Fits ∧ (integer depth).Fits) ∧
      ((makeInts table.valueMemory.config).Fits ∧ (integer valueWidth).Fits) ∧
      (list (table.fieldInfos.map fieldDocument)).Fits := by
    simpa [fits_makeDict] using fits
  obtain ⟨idFits, missFits, noTableFits, pairsFit, ⟨keyFits, keyWidthFits, depthFits⟩,
      ⟨valueFits, valueWidthFits⟩, fieldsFit⟩ :=
    bounds
  have pairs := mapM_documents pairsFit actionProc some fun pair _ => actionProc_document
  rw [mapM_some] at pairs
  have keys := fun size isSize rows => @configBytes_document _ _ isKeyWidth size isSize rows
    [("type", .string (memoryTypeText table.keyMemory.type)),
    ("config", makeInts table.keyMemory.config), ("width", .integer keyWidth),
    ("depth", .integer depth)] (by simp) keyFits
  have values := fun size isSize rows => @configBytes_document _ _ isValueWidth size isSize rows
    [("config", makeInts table.valueMemory.config), ("width", .integer valueWidth)] (by simp) valueFits
  have depthSize := getSize_toJson depthFits
  have keySize := getSize_toJson keyWidthFits
  have valueSize := getSize_toJson valueWidthFits
  cases naturalDepth : natural depth with
  | none =>
      simp -implicitDefEqProofs [extractThread, intAt, sizeAt, stringAt, getInt_toJson idFits,
        getInt_toJson missFits, getInt_toJson noTableFits, depthSize, Controller.extractThread,
        isDepth, naturalDepth]
  | some depth =>
  cases naturalKey : natural keyWidth with
  | none =>
      simp -implicitDefEqProofs [extractThread, intAt, sizeAt, stringAt, getInt_toJson idFits,
        getInt_toJson missFits, getInt_toJson noTableFits, depthSize, keySize,
        Controller.extractThread, isDepth, isKeyWidth, naturalDepth,
        naturalKey]
  | some keyWidth =>
  have keyConfig := keys keyWidth naturalKey depth
  cases naturalValue : natural valueWidth with
  | none =>
      simp -implicitDefEqProofs [extractThread, intAt, sizeAt, stringAt, getInt_toJson idFits,
        getInt_toJson missFits, getInt_toJson noTableFits, valueSize, Controller.extractThread,
        isDepth, isKeyWidth, isValueWidth, naturalDepth,
        naturalKey, naturalValue]
  | some valueWidth =>
      simp -implicitDefEqProofs [extractThread, intAt, sizeAt, stringAt, elementsAt, getInt_toJson idFits,
        getInt_toJson missFits, getInt_toJson noTableFits, depthSize, keySize, valueSize, pairs, keyConfig,
        values valueWidth naturalValue depth, fieldInfos_document fieldsFit,
        Controller.extractThread, isDepth, isKeyWidth,
        isValueWidth, naturalDepth, naturalKey, naturalValue]

/-! ### Actions -/

/-- An operand of a node, if the node has it. -/
def expChild (value : Json) (key : String) : Option ExpTreeNode :=
  match value.at? key with
  | none => some .nil
  | some child => buildExpTree child

theorem buildExpTree_eq {json : Json} (value : Json) (isValue : json.at? "value" = some value) :
    buildExpTree json = do
      let operand ← expOperand json value
      return .node operand (← expChild value "left") (← expChild value "right") := by
  rw [buildExpTree]
  split
  · next missing =>
      rw [isValue] at missing
      cases missing
  · next found same =>
      rw [isValue] at same
      cases same
      unfold expChild
      split <;> split <;> next => simp_all

theorem buildExpTree_document {operand : Option Operand} (fits : (operandDocument operand).Fits) :
    buildExpTree (operandDocument operand).toJson = Controller.buildExpTree operand := by
  have leaf {json : Json} (noObject : ∀ key, json.at? key = none) (key : String) :
      expChild json key = some .nil := by
    rw [expChild, noObject]
  induction operand using Controller.buildExpTree.induct with
  | case1 =>
      rw [Controller.buildExpTree, operandDocument, toJson, buildExpTree]
      split
      · rfl
      · next found => cases found
  | case2 value =>
      have bound :
          (integer value).Fits := by simpa [operandDocument, Operand.document, fits_makeDict] using fits
      rw [buildExpTree_eq ((integer value).toJson) (by simp [operandDocument, Operand.document]),
        leaf fun _ => rfl, leaf fun _ => rfl]
      simp -implicitDefEqProofs [expOperand, operandDocument, Operand.document, stringAt,
        getParameterType, getInt_toJson bound, Controller.buildExpTree]
  | case3 parameterId =>
      have bound :
          (integer parameterId).Fits := by simpa [operandDocument, Operand.document, fits_makeDict] using fits
      rw [buildExpTree_eq ((integer parameterId).toJson) (by simp [operandDocument, Operand.document]),
        leaf fun _ => rfl, leaf fun _ => rfl]
      simp -implicitDefEqProofs [expOperand, operandDocument, Operand.document, stringAt, sizeAt,
        getParameterType, getSize_toJson bound, Controller.buildExpTree]
  | case4 =>
      have missing : fieldInfo IpsaValue.null.toJson = none := rfl
      rw [buildExpTree_eq (IpsaValue.null.toJson) (by simp [operandDocument, Operand.document])]
      simp [expOperand, operandDocument, Operand.document, stringAt, getParameterType, missing,
        Controller.buildExpTree]
  | case5 field =>
      have bound : (fieldDocument
        field).Fits := by simpa [operandDocument, Operand.document, fits_makeDict] using fits
      have noChild (key : String) (other : key = "left" ∨ key = "right") :
          expChild (fieldDocument field).toJson key = some .nil := by
        have none : (fieldDocument field).toJson.at? key = none := by
          rcases other with rfl | rfl <;> simp [fieldDocument]
        rw [expChild, none]
      rw [buildExpTree_eq ((fieldDocument field).toJson) (by simp [operandDocument, Operand.document]),
        noChild _ (.inl rfl), noChild _ (.inr rfl)]
      simp -implicitDefEqProofs [expOperand, operandDocument, Operand.document, stringAt,
        getParameterType, fieldInfo_document bound, Controller.buildExpTree]
  | case6 op left right leftIh rightIh =>
      have bounds : (operandDocument left).Fits ∧ (operandDocument right).Fits := by
        simpa [operandDocument, Operand.document, fits_makeDict] using fits
      rw [buildExpTree_eq ((makeDict [("op", .string (operatorText op)), ("left", operandDocument left),
        ("right", operandDocument right)]).toJson) (by simp [operandDocument, Operand.document])]
      simp -implicitDefEqProofs [expOperand, operandDocument, Operand.document, stringAt,
        getParameterType, expChild, leftIh bounds.1, rightIh bounds.2, Controller.buildExpTree]

theorem primitive_document {assign : Assign} {value : IpsaValue} (written : assign.document = some value)
    (fits : value.Fits) : primitive value.toJson = extractPrimitive assign := by
  obtain ⟨⟨name, lvalue⟩, isLvalue, written⟩ := Option.bind_eq_some_iff.mp written
  obtain ⟨rvalue, isRvalue, same⟩ := Option.bind_eq_some_iff.mp written
  cases same
  have bounds : (fieldDocument lvalue).Fits ∧ rvalue.document.Fits := by
    simpa [fits_makeDict] using fits
  have rvalueFits : (operandDocument (some rvalue)).Fits := bounds.2
  have root : buildExpTree rvalue.document.toJson = Controller.buildExpTree (some rvalue) :=
    buildExpTree_document rvalueFits
  simp -implicitDefEqProofs [primitive, fieldInfo_document bounds.1, root, extractPrimitive,
    isLvalue, isRvalue]

theorem extractAction_document {action : Compiler.Action} {value : IpsaValue}
    (written : action.document = some value) (fits : value.Fits) :
    extractAction value.toJson = (Controller.extractAction action).map fun sent => (action.id, sent) := by
  obtain ⟨primitives, each, same⟩ := Option.bind_eq_some_iff.mp written
  cases same
  have bounds : (integer action.id).Fits ∧ (integer action.parameterNum).Fits ∧
      (makeInts action.actionParametersLengths).Fits ∧ (list primitives).Fits := by
    simpa [fits_makeDict] using fits
  obtain ⟨idFits, numberFits, lengthsFit, primitivesFit⟩ := bounds
  have prims := mapM_written each primitivesFit primitive extractPrimitive
    fun assign _ value written => primitive_document written
  have lengths : (makeInts action.actionParametersLengths).toJson.elements.mapM getSize =
      action.actionParametersLengths.mapM natural := by
    rw [makeInts, mapM_documents lengthsFit getSize natural fun length _ => getSize_toJson]
  simp -implicitDefEqProofs [extractAction, intAt, sizeAt, elementsAt, getInt_toJson idFits,
    getSize_toJson numberFits, prims, lengths, Controller.extractAction]

theorem extractMatcher_document {ipsa : Ipsa} {ids : List Int} {values : List IpsaValue}
    (written : (ids.mapM fun tableId => ipsa.tables.lookupId tableId >>= Table.document) = some values)
    (fits : (list values).Fits) (procId : Int) :
    ∃ tables, ids.mapM ipsa.tables.lookupId = some tables ∧
      extractMatcher (list values).toJson procId = Controller.extractMatcher tables procId := by
  obtain ⟨tables, isTables, each⟩ := Option.bind_eq_some_iff.mp ((mapM_bind ids _ _).trans written)
  have threads := mapM_written each fits (extractThread procId) (Controller.extractThread procId)
    fun table _ value written fits => extractThread_document written fits procId
  exact ⟨tables, isTables, by rw [extractMatcher, threads]; rfl⟩

theorem extractExecutor_document {ipsa : Ipsa} {ids : List Int} {values : List IpsaValue}
    (written : (ids.mapM fun actionId => ipsa.actions.lookupId actionId >>= Action.document) = some values)
    (fits : (list values).Fits) (procId : Int) :
    ∃ actions, ids.mapM ipsa.actions.lookupId = some actions ∧
      extractExecutor (list values).toJson procId = Controller.extractExecutor actions procId := by
  obtain ⟨actions, isActions, each⟩ := Option.bind_eq_some_iff.mp ((mapM_bind ids _ _).trans written)
  have sent := mapM_written each fits extractAction
    (fun action => (Controller.extractAction action).map fun sent => (action.id, sent))
    fun action _ value written fits => extractAction_document written fits
  refine ⟨actions, isActions, ?_⟩
  have requests :=
    mapM_map actions (fun action => (Controller.extractAction action).map fun sent => (action.id, sent))
    fun action => Request.insertAction procId action.1 action.2
  rw [extractExecutor, sent, Controller.extractExecutor]
  refine (Eq.trans ?_ requests.symm).trans (mapM_congr fun action _ => ?_)
  · simp [Option.map_eq_bind]
  · cases Controller.extractAction action <;> rfl

/-! ### The whole file -/

theorem headerInfo_document {entry : MetadataEntry} (fits : entry.document.Fits) :
    headerInfo entry.document.toJson = some ⟨wrap 8 entry.id, wrap 16 entry.offset,
      wrap 16 entry.length⟩ := by
  have bounds : (integer entry.id).Fits ∧ (integer entry.offset).Fits ∧ (integer entry.length).Fits := by
    simpa [MetadataEntry.document, fits_makeDict] using fits
  simp -implicitDefEqProofs [headerInfo, MetadataEntry.document, intAt, getInt_toJson, bounds]

theorem extractMetadata_document {metadata : List MetadataEntry} (fits : (metadataDocument metadata).Fits) :
    extractMetadata (metadataDocument metadata).toJson = some (Controller.extractMetadata metadata) := by
  have entries := mapM_documents fits headerInfo
    (fun entry => some ⟨wrap 8 entry.id, wrap 16 entry.offset, wrap 16 entry.length⟩) fun entry _ =>
      headerInfo_document
  rw [mapM_eq_some_map fun entry _ => rfl] at entries
  rw [metadataDocument, extractMetadata, entries]
  rfl

theorem extractProcessor_document {ipsa : Ipsa} {processor : Compiler.Processor} {value : IpsaValue}
    (written : ipsa.processorDocument processor = some value) (fits : value.Fits) {json : Json}
    {metadata : List MetadataEntry}
    (isMetadata : json.at? "metadata" = some (metadataDocument metadata).toJson)
    (metadataFits : (metadataDocument metadata).Fits) (procId : Nat) :
    ∃ doc, ipsa.processorDoc processor = some doc ∧
      extractProcessor json value.toJson procId = Controller.extractProcessor metadata procId doc := by
  obtain ⟨ref, isRef, written⟩ := Option.bind_eq_some_iff.mp written
  obtain ⟨gateway, gatewayWritten, written⟩ := Option.bind_eq_some_iff.mp written
  obtain ⟨matcher, tablesWritten, written⟩ := Option.bind_eq_some_iff.mp written
  obtain ⟨executor, actionsWritten, same⟩ := Option.bind_eq_some_iff.mp written
  cases same
  have bounds : (integer processor.id).Fits ∧ (parserDocument processor.levels).Fits ∧ gateway.Fits ∧
      (list matcher).Fits ∧ (list executor).Fits := by
    simpa [fits_makeDict] using fits
  obtain ⟨idFits, parserFits, gatewayFits, matcherFits, executorFits⟩ := bounds
  obtain ⟨tables, isTables, threads⟩ := extractMatcher_document tablesWritten matcherFits procId
  obtain ⟨actions, isActions, sent⟩ := extractExecutor_document actionsWritten executorFits procId
  obtain ⟨doc, isDoc, decided⟩ : ∃ doc, gatewayDoc ipsa.gateways ref = some doc ∧
      extractGateway gateway.toJson = Controller.extractGateway doc := by
    cases ref with
    | stage gatewayId =>
        obtain ⟨found, isFound, written⟩ := Option.bind_eq_some_iff.mp gatewayWritten
        obtain ⟨doc, isDoc, decided⟩ := extractGateway_document written gatewayFits
        exact ⟨doc, by rw [gatewayDoc, isFound]; exact isDoc, decided⟩
    | own entry => exact extractGateway_document gatewayWritten gatewayFits
  refine ⟨⟨processor.id, processor.levels, doc, tables, actions⟩, ?_, ?_⟩
  · simp [Ipsa.processorDoc, isRef, isDoc, isTables, isActions]
  · simp -implicitDefEqProofs [extractProcessor, intAt, getInt_toJson idFits, isMetadata,
      extractParser_document parserFits procId, decided, threads, sent, extractMetadata_document metadataFits,
      Controller.extractProcessor]

/-- What the controller makes of one processor of a configuration. -/
def docRequests (metadata : List MetadataEntry) (doc : Option ProcessorDoc × Nat) : Option (List Request) :=
  match doc.1 with
  | none => some []
  | some processor => Controller.extractProcessor metadata doc.2 processor

theorem makeDict_ne_null (entries : List (String × IpsaValue)) : (makeDict entries).toJson ≠ .null := by
  rw [toJson_makeDict]
  exact Json.noConfusion

/-- What stands for a processor in the emitted configuration. -/
def entryDoc (ipsa : Ipsa) : Option Compiler.Processor → Option (Option ProcessorDoc)
  | none => some none
  | some processor => (ipsa.processorDoc processor).map some

theorem toIpsaValue_eq (ipsa : Ipsa) : ipsa.toIpsaValue = ipsa.processors.mapM (entryDoc ipsa) := by
  rw [Ipsa.toIpsaValue]
  exact mapM_congr fun source _ => by cases source <;> rfl

theorem extractAt_document {ipsa : Ipsa} {metadata : List MetadataEntry}
    {processors : List IpsaValue} {value : IpsaValue}
    (members : DocumentMembers ipsa metadata processors value) (fits : value.Fits) {index : Nat}
    {source : Option Compiler.Processor} (here : ipsa.processors[index]? = some source) :
    ∃ doc, entryDoc ipsa source = some doc ∧
      extractAt value.toJson index = docRequests metadata (doc, index) := by
  obtain ⟨inside, same⟩ := List.getElem?_eq_some_iff.mp here
  have written := getElem_of_mapM_some members.written inside
  obtain ⟨processor, isProcessor⟩ : ∃ processor, processors[index]? = some processor :=
    ⟨_, List.getElem?_eq_getElem (length_of_mapM_some members.written ▸ inside)⟩
  rw [same, isProcessor] at written
  cases source with
  | none =>
      cases written
      refine ⟨none, rfl, ?_⟩
      rw [extractAt, members.isProcessor index _ isProcessor]
      rfl
  | some source =>
      obtain ⟨doc, isDoc, read⟩ :=
        extractProcessor_document written (members.processorFits index _ isProcessor fits)
        members.isMetadata (members.metadataFits fits) index
      have notNull : processor.toJson ≠ .null := by
        obtain ⟨_, _, written⟩ := Option.bind_eq_some_iff.mp written
        obtain ⟨_, _, written⟩ := Option.bind_eq_some_iff.mp written
        obtain ⟨_, _, written⟩ := Option.bind_eq_some_iff.mp written
        obtain ⟨_, _, same⟩ := Option.bind_eq_some_iff.mp written
        cases same
        exact makeDict_ne_null _
      refine ⟨some doc, by rw [entryDoc, isDoc]; rfl, ?_⟩
      rw [extractAt, members.isProcessor index _ isProcessor, Option.bind_eq_bind, Option.bind_some]
      split
      · next null => exact absurd null notNull
      · exact read

/-- The configuration of sixteen processors tells the controller what the builder holds. -/
theorem extract_emit {ipsa : Ipsa} (sixteen : ipsa.processors.length = 16) {isIncremental : Nat}
    {metadata : List MetadataEntry} {value : IpsaValue}
    (written : ipsa.document isIncremental metadata = some value) (fits : value.Fits) :
    ∃ docs, ipsa.toIpsaValue = some docs ∧
      extract (IpsaOutput.emit 0 value) = InitDataplane.extract docs metadata := by
  obtain ⟨processors, members⟩ := document_members written
  have each : ∀ source ∈ ipsa.processors, ∃ doc, entryDoc ipsa source = some doc ∧
      entryDoc ipsa source = some doc := by
    intro source member
    obtain ⟨index, here⟩ := List.mem_iff_getElem?.mp member
    obtain ⟨doc, isDoc, _⟩ := extractAt_document members fits here
    exact ⟨doc, isDoc, isDoc⟩
  obtain ⟨docs, isDocs, _⟩ := mapM_forall₂ each
  have length := length_of_mapM_some isDocs
  have requests : (List.range 16).mapM (extractAt value.toJson) = docs.zipIdx.mapM
      (docRequests metadata) := by
    rw [← sixteen, ← length]
    refine mapM_range fun index doc here => ?_
    have inside : index < ipsa.processors.length := length ▸ (List.getElem?_eq_some_iff.mp here).1
    obtain ⟨own, isOwn, read⟩ := extractAt_document members fits (List.getElem?_eq_getElem inside)
    have found := (getElem_of_mapM_some isDocs inside).symm.trans isOwn
    rw [here] at found
    cases found
    exact read
  refine ⟨docs, (toIpsaValue_eq ipsa).trans isDocs, ?_⟩
  rw [extract, IpsaOutput.parse_emit (plain_document written) fits 0]
  change ((List.range 16).mapM (extractAt value.toJson)).bind _ = _
  rw [requests]
  rfl

end DesignFile

end Ipbm.Controller
