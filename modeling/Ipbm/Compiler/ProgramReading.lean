import Ipbm.Compiler.ProgramGrammar

/-! The reader of programs takes what the grammar derives. -/

set_option autoImplicit false

namespace Ipbm.Compiler.Grammar
open Lib Lexer Production Dataplane

/-! ### Tokens -/

theorem decided_keyword (name : Keyword) : Decided (keyword name) closed := decided_token _

theorem decided_symbol (name : SingleOp) : Decided (symbol name) closed := decided_token _

theorem decided_identifier : Decided identifier closed := decided_terminal _

theorem decided_valueInt : Decided valueInt closed := decided_terminal _

theorem decided_actionName : Decided actionName closed := decided_terminal _

theorem startsWith_keyword (name : Keyword) : StartsWith (keyword name) (· = .keyword name) :=
  startsWith_token _

theorem startsWith_identifier : StartsWith identifier startsIdentifier :=
  (startsWith_terminal _).mono fun token known => by
    cases token with
    | identifier name => rfl
    | _ => cases known

/-! ### Headers and structs -/

theorem decided_typeDef : Decided typeDef closed := by
  refine Decided.choice_apart ?_ (decided_identifier.map _) (startsWith_bind (startsWith_keyword _) _)
    (startsWith_bind startsWith_identifier _) ?_
  · exact (decided_keyword _).bind fun _ => (decided_symbol _).bind fun _ =>
      decided_valueInt.bind fun length =>
      (decided_symbol _).map fun _ => Rp4Type.bit length
  · intro token starts
    cases token with
    | identifier name => rfl
    | _ => cases starts

theorem startsWith_typeDef : StartsWith typeDef startsType :=
  startsWith_choice (startsWith_bind (startsWith_keyword _) _) (startsWith_bind startsWith_identifier _)

theorem decided_fieldDef : Decided fieldDef closed :=
  decided_typeDef.bind fun _ => decided_identifier.map _

theorem startsWith_fieldDef : StartsWith fieldDef startsType := startsWith_bind startsWith_typeDef _

theorem decided_fieldDefs : Decided fieldDefs startsType :=
  decided_many_closed (decided_fieldDef.bind fun _ => (decided_symbol _).map _)
    (startsWith_bind startsWith_fieldDef _)

theorem decided_headerDef : Decided headerDef closed :=
  (decided_keyword _).bind fun _ => decided_identifier.bind fun _ => (decided_symbol _).bind fun _ =>
    decided_fieldDefs.bind_token rfl fun _ => decided_pure _

theorem decided_headerDefs : Decided headerDefs (· = .keyword .header) :=
  decided_many_closed decided_headerDef (startsWith_bind (startsWith_keyword _) _)

theorem decided_structBody (structName : String) (isHeader : Bool) :
    Decided (structBody structName isHeader) closed :=
  (decided_symbol _).bind fun _ => decided_fieldDefs.bind_token rfl fun _ => decided_identifier.bind fun _ =>
    (decided_symbol _).map _

theorem decided_structDef : Decided structDef closed := by
  refine (decided_keyword _).bind fun _ =>
    Decided.choice_apart ((decided_keyword _).bind fun _ => decided_structBody ..)
    (decided_identifier.bind fun _ => decided_structBody ..) (startsWith_bind (startsWith_keyword _) _)
    (startsWith_bind startsWith_identifier _) ?_
  intro token starts
  cases token with
  | identifier name => rfl
  | _ => cases starts

theorem decided_structDefs : Decided structDefs (· = .keyword .struct) :=
  decided_many_closed decided_structDef (startsWith_bind (startsWith_keyword _) _)

/-! ### Keys and fields -/

/-- A mask or a prefix length goes on with a number. -/
def continuesKey : Token → Bool
  | .andAndAnd | .divDivDiv => true
  | _ => false

theorem parseKey_exact {key : Int} {rest : List Token} (stops : Stops continuesKey rest) :
    parseKey (.valueInt key :: rest) = some (.exact key, rest) := by
  cases rest with
  | nil => rfl
  | cons token behind =>
      have other := stops_cons.mp stops
      cases token with
      | andAndAnd | divDivDiv => cases other
      | _ => rfl

theorem decided_keyDef : Decided keyDef continuesKey where
  sound := by
    intro tokens key rest taken
    change parseKey tokens = _ at taken
    unfold parseKey at taken
    split at taken
    case h_1 => cases taken; exact ⟨[_, _, _], rfl, .ternary ..⟩
    case h_3 => cases taken; exact ⟨[_, _, _], rfl, .lpm ..⟩
    case h_5 => cases taken; exact ⟨[_], rfl, .exact _⟩
    case h_6 => cases taken; exact ⟨[_], rfl, .true⟩
    case h_7 => cases taken; exact ⟨[_], rfl, .false⟩
    case h_8 => cases taken; exact ⟨[_], rfl, .default⟩
    case h_9 => cases taken; exact ⟨[_], rfl, .star⟩
    all_goals cases taken
  complete := by
    intro key sentence rest derives stops
    cases derives with
    | exact key => exact parseKey_exact stops
    | _ => rfl

theorem startsWith_keyDef : StartsWith keyDef startsKey := by
  rintro key sentence derives
  cases derives <;> exact ⟨_, _, rfl, rfl⟩

theorem decided_field : Decided field closed where
  sound := by
    intro tokens value rest taken
    change parseField tokens = _ at taken
    unfold parseField at taken
    split at taken
    case h_1 => cases taken; exact ⟨[_, _, _, _, _], rfl, .name ..⟩
    case h_2 => cases taken; exact ⟨[_, _, _, _, _, _, _], rfl, .isValid ..⟩
    case h_3 => cases taken
  complete := by
    intro value sentence rest derives _
    cases derives <;> rfl

theorem startsWith_field : StartsWith field startsIdentifier := by
  rintro value sentence derives
  cases derives <;> exact ⟨_, _, rfl, rfl⟩

/-! ### Operations -/

/-- A dot goes on with a name. -/
def continuesName (token : Token) : Bool := token = .op .dot

theorem head?_ne_dot {rest : List Token} (stops : Stops continuesName rest) : rest.head? ≠ some (.op .dot) :=
  fun dot => absurd (stops _ dot) (by decide)

theorem parseOperand_lvalue {lvalue : LValue} {sentence rest : List Token}
    (derives : DerivesLvalue lvalue sentence)
    (stops : Stops continuesName rest) : parseOperand (sentence ++ rest) = some (.lvalue lvalue, rest) := by
  cases derives with
  | member instanceName memberName => exact parseOperand_member _ _ (head?_ne_dot stops)
  | _ => rfl

theorem parseOperand_sound {tokens rest : List Token} {operand : Rp4Operation}
    (taken : parseOperand tokens = some (operand, rest)) :
    ∃ sentence, tokens = sentence ++ rest ∧ DerivesOperand operand sentence := by
  unfold parseOperand at taken
  split at taken
  case h_1 => cases taken; exact ⟨[_, _, _, _, _], rfl, .lvalue (.field ..)⟩
  case h_2 => cases taken; exact ⟨[_, _, _, _, _, _, _], rfl, .lvalue (.isValid ..)⟩
  case h_4 => cases taken; exact ⟨[_, _, _], rfl, .lvalue (.member ..)⟩
  case h_6 => cases taken; exact ⟨[_], rfl, .parameter _⟩
  case h_7 => cases taken; exact ⟨[_], rfl, .literal _⟩
  case h_8 => cases taken; exact ⟨[_], rfl, .true⟩
  case h_9 => cases taken; exact ⟨[_], rfl, .false⟩
  all_goals cases taken

theorem parseOperand_complete {operand : Rp4Operation} {sentence rest : List Token}
    (derives : DerivesOperand operand sentence) (stops : Stops continuesName rest) :
    parseOperand (sentence ++ rest) = some (operand, rest) := by
  cases derives with
  | lvalue derives => exact parseOperand_lvalue derives stops
  | parameter name => exact parseOperand_parameter name (head?_ne_dot stops)
  | _ => rfl

theorem decided_lvalue : Decided lvalue continuesName where
  sound := by
    intro tokens value rest taken
    change parseLvalue tokens = _ at taken
    unfold parseLvalue at taken
    split at taken
    · next lvalue behind parsed =>
        cases taken
        obtain ⟨sentence, rfl, derives⟩ := parseOperand_sound parsed
        cases derives with
        | lvalue derives => exact ⟨sentence, rfl, derives⟩
    · cases taken
  complete := by
    intro value sentence rest derives stops
    change parseLvalue _ = _
    rw [parseLvalue, parseOperand_lvalue derives stops]

theorem startsWith_lvalue : StartsWith lvalue startsIdentifier := by
  rintro value sentence derives
  cases derives <;> exact ⟨_, _, rfl, rfl⟩

theorem startsWith_operation : StartsWith operation startsOperation := by
  rintro value sentence derives
  cases derives with
  | binary => exact ⟨_, _, rfl, rfl⟩
  | operand derives =>
      cases derives with
      | lvalue derives => cases derives <;> exact ⟨_, _, rfl, rfl⟩
      | _ => exact ⟨_, _, rfl, rfl⟩

theorem operand_head {operand : Rp4Operation} {sentence : List Token}
    (derives : DerivesOperand operand sentence)
    (rest : List Token) : (sentence ++ rest).head? ≠ some (.op .lparen) := by
  cases derives with
  | lvalue derives => cases derives <;> simp
  | _ => simp

theorem parseOperationFrom_sound {fuel : Nat} {tokens rest : List Token} {value : Rp4Operation}
    (taken : parseOperationFrom fuel tokens = some (value, rest)) :
    ∃ sentence, tokens = sentence ++ rest ∧ DerivesOperation value sentence := by
  induction fuel generalizing tokens rest value with
  | zero => cases taken
  | succ fuel ih =>
      by_cases opened : tokens.head? = some (.op .lparen)
      · obtain ⟨behind, rfl⟩ := List.head?_eq_some_iff.mp opened
        obtain ⟨op, left, right, middle, isLeft, isRight, rfl⟩ := parseOperationFrom_lparen.mp taken
        obtain ⟨front, rfl, derivesLeft⟩ := ih isLeft
        obtain ⟨back, rfl, derivesRight⟩ := ih isRight
        exact ⟨.op .lparen :: front ++ op.token :: back ++
          [.op .rparen], by simp, .binary op derivesLeft derivesRight⟩
      · rw [parseOperationFrom_operand opened] at taken
        obtain ⟨sentence, rfl, derives⟩ := parseOperand_sound taken
        exact ⟨sentence, rfl, .operand derives⟩

theorem parseOperationFrom_complete {value : Rp4Operation} {sentence rest : List Token}
    (derives : DerivesOperation value sentence) (stops : Stops continuesName rest) {fuel : Nat}
    (enough : sentence.length < fuel) : parseOperationFrom fuel (sentence ++ rest) = some (value, rest) := by
  induction derives generalizing rest fuel with
  | operand derives =>
      obtain ⟨fuel, rfl⟩ : ∃ less, fuel = less + 1 := ⟨fuel - 1, by omega⟩
      rw [parseOperationFrom_operand (operand_head derives rest)]
      exact parseOperand_complete derives stops
  | @binary op left right front back _ _ leftRead rightRead =>
      obtain ⟨fuel, rfl⟩ : ∃ less, fuel = less + 1 := ⟨fuel - 1, by omega⟩
      simp only [List.length_append, List.length_cons, List.length_nil] at enough
      have operator : Stops continuesName (op.token :: (back ++ .op .rparen :: rest)) :=
        stops_cons.mpr (by cases op <;> rfl)
      have isLeft := @leftRead _ operator fuel (by omega)
      have isRight := @rightRead (.op .rparen :: rest) (stops_cons.mpr rfl) fuel (by omega)
      have shape : .op .lparen :: front ++ op.token :: back ++ [.op .rparen] ++ rest =
          .op .lparen :: (front ++ op.token :: (back ++ .op .rparen :: rest)) := by simp
      rw [shape]
      exact parseOperationFrom_lparen.mpr ⟨op, left, right, _, isLeft, isRight, rfl⟩

theorem decided_operation : Decided operation continuesName where
  sound := parseOperationFrom_sound
  complete derives stops := parseOperationFrom_complete derives stops (by rw [List.length_append]; omega)

/-! ### The parser -/

theorem identifier_ne {keyword : Keyword} (token : Token) (starts : startsIdentifier token = true) :
    decide (token = .keyword keyword) = false := by
  cases token with
  | identifier name => rfl
  | _ => cases starts

theorem decided_directEntry (key : Key) : Decided (directEntry key) closed :=
  Decided.choice_apart ((decided_keyword _).map _) (decided_identifier.map _)
    (startsWith_bind (startsWith_keyword _) _)
    (startsWith_bind startsWith_identifier _) identifier_ne

theorem decided_transitionEntry : Decided transitionEntry closed :=
  decided_keyDef.bind_token rfl fun _ => (decided_directEntry _).bind fun _ => (decided_symbol _).map _

theorem decided_transitionEntries : Decided transitionEntries startsKey :=
  decided_many_closed decided_transitionEntry (startsWith_bind startsWith_keyDef _)

theorem decided_fields :
    Decided fields fun token => token = .op .comma || startsIdentifier token || closed token :=
  decided_separated decided_field startsWith_field rfl rfl

theorem startsWith_directEntry (key : Key) :
    StartsWith (directEntry key) fun token => token = .keyword .accept || startsIdentifier token :=
  startsWith_choice (startsWith_bind (startsWith_keyword _) _) (startsWith_bind startsWith_identifier _)

theorem decided_transitionStmt : Decided transitionStmt closed := by
  refine (decided_keyword _).bind fun _ =>
    Decided.choice_apart ?_ ?_ (startsWith_bind (startsWith_keyword _) _)
    (startsWith_bind (startsWith_directEntry _) _) ?_
  · exact (decided_keyword _).bind fun _ => (decided_symbol _).bind fun _ =>
      decided_fields.bind_token rfl fun _ =>
      (decided_symbol _).bind fun _ => decided_transitionEntries.bind_token rfl fun _ => decided_pure _
  · exact (decided_directEntry _).bind fun _ => (decided_symbol _).map _
  · intro token starts
    rcases Bool.or_eq_true_iff.mp starts with accept | name
    · obtain rfl := of_decide_eq_true accept
      rfl
    · exact identifier_ne token name

theorem decided_extractStmt : Decided extractStmt closed :=
  (decided_keyword _).bind fun _ => (decided_symbol _).bind fun _ => (decided_keyword _).bind fun _ =>
    (decided_symbol _).bind fun _ => decided_identifier.bind fun _ => (decided_symbol _).bind fun _ =>
      decided_identifier.bind fun _ => (decided_symbol _).bind fun _ => (decided_symbol _).map _

theorem decided_stateDef : Decided stateDef closed :=
  (decided_keyword _).bind fun _ => decided_identifier.bind fun _ => (decided_symbol _).bind fun _ =>
    decided_extractStmt.bind fun _ => decided_transitionStmt.bind fun _ => (decided_symbol _).map _

theorem decided_stateDefs : Decided stateDefs (· = .keyword .state) :=
  decided_many_closed decided_stateDef (startsWith_bind (startsWith_keyword _) _)

theorem decided_parserDef : Decided parserDef closed :=
  (decided_keyword _).bind fun _ => decided_identifier.bind fun _ => (decided_symbol _).bind fun _ =>
    (decided_keyword _).bind fun _ => (decided_keyword _).bind fun _ => (decided_symbol _).bind fun _ =>
      (decided_symbol _).bind fun _ => decided_stateDefs.bind_token rfl fun _ => decided_pure _

/-! ### Actions -/

theorem decided_expression : Decided expression closed :=
  decided_lvalue.bind_token rfl fun _ => decided_operation.bind_token rfl fun _ => decided_pure _

theorem decided_expressions : Decided expressions startsIdentifier :=
  decided_many_closed decided_expression (startsWith_bind startsWith_lvalue _)

theorem decided_parameters :
    Decided parameters fun token => token = .op .comma || startsType token || closed token :=
  decided_separated decided_fieldDef startsWith_fieldDef rfl rfl

theorem decided_actionDef : Decided actionDef closed := by
  refine (decided_keyword _).bind fun _ =>
    Decided.choice_apart ?_ ?_ (startsWith_bind (startsWith_keyword _) _)
    (startsWith_bind startsWith_identifier _) identifier_ne
  · exact (decided_keyword _).bind fun _ => (decided_symbol _).bind fun _ => (decided_symbol _).bind fun _ =>
      (decided_symbol _).bind fun _ => (decided_symbol _).map _
  · exact decided_identifier.bind fun _ => (decided_symbol _).bind fun _ =>
      decided_parameters.bind_token rfl fun _ =>
      (decided_symbol _).bind fun _ => decided_expressions.bind_token rfl fun _ => decided_pure _

theorem decided_actionDefs : Decided actionDefs (· = .keyword .action) :=
  decided_many_closed decided_actionDef (startsWith_bind (startsWith_keyword _) _)

theorem decided_actionsDef : Decided actionsDef closed :=
  (decided_keyword _).bind fun _ => (decided_symbol _).bind fun _ =>
    decided_actionDefs.bind_token rfl fun _ =>
    decided_pure _

/-! ### Tables -/

theorem decided_keyEntry : Decided keyEntry closed :=
  decided_lvalue.bind_token rfl fun _ => (decided_terminal _).bind fun _ => (decided_symbol _).map _

theorem decided_keyEntries : Decided keyEntries startsIdentifier :=
  decided_many_closed decided_keyEntry (startsWith_bind startsWith_lvalue _)

theorem decided_tableKeyDef : Decided tableKeyDef closed :=
  (decided_keyword _).bind fun _ => (decided_symbol _).bind fun _ => (decided_symbol _).bind fun _ =>
    decided_keyEntries.bind_token rfl fun _ => decided_pure _

theorem decided_keyDefs :
    Decided keyDefs fun token => token = .op .comma || startsKey token || continuesKey token :=
  decided_separated decided_keyDef startsWith_keyDef rfl rfl

theorem decided_matchKey : Decided matchKey closed :=
  (decided_symbol _).bind fun _ => decided_keyDefs.bind_token rfl fun _ => decided_pure _

theorem decided_matchEntry : Decided matchEntry closed :=
  decided_matchKey.bind fun _ => (decided_symbol _).bind fun _ => decided_actionName.bind fun _ =>
    (decided_symbol _).map _

theorem decided_matchEntries : Decided matchEntries (· = .op .lparen) :=
  decided_many_closed decided_matchEntry (startsWith_bind (startsWith_bind (startsWith_token _) _) _)

theorem decided_setting {α : Type} {value : Production Token α} (name : Keyword)
    (decided : Decided value closed) :
    Decided (setting name value) closed :=
  (decided_keyword _).bind fun _ => (decided_symbol _).bind fun _ => decided.bind fun _ =>
    (decided_symbol _).map _

theorem decided_entriesStmt : Decided entriesStmt closed :=
  (decided_keyword _).bind fun _ => (decided_symbol _).bind fun _ => (decided_symbol _).bind fun _ =>
    decided_matchEntries.bind_token rfl fun _ => decided_pure _

/-- Alternatives that a keyword each starts. -/
theorem Decided.keyword_choice {α : Type} {first second : Production Token α} {name : Keyword}
    {others : Token → Bool} (front : Decided first closed) (back : Decided second closed)
    (starting : StartsWith first (· = .keyword name))
    (other : StartsWith second others) (apart : others (.keyword name) = false) :
    Decided (choice (· = .keyword name) first second) closed :=
  Decided.choice_apart front back starting other fun token passes => by
    refine decide_eq_false fun same => ?_
    rw [same, apart] at passes
    cases passes

theorem startsWith_setting {α β : Type} (name : Keyword) (value : Production Token α)
    (next : α → Production Token β) :
    StartsWith (setting name value >>= next) (· = .keyword name) :=
  startsWith_bind (startsWith_bind (startsWith_keyword _) _) _

theorem decided_tableOptionalStmt : Decided tableOptionalStmt closed := by
  have width :=
    startsWith_setting .valueWidth valueInt fun width => pure (Rp4TableOptionalStmt.valueWidth width)
  have defaultAction := startsWith_setting .defaultAction actionName fun name =>
    pure (Rp4TableOptionalStmt.defaultAction name)
  have size := startsWith_setting .size valueInt fun size => pure (Rp4TableOptionalStmt.size size)
  have entries : StartsWith entriesStmt (· = .keyword .entries) := startsWith_bind (startsWith_keyword _) _
  have last := Decided.keyword_choice
    ((decided_setting .defaultAction decided_actionName).map Rp4TableOptionalStmt.defaultAction)
    ((decided_setting .valueWidth decided_valueInt).map Rp4TableOptionalStmt.valueWidth)
      defaultAction width rfl
  have more :=
    Decided.keyword_choice decided_entriesStmt last entries (startsWith_choice defaultAction width) rfl
  exact Decided.keyword_choice ((decided_setting .size decided_valueInt).map
    Rp4TableOptionalStmt.size) more size
    (startsWith_choice entries (startsWith_choice defaultAction width)) rfl

theorem startsWith_tableOptionalStmt : StartsWith tableOptionalStmt startsOptionalStmt := by
  refine (startsWith_choice (startsWith_setting _ _ _) <| startsWith_choice
    (startsWith_bind (startsWith_keyword _) _) <|
    startsWith_choice (startsWith_setting _ _ _) (startsWith_setting _ _ _)).mono fun token starts => ?_
  simp only [Bool.or_eq_true, decide_eq_true_eq] at starts
  rcases starts with rfl | rfl | rfl | rfl <;> rfl

theorem decided_tableOptionalStmts : Decided tableOptionalStmts startsOptionalStmt :=
  decided_many_closed decided_tableOptionalStmt startsWith_tableOptionalStmt

theorem decided_tableDef : Decided tableDef closed :=
  (decided_keyword _).bind fun _ => decided_identifier.bind fun _ => (decided_symbol _).bind fun _ =>
    decided_tableKeyDef.bind fun _ => decided_tableOptionalStmts.bind_token rfl fun _ => decided_pure _

theorem decided_tableDefs : Decided tableDefs (· = .keyword .table) :=
  decided_many_closed decided_tableDef (startsWith_bind (startsWith_keyword _) _)

theorem decided_tablesDef : Decided tablesDef closed :=
  (decided_keyword _).bind fun _ => (decided_symbol _).bind fun _ => decided_tableDefs.bind_token rfl fun _ =>
    decided_pure _

/-! ### Stages -/

theorem decided_stageParser : Decided stageParser closed := by
  have headers : Decided (many startsIdentifier stageParserHeader) startsIdentifier :=
    decided_many_closed (decided_identifier.bind fun _ => (decided_symbol _).map _)
      (startsWith_bind startsWith_identifier _)
  exact (decided_keyword _).bind fun _ => (decided_symbol _).bind fun _ => headers.bind_token rfl fun _ =>
    (decided_symbol _).map _

theorem decided_operations :
    Decided operations fun token => token = .op .comma || startsOperation token || continuesName token :=
  decided_separated decided_operation startsWith_operation rfl rfl

theorem decided_called (target : Keyword) {name : Production Token String} (decided : Decided name closed) :
    Decided (called target name) closed :=
  (decided_keyword _).bind fun _ => (decided_symbol _).bind fun _ => decided.bind fun _ =>
    (decided_symbol _).map _

theorem startsWith_called {β : Type} (target : Keyword) (name : Production Token String)
    (next : String → Production Token β) : StartsWith (called target name >>= next) (· = .keyword target) :=
  startsWith_bind (startsWith_bind (startsWith_keyword _) _) _

theorem decided_switchValue : Decided switchValue closed := by
  have action := startsWith_called .action actionName fun name => pure (Rp4SwitchValue.action name)
  have stage := startsWith_called .stage identifier fun name => pure (Rp4SwitchValue.stage name)
  have table := startsWith_called .table identifier fun name => pure (Rp4SwitchValue.table name)
  have none := startsWith_bind (startsWith_keyword .none) fun _ => pure (Rp4SwitchValue.stage "None" true)
  have last := Decided.keyword_choice ((decided_called .action decided_actionName).map Rp4SwitchValue.action)
    ((decided_keyword .none).map fun _ => Rp4SwitchValue.stage "None" true) action none rfl
  have more := Decided.keyword_choice ((decided_called .stage decided_identifier).map fun name =>
    Rp4SwitchValue.stage name) last stage
    (startsWith_choice action none) rfl
  exact Decided.keyword_choice ((decided_called .table decided_identifier).map
    Rp4SwitchValue.table) more table (startsWith_choice stage (startsWith_choice action none)) rfl

theorem decided_switchEntries : Decided switchEntries startsKey :=
  decided_many_closed (decided_keyDef.bind_token rfl fun _ => decided_switchValue.bind fun _ =>
    (decided_symbol _).map _)
    (startsWith_bind startsWith_keyDef _)

theorem decided_stageMatcher : Decided stageMatcher closed :=
  (decided_keyword _).bind fun _ => (decided_symbol _).bind fun _ => (decided_keyword _).bind fun _ =>
    (decided_symbol _).bind fun _ => decided_operations.bind_token rfl fun _ =>
      (decided_symbol _).bind fun _ =>
      decided_switchEntries.bind_token rfl fun _ => (decided_symbol _).bind fun _ => (decided_symbol _).map _

theorem startsWith_stageExecutorEntry : StartsWith stageExecutorEntry startsExecutorEntry :=
  startsWith_bind ((startsWith_terminal _).mono fun token known => by
    unfold startsExecutorEntry
    split
    · rfl
    · rfl
    · rfl
    · rfl
    · next noName noHit noMiss noAction =>
        split at known
        · exact absurd rfl (noName _)
        · exact absurd rfl noHit
        · exact absurd rfl noMiss
        · exact absurd rfl noAction
        · cases known) _

theorem decided_stageExecutor : Decided stageExecutor closed := by
  have entry : Decided stageExecutorEntry closed :=
    (decided_terminal _).bind fun _ => (decided_symbol _).bind fun _ => (decided_terminal _).bind fun _ =>
      (decided_symbol _).map _
  exact (decided_keyword _).bind fun _ => (decided_symbol _).bind fun _ =>
    (decided_many_closed entry startsWith_stageExecutorEntry).bind_token rfl fun _ => (decided_symbol _).map _

theorem decided_stageDef : Decided stageDef closed :=
  (decided_keyword _).bind fun _ => decided_identifier.bind fun _ => (decided_symbol _).bind fun _ =>
    decided_stageParser.bind fun _ => decided_stageMatcher.bind fun _ => decided_stageExecutor.bind fun _ =>
      (decided_symbol _).map _

theorem decided_pipeline : Decided pipeline closed :=
  (decided_keyword _).bind fun _ => decided_identifier.bind fun _ => (decided_symbol _).bind fun _ =>
    (decided_many_closed decided_stageDef (startsWith_bind (startsWith_keyword _) _)).bind_token rfl fun _ =>
      decided_pure _

/-! ### The program -/

theorem decided_start : Decided start closed := by
  have actions (structs : List Rp4StructDef) (headers : List Rp4HeaderDef) (states : List StateDef) :=
    decided_actionsDef.bind fun actionsDef => decided_tablesDef.bind fun tablesDef =>
      decided_pipeline.bind fun ingressDef => decided_pipeline.map fun egressDef =>
        Rp4Ast.mk headers structs states actionsDef tablesDef ingressDef egressDef
  refine decided_headerDefs.bind_of (fun headers => ?_) ?_
  · exact decided_structDefs.bind_apart (fun structs => decided_parserDef.bind fun states =>
      actions structs headers states)
      (fun _ => startsWith_bind (startsWith_bind (startsWith_keyword _) _) _) fun token same => by
        obtain rfl := of_decide_eq_true same
        rfl
  · rintro headers ast _ rest ⟨structs, front, back, rfl, derives, goesOn⟩ _
    obtain ⟨parts, each, rfl⟩ := repeated_iff.mp derives
    cases each with
    | nil =>
        obtain ⟨token, behind, rfl, same⟩ :=
          startsWith_bind (startsWith_bind (startsWith_keyword _) _) _ _ _ goesOn
        obtain rfl := of_decide_eq_true same
        exact stops_cons.mpr rfl
    | cons first _ =>
        obtain ⟨token, behind, rfl, same⟩ := startsWith_bind (startsWith_keyword _) _ _ _ first
        obtain rfl := of_decide_eq_true same
        exact stops_cons.mpr rfl

/-- The compiler accepts a text if and only if a program stands at its front, and has then read its tree. -/
theorem parseProgram_iff {tokens : List Token} {ast : Rp4Ast} :
    parseProgram tokens = some ast ↔ ∃ program rest, tokens = program ++ rest ∧
      start.Derives ast program := by
  constructor
  · intro parsed
    obtain ⟨⟨_, rest⟩, read, rfl⟩ := Option.map_eq_some_iff.mp parsed
    obtain ⟨program, rfl, derives⟩ := decided_start.sound read
    exact ⟨program, rest, rfl, derives⟩
  · rintro ⟨program, rest, rfl, derives⟩
    exact Option.map_eq_some_iff.mpr ⟨(ast, rest), decided_start.complete derives (stops_closed rest), rfl⟩

end Ipbm.Compiler.Grammar
