import Ipbm.Compiler.P4Parser
import Ipbm.Compiler.ParserReading

/-! The printed parser is read back state by state. -/

set_option autoImplicit false

namespace Ipbm.Compiler.P4r
open Lib Lexer Grammar

/-! ### Tokens -/

/-- A value as the lexer stores it. -/
def literal (text : String) : Int := strtol ((hexValue text).getD 0)

/-- A hexadecimal text. -/
def IsHex (text : String) : Prop := ∃ value, hexValue text = some value

namespace Transition

variable (transition : Transition)

def keyTokens : List Token :=
  if transition.value = "default" then [.keyword .default]
  else .valueInt (literal transition.value) ::
    if transition.mask = "" then [] else [.andAndAnd, .valueInt (literal transition.mask)]

def targetToken : Token := if transition.nextState = "" then .keyword .accept
  else .identifier transition.nextState

def tokens : List Token := transition.keyTokens ++ [.op .colon, transition.targetToken, .op .semicolon]

/-- Values are hexadecimal or `default`, and the next state has a name the lexer knows. -/
structure Printable : Prop where
  value : transition.value = "default" ∧ transition.mask = "" ∨
    transition.value ≠ "default" ∧ IsHex transition.value ∧ (transition.mask = "" ∨ IsHex transition.mask)
  next : transition.nextState = "" ∨ Identifier transition.nextState

end Transition

def TransitionKey.tokens (key : TransitionKey) : List Token :=
  .identifier "hdr" :: key.value.flatMap fun name => [.op .dot, .identifier name]

/-- A header and a field of it, by names that are identifiers. -/
def TransitionKey.Printable (key : TransitionKey) : Prop :=
  ∃ headerName fieldName, key.value = [headerName, fieldName] ∧ Identifier headerName ∧ Identifier fieldName

namespace P4ParseState

variable (state : P4ParseState)

def transitionTokens : List Token :=
  if state.transitionKey = [] then
    .keyword .transition :: state.transitions.flatMap fun transition =>
      [transition.targetToken, .op .semicolon]
  else
    [.keyword .transition, .keyword .select, .op .lparen] ++
      List.intercalate [.op .comma] (state.transitionKey.map TransitionKey.tokens) ++
      [.op .rparen, .op .lbrace] ++ state.transitions.flatMap Transition.tokens ++ [.op .rbrace]

def tokens : List Token :=
  [.keyword .state, .identifier state.name, .op .lbrace] ++
    state.parserOps.flatMap (fun op => [.keyword .packet, .op .dot, .keyword .extract, .op .lparen,
      .identifier "hdr", .op .dot, .identifier op.parameterName, .op .rparen, .op .semicolon]) ++
    state.transitionTokens ++ [.op .rbrace]

structure Printable : Prop where
  name : Identifier state.name
  ops : ∀ op ∈ state.parserOps, Identifier op.parameterName
  keys : ∀ key ∈ state.transitionKey, key.Printable
  transitions : ∀ transition ∈ state.transitions, transition.Printable

end P4ParseState

namespace P4Parser

variable (parser : P4Parser)

def printedName : String := if parser.name = "parser" then "MyParser" else parser.name

def tokens : List Token :=
  [.keyword .parser, .identifier parser.printedName, .op .lparen, .keyword .packetIn, .keyword .packet,
    .op .rparen, .op .lbrace] ++ parser.parseStates.flatMap P4ParseState.tokens ++ [.op .rbrace]

structure Printable : Prop where
  name : Identifier parser.printedName
  states : ∀ state ∈ parser.parseStates, state.Printable

end P4Parser

/-! ### The lexer -/

/-- A word that is closed by the next character. -/
theorem lex_closed {word : List Char} (isWord : Word word) (c : Char) (rest : List Char)
    (stop : identifierChar c = false := by decide) :
    lex (word ++ c :: rest) = wordToken word :: lex (c :: rest) := by
  refine lex_word isWord fun other member => ?_
  obtain rfl : c = other := Option.some.inj member
  exact stop

theorem lex_name {name : String} (identifier : Identifier name) (c : Char) (rest : List Char)
    (stop : identifierChar c = false := by decide) :
    lex (name.toList ++ c :: rest) = .identifier name :: lex (c :: rest) := by
  rw [lex_closed identifier.word c rest stop, wordToken_identifier identifier]

/-- The keywords of a parser. -/
def parserKeywords : List Keyword :=
  [.parser, .packetIn, .packet, .state, .extract, .transition, .select, .accept, .default]

theorem word_of_chars {word : List Char} (alpha : word.head?.any Char.isAlpha = true)
    (chars : ∀ c ∈ word, identifierChar c = true) : Word word := by
  refine ⟨?_, chars⟩
  cases word with
  | nil => cases alpha
  | cons first behind => exact ⟨first, behind, rfl, alpha⟩

theorem lex_keyword (keyword : Keyword) (c : Char) (rest : List Char)
    (listed : keyword ∈ parserKeywords := by decide) (stop : identifierChar c = false := by decide) :
    lex (keyword.text.toList ++ c :: rest) = .keyword keyword :: lex (c :: rest) := by
  have facts : ∀ keyword ∈ parserKeywords, (keyword.text.toList.head?.any Char.isAlpha = true ∧
      keyword.text.toList.all identifierChar = true) ∧ wordToken keyword.text.toList = .keyword keyword := by
    decide
  obtain ⟨⟨alpha, chars⟩, token⟩ := facts keyword listed
  rw [lex_closed (word_of_chars alpha (List.all_eq_true.mp chars)) c rest stop, token]

theorem identifier_hdr : Identifier "hdr" := ⟨word_hdr, by decide⟩

theorem lex_tab (rest : List Char) : lex ('\t' :: rest) = lex rest := lex_cons '\t' rest
theorem lex_newline (rest : List Char) : lex ('\n' :: rest) = lex rest := lex_cons '\n' rest
theorem lex_lbrace (rest : List Char) : lex ('{' :: rest) = .op .lbrace :: lex rest := lex_cons '{' rest
theorem lex_rbrace (rest : List Char) : lex ('}' :: rest) = .op .rbrace :: lex rest := lex_cons '}' rest
theorem lex_colon (rest : List Char) : lex (':' :: rest) = .op .colon :: lex rest := lex_cons ':' rest
theorem lex_comma (rest : List Char) : lex (',' :: rest) = .op .comma :: lex rest := lex_cons ',' rest
theorem lex_andAndAnd (rest : List Char) : lex ('&' :: '&' :: '&' :: rest) = .andAndAnd :: lex rest :=
  lex_cons '&' ('&' :: '&' :: rest)

theorem Transition.lex_target {transition : Transition} (printable : transition.Printable)
    (rest : List Char) :
    lex (transition.target ++ ';' :: '\n' :: rest) = transition.targetToken ::
      .op .semicolon :: lex rest := by
  unfold target targetToken
  split
  · rw [show "accept".toList = Keyword.accept.text.toList from rfl, lex_keyword .accept ';', lex_semicolon,
      lex_newline]
  · next named => rw [lex_name (printable.next.resolve_left named) ';', lex_semicolon, lex_newline]

private theorem isHex_ne {text : String} (hex : IsHex text) : text ≠ "" := by
  rintro rfl
  obtain ⟨value, impossible⟩ := hex
  cases impossible

theorem lex_literal {text : String} (hex : IsHex text) {c : Char} (stop : hexDigit c = false)
    (rest : List Char) :
    lex (text.toList ++ c :: rest) = .valueInt (literal text) :: lex (c :: rest) := by
  obtain ⟨value, hex⟩ := hex
  have closed : ∀ other ∈ (c :: rest).head?, hexDigit other = false := by
    intro other member
    obtain rfl : c = other := Option.some.inj member
    exact stop
  rw [lex_hexstr hex closed, literal, hex]
  rfl

theorem Transition.lex_output {transition : Transition} (printable : transition.Printable)
    (rest : List Char) :
    lex (transition.output ++ rest) = transition.tokens ++ lex rest := by
  have tabs : "\t\t\t".toList = ['\t', '\t', '\t'] := by decide
  have ampersands : " &&& ".toList = [' ', '&', '&', '&', ' '] := by decide
  have colon : ": ".toList = [':', ' '] := by decide
  have stop : ";\n".toList = [';', '\n'] := by decide
  have behind := lex_target printable rest
  unfold output tokens keyTokens
  simp only [tabs, ampersands, colon, stop, List.append_assoc, List.cons_append, List.nil_append, lex_tab]
  rcases printable.value with ⟨isDefault, noMask⟩ | ⟨notDefault, hex, noMask | maskHex⟩
  · rw [if_pos noMask, if_pos isDefault, isDefault, List.nil_append,
      show "default".toList = Keyword.default.text.toList from rfl, lex_keyword .default ':',
      lex_colon, lex_blank,
      behind]
    rfl
  · rw [if_pos noMask, if_neg notDefault, if_pos noMask, List.nil_append, lex_literal hex rfl,
      lex_colon, lex_blank, behind]
    rfl
  · rw [if_neg (isHex_ne maskHex), if_neg notDefault, if_neg (isHex_ne maskHex)]
    simp only [List.cons_append, List.nil_append]
    rw [lex_literal hex rfl, lex_blank, lex_andAndAnd, lex_blank, lex_literal maskHex rfl,
      lex_colon, lex_blank, behind]

theorem TransitionKey.lex_output {key : TransitionKey} (printable : key.Printable) {c : Char}
    (stop : identifierChar c = false) (rest : List Char) :
    lex (key.output ++ c :: rest) = key.tokens ++ lex (c :: rest) := by
  obtain ⟨headerName, fieldName, value, header, field⟩ := printable
  unfold output tokens
  rw [value]
  simp only [List.flatMap_cons, List.flatMap_nil, List.append_nil, List.append_assoc,
    List.cons_append, List.nil_append]
  rw [lex_name identifier_hdr '.', lex_dot, lex_name header '.', lex_dot, lex_name field c _ stop]

theorem lex_keys {keys : List TransitionKey} (printable : ∀ key ∈ keys, key.Printable) (rest : List Char) :
    lex (List.intercalate ", ".toList (keys.map TransitionKey.output) ++ ')' :: rest) =
      List.intercalate [.op .comma] (keys.map TransitionKey.tokens) ++ lex (')' :: rest) := by
  have comma : ", ".toList = [',', ' '] := by decide
  induction keys with
  | nil => rfl
  | cons key others ih =>
      have first := printable key List.mem_cons_self
      have ih := ih fun other member => printable other (List.mem_cons_of_mem _ member)
      cases others with
      | nil => simpa [List.intercalate] using TransitionKey.lex_output first rfl rest
      | cons next others =>
          rw [comma] at ih ⊢
          simp only [List.map_cons, List.intercalate_cons_cons, List.append_assoc, List.cons_append,
            List.nil_append] at ih ⊢
          rw [TransitionKey.lex_output first rfl, lex_comma, lex_blank, ih]

theorem lex_flatMap {α : Type} {print : α → List Char} {tokens : α → List Token} {items : List α}
    (each : ∀ item ∈ items, ∀ rest, lex (print item ++ rest) = tokens item ++ lex rest) (rest : List Char) :
    lex (items.flatMap print ++ rest) = items.flatMap tokens ++ lex rest := by
  induction items with
  | nil => rfl
  | cons item others ih =>
      rw [List.flatMap_cons, List.flatMap_cons, List.append_assoc, each item List.mem_cons_self,
        ih fun other member => each other (List.mem_cons_of_mem _ member), List.append_assoc]

theorem ParserOperation.lex_output {op : ParserOperation} (named : Identifier op.parameterName)
    (rest : List Char) :
    lex (op.output ++ rest) = [.keyword .packet, .op .dot, .keyword .extract, .op .lparen,
      .identifier "hdr", .op .dot, .identifier op.parameterName, .op .rparen, .op .semicolon] ++
        lex rest := by
  have front : "\t\tpacket.extract(hdr.".toList = '\t' :: '\t' :: (Keyword.packet.text.toList ++
      '.' :: (Keyword.extract.text.toList ++ '(' :: ("hdr".toList ++ ['.']))) := by decide
  have back : ");\n".toList = [')', ';', '\n'] := by decide
  unfold output
  simp only [front, back, List.append_assoc, List.cons_append, List.nil_append]
  rw [lex_tab, lex_tab, lex_keyword .packet '.', lex_dot, lex_keyword .extract '(', lex_lparen,
    lex_name identifier_hdr '.', lex_dot, lex_name named ')', lex_rparen, lex_semicolon, lex_newline]

namespace P4ParseState

theorem lex_transitionOutput {state : P4ParseState} (printable : state.Printable) (rest : List Char) :
    lex (state.transitionOutput ++ rest) = state.transitionTokens ++ lex rest := by
  unfold transitionOutput transitionTokens
  split
  · have front : "\t\ttransition ".toList = '\t' :: '\t' ::
      (Keyword.transition.text.toList ++ [' ']) := by decide
    have back : ";\n".toList = [';', '\n'] := by decide
    have targets : ∀ transition ∈ state.transitions, ∀ rest,
        lex ((transition.target ++ ";\n".toList) ++ rest) =
            [transition.targetToken, .op .semicolon] ++ lex rest := by
      intro transition member rest
      rw [back, List.append_assoc]
      exact Transition.lex_target (printable.transitions transition member) rest
    simp only [front, List.append_assoc, List.cons_append, List.nil_append]
    rw [lex_tab, lex_tab, lex_keyword .transition ' ', lex_blank, lex_flatMap targets]
  · have front : "\t\ttransition select(".toList = '\t' :: '\t' :: (Keyword.transition.text.toList ++
        ' ' :: (Keyword.select.text.toList ++ ['('])) := by decide
    have middle : ") \x7b\n".toList = [')', ' ', '{', '\n'] := by decide
    have back : "\t\t\x7d\n".toList = ['\t', '\t', '}', '\n'] := by decide
    simp only [front, middle, back, List.append_assoc, List.cons_append, List.nil_append]
    rw [lex_tab, lex_tab, lex_keyword .transition ' ', lex_blank, lex_keyword .select '(', lex_lparen,
      lex_keys printable.keys, lex_rparen, lex_blank, lex_lbrace, lex_newline,
      lex_flatMap fun transition member => Transition.lex_output (printable.transitions transition member),
      lex_tab, lex_tab, lex_rbrace, lex_newline]

theorem lex_output {state : P4ParseState} (printable : state.Printable) (rest : List Char) :
    lex (state.output ++ rest) = state.tokens ++ lex rest := by
  have front : "\tstate ".toList = '\t' :: (Keyword.state.text.toList ++ [' ']) := by decide
  have middle : " \x7b\n".toList = [' ', '{', '\n'] := by decide
  have back : "\t\x7d\n".toList = ['\t', '}', '\n'] := by decide
  unfold output tokens
  simp only [front, middle, back, List.append_assoc, List.cons_append, List.nil_append]
  rw [lex_tab, lex_keyword .state ' ', lex_blank, lex_name printable.name ' ', lex_blank, lex_lbrace,
    lex_newline, lex_flatMap fun op member =>
      ParserOperation.lex_output (printable.ops op member), lex_transitionOutput printable,
    lex_tab, lex_rbrace, lex_newline]

end P4ParseState

theorem P4Parser.lex_output {parser : P4Parser} (printable : parser.Printable) (rest : List Char) :
    lex (parser.output ++ rest) = parser.tokens ++ lex rest := by
  have name : (if parser.name = "parser" then "MyParser".toList else parser.name.toList) =
      parser.printedName.toList := by
    unfold printedName
    split <;> rfl
  have front : "parser ".toList = Keyword.parser.text.toList ++ [' '] := by decide
  have middle : "(packet_in packet) \x7b\n".toList = '(' :: (Keyword.packetIn.text.toList ++
      ' ' :: (Keyword.packet.text.toList ++ [')', ' ', '{', '\n'])) := by decide
  have back : "\x7d\n".toList = ['}', '\n'] := by decide
  unfold output tokens
  rw [name]
  simp only [front, middle, back, List.append_assoc, List.cons_append, List.nil_append]
  rw [lex_keyword .parser ' ', lex_blank, lex_name printable.name '(', lex_lparen, lex_keyword .packetIn ' ',
    lex_blank, lex_keyword .packet ')', lex_rparen, lex_blank, lex_lbrace, lex_newline,
    lex_flatMap fun state member => P4ParseState.lex_output (printable.states state member),
    lex_rbrace, lex_newline]

/-! ### The grammar -/

namespace Transition

variable (transition : Transition)

def key : Key :=
  if transition.value = "default" then .default
  else if transition.mask = "" then .exact (literal transition.value)
  else .ternary (literal transition.value) (literal transition.mask)

def entry (key : Key) : TransitionEntry :=
  if transition.nextState = "" then { key, next := "accept", acceptDrop := 0 }
  else { key, next := transition.nextState }

theorem parseTarget_token (key : Key) (rest : List Token) :
    parseTarget key (transition.targetToken :: rest) = some (transition.entry key, rest) := by
  unfold targetToken entry
  split <;> rfl

theorem parseKey_tokens (rest : List Token) :
    parseKey (transition.keyTokens ++ .op .colon :: rest) = some (transition.key, .op .colon :: rest) := by
  unfold keyTokens key
  split
  · rfl
  · split <;> rfl

theorem parseEntry_tokens (rest : List Token) :
    parseEntry (transition.tokens ++ rest) = some (transition.entry transition.key, rest) := by
  have shape : transition.tokens ++ rest =
      transition.keyTokens ++ .op .colon :: transition.targetToken :: .op .semicolon ::
        rest := by simp [tokens]
  simp only [parseEntry, shape, parseKey_tokens, expect, if_true, parseTarget_token, Option.bind_eq_bind,
    Option.bind_some, Option.pure_def]

theorem tokens_head : transition.tokens.head? ≠ some (.op .rbrace) := by
  unfold tokens keyTokens
  split <;> simp

end Transition

theorem parseEntries_tokens {transitions : List Transition} {fuel : Nat} (enough : transitions.length ≤ fuel)
    (rest : List Token) :
    parseEntries fuel (transitions.flatMap Transition.tokens ++ .op .rbrace :: rest) =
      some (transitions.map fun transition => transition.entry transition.key, rest) := by
  induction transitions generalizing fuel with
  | nil => cases fuel <;> rfl
  | cons transition others ih =>
      cases fuel with
      | zero => cases enough
      | succ fuel =>
          have others := ih (Nat.le_of_succ_le_succ enough)
          rw [List.flatMap_cons, List.append_assoc, parseEntries]
          · simp only [Transition.parseEntry_tokens, others, Option.bind_eq_bind, Option.bind_some,
              Option.pure_def, List.map_cons]
          · intro behind brace
            have head := transition.tokens_head
            cases shape : transition.tokens with
            | nil => simp [Transition.tokens] at shape
            | cons first others =>
                rw [shape] at brace head
                exact head (congrArg some (List.cons.inj brace).1)

/-- The member and the field of a key. -/
def TransitionKey.lvalue (key : TransitionKey) : LValue :=
  match key.value with
  | [headerName, fieldName] => .field "hdr" headerName fieldName
  | _ => .field "hdr" "" ""

theorem TransitionKey.parseField_tokens {key : TransitionKey} (printable : key.Printable)
    (rest : List Token) :
    parseField (key.tokens ++ rest) = some (key.lvalue, rest) := by
  obtain ⟨headerName, fieldName, value, -, -⟩ := printable
  unfold tokens lvalue
  rw [value]
  rfl

theorem parseMoreFields_tokens {keys : List TransitionKey}
    (printable : ∀ key ∈ keys, key.Printable) {fuel : Nat}
    (enough : keys.length ≤ fuel) (rest : List Token) :
    parseMoreFields fuel (keys.flatMap (fun key => .op .comma :: key.tokens) ++ .op .rparen :: rest) =
      some (keys.map TransitionKey.lvalue, rest) := by
  induction keys generalizing fuel with
  | nil => cases fuel <;> rfl
  | cons key others ih =>
      cases fuel with
      | zero => cases enough
      | succ fuel =>
          have field := TransitionKey.parseField_tokens (printable key List.mem_cons_self)
          have others := ih (fun other member => printable other (List.mem_cons_of_mem _ member))
            (Nat.le_of_succ_le_succ enough)
          simp only [List.flatMap_cons, List.cons_append, List.append_assoc, parseMoreFields, field, others,
            Option.bind_eq_bind, Option.bind_some, Option.pure_def, List.map_cons]

theorem intercalate_tokens (key : TransitionKey) (others : List TransitionKey) :
    List.intercalate [Token.op .comma] ((key :: others).map TransitionKey.tokens) =
      key.tokens ++ others.flatMap fun key => .op .comma :: key.tokens := by
  induction others generalizing key with
  | nil => simp [List.intercalate]
  | cons next others ih =>
      rw [List.map_cons, List.map_cons, List.intercalate_cons_cons, List.flatMap_cons,
        ← List.map_cons, ih next]
      simp

theorem length_le_flatMap {α β : Type} {items : List α} {print : α → List β}
    (nonempty : ∀ item, print item ≠ []) :
    items.length ≤ (items.flatMap print).length := by
  induction items with
  | nil => exact Nat.le_refl _
  | cons item others ih =>
      have one := List.length_pos_iff.mpr (nonempty item)
      rw [List.flatMap_cons, List.length_append, List.length_cons]
      omega

theorem parseFields_tokens {keys : List TransitionKey} (some_ : keys ≠ [])
    (printable : ∀ key ∈ keys, key.Printable) (rest : List Token) :
    parseFields (List.intercalate [.op .comma] (keys.map TransitionKey.tokens) ++ .op .rparen :: rest) =
      some (keys.map TransitionKey.lvalue, rest) := by
  cases keys with
  | nil => exact absurd rfl some_
  | cons key others =>
      have field := TransitionKey.parseField_tokens (printable key List.mem_cons_self)
      have printed : ∀ other ∈ others, other.Printable :=
        fun other member => printable other (List.mem_cons_of_mem _ member)
      rw [intercalate_tokens, List.append_assoc, parseFields, field]
      have enough : others.length ≤
          (others.flatMap (fun key => Token.op .comma :: key.tokens) ++ .op .rparen :: rest).length := by
        have low :=
          @length_le_flatMap _ _ others (fun key => Token.op .comma :: key.tokens) fun key => by simp
        rw [List.length_append]
        exact Nat.le_trans low (Nat.le_add_right _ _)
      simp only [parseMoreFields_tokens printed enough, Option.map_some, List.map_cons]

namespace P4ParseState

variable (state : P4ParseState)

/-- One header, and one transition where there is no key. -/
structure Single : Prop where
  op : ∃ op, state.parserOps = [op]
  direct : state.transitionKey = [] → ∃ transition, state.transitions = [transition]

def header : String := (state.parserOps.head?.map ParserOperation.parameterName).getD ""

def transition : Compiler.Transition :=
  if state.transitionKey = [] then
    .direct ((state.transitions.head?.map fun transition => transition.entry .default).getD ⟨.default, "", 0⟩)
  else
    .select (state.transitionKey.map TransitionKey.lvalue)
      (state.transitions.map fun transition => transition.entry transition.key)

/-- The state the compiler reads. -/
def stateDef : StateDef := ⟨state.name, "hdr", state.header, state.transition⟩

variable {state}

theorem parseTransition_tokens (single : state.Single) (printable : state.Printable) (rest : List Token) :
    parseTransition (state.transitionTokens ++ rest) = some (state.transition, rest) := by
  unfold transitionTokens transition
  split
  · next keyless =>
      obtain ⟨transition, only⟩ := single.direct keyless
      have target := transition.parseTarget_token .default (.op .semicolon :: rest)
      have notSelect : transition.targetToken ≠ .keyword .select := by
        unfold Transition.targetToken
        split <;> simp
      rw [only]
      simp only [List.flatMap_cons, List.flatMap_nil, List.append_nil, List.cons_append, List.nil_append,
        parseTransition, expect, if_true, Option.bind_eq_bind, Option.bind_some, List.head?_cons,
        Option.map_some,
        Option.getD_some]
      split
      · next equal => exact absurd (List.cons.inj equal).1 notSelect
      · simp only [target, if_true, Option.bind_some, Option.pure_def]
  · next keyed =>
      have fields := parseFields_tokens keyed printable.keys
      have enough : state.transitions.length ≤
          (state.transitions.flatMap Transition.tokens ++ .op .rbrace :: rest).length := by
        have low := @length_le_flatMap _ _ state.transitions Transition.tokens fun transition => by
          simp [Transition.tokens]
        rw [List.length_append]
        exact Nat.le_trans low (Nat.le_add_right _ _)
      simp only [List.append_assoc, List.cons_append, List.nil_append, parseTransition, expect, if_true,
        Option.bind_eq_bind, Option.bind_some, fields, parseEntries_tokens enough, Option.pure_def]

theorem parseState_tokens (single : state.Single) (printable : state.Printable) (rest : List Token) :
    parseState (state.tokens.tail ++ rest) = some (state.stateDef, rest) := by
  obtain ⟨op, only⟩ := single.op
  have transition := parseTransition_tokens single printable (.op .rbrace :: rest)
  unfold tokens stateDef header
  rw [only]
  simp only [List.flatMap_cons, List.flatMap_nil, List.append_nil, List.cons_append,
    List.nil_append, List.tail_cons, List.append_assoc, parseState, parseName, expect, if_true,
    Option.bind_eq_bind, Option.bind_some, transition,
    Option.pure_def, List.head?_cons, Option.map_some, Option.getD_some]

end P4ParseState

theorem parseStates_tokens {states : List P4ParseState} (single : ∀ state ∈ states, state.Single)
    (printable : ∀ state ∈ states, state.Printable) {fuel : Nat} (enough : states.length ≤ fuel)
    (rest : List Token) :
    parseStates fuel (states.flatMap P4ParseState.tokens ++ .op .rbrace :: rest) =
      some (states.map P4ParseState.stateDef, rest) := by
  induction states generalizing fuel with
  | nil => cases fuel <;> rfl
  | cons state others ih =>
      cases fuel with
      | zero => cases enough
      | succ fuel =>
          have own := P4ParseState.parseState_tokens (single state List.mem_cons_self)
            (printable state List.mem_cons_self)
          have others := ih (fun other member => single other (List.mem_cons_of_mem _ member))
            (fun other member => printable other (List.mem_cons_of_mem _ member))
            (Nat.le_of_succ_le_succ enough)
          have shape : state.tokens = .keyword .state :: state.tokens.tail := rfl
          rw [List.flatMap_cons, List.append_assoc, shape]
          simp only [List.cons_append, parseStates, own, others, Option.bind_eq_bind, Option.bind_some,
            Option.pure_def, List.map_cons]

/-- The compiler reads the states of a printed parser back, in their order. -/
theorem P4Parser.read_output {parser : P4Parser} (single : ∀ state ∈ parser.parseStates, state.Single)
    (printable : parser.Printable) (rest : List Char) :
    parserDef.read (lex (parser.output ++ rest)) =
      some (parser.parseStates.map P4ParseState.stateDef, lex rest) := by
  have enough : parser.parseStates.length ≤
      (parser.parseStates.flatMap P4ParseState.tokens ++ .op .rbrace :: lex rest).length := by
    have low := @length_le_flatMap _ _ parser.parseStates P4ParseState.tokens fun state => by
      simp [P4ParseState.tokens]
    rw [List.length_append]
    exact Nat.le_trans low (Nat.le_add_right _ _)
  rw [read_parserDef, P4Parser.lex_output printable, tokens]
  simp only [List.append_assoc, List.cons_append, List.nil_append, parseParser, parseName, expect, if_true,
    Option.bind_eq_bind, Option.bind_some, parseStates_tokens single printable.states enough]

end Ipbm.Compiler.P4r
