import Ipbm.Compiler.ProgramReading

/-! The loops that read a parser read the production `parser_def`. -/

set_option autoImplicit false

namespace Ipbm.Compiler.Grammar
open Lib Lexer Production

/-! ### Tokens -/

theorem read_token (expected : Token) (tokens : List Token) :
    (token expected).read tokens = (expect expected tokens).map fun rest => ((), rest) := by
  cases tokens with
  | nil => rfl
  | cons first behind =>
      by_cases same : first = expected
      · simp [token, terminal, expect, same]
      · simp [token, terminal, expect, same]

theorem read_identifier (tokens : List Token) : identifier.read tokens = parseName tokens := by
  cases tokens with
  | nil => rfl
  | cons first behind => cases first <;> rfl

theorem read_token_bind {β : Type} (expected : Token) (next : Unit → Production Token β)
    (tokens : List Token) :
    (token expected >>= next).read tokens = (expect expected tokens).bind (next ()).read := by
  rw [read_bind, read_token, Option.bind_map]
  rfl

/-! ### Transitions -/

theorem read_directEntry (key : Key) (tokens : List Token) :
    (directEntry key).read tokens = parseTarget key tokens := by
  cases tokens with
  | nil => rfl
  | cons first behind =>
      cases first with
      | keyword name => cases name <;> rfl
      | _ => rfl

theorem read_transitionEntry (tokens : List Token) : transitionEntry.read tokens = parseEntry tokens := by
  unfold transitionEntry parseEntry symbol
  simp only [read_bind, read_token, read_directEntry, read_pure, Option.bind_map, Function.comp_def]
  rfl

theorem read_transitionEntries_rbrace (tokens : List Token) :
    (do let entries ← transitionEntries; symbol .rbrace; return entries).read tokens =
      parseEntries tokens.length tokens := by
  have refused (tokens : List Token) (other : tokens.head?.any startsKey = false) :
      parseEntry tokens = none := by
    cases parsed : parseKey tokens with
    | none => rw [parseEntry, parsed]; rfl
    | some key =>
        obtain ⟨sentence, rfl, derives⟩ := @decided_keyDef.sound _ key.1 key.2 parsed
        obtain ⟨token, behind, rfl, starts⟩ := startsWith_keyDef _ _ derives
        exact absurd starts (Bool.eq_false_iff.mp other)
  have loop :=
    @closedLoop_eq _ _ _ parseEntries (.op .rbrace) startsKey transitionEntry ?_ ?_ ?_ ?_ tokens.length tokens
  · rw [loop]
    rfl
  · intro fuel rest
    cases fuel <;> rfl
  · intro tokens other
    unfold parseEntries
    split
    · exact absurd rfl other
    · rfl
    · contradiction
  · intro fuel tokens other stuck
    unfold parseEntries
    split
    · exact absurd rfl other
    · rfl
    · rw [refused tokens stuck]; rfl
  · intro fuel tokens begins
    rw [parseEntries]
    · rw [read_transitionEntry]
      cases parseEntry tokens with
      | none => rfl
      | some entry => 
        rfl
    · rintro rest rfl
      cases begins

theorem read_moreFields_rparen (fuel : Nat) (tokens : List Token) :
    parseMoreFields fuel tokens =
      (readMany (· = .op .comma) (do token (.op .comma); field : Production Token LValue).read
        fuel tokens).bind
        fun items => ((symbol .rparen).read items.2).bind fun closed => some (items.1, closed.2) := by
  refine @closedLoop_eq _ _ _ parseMoreFields (.op .rparen) (· = .op .comma)
    (do token (.op .comma); field) ?_ ?_ ?_ ?_
    fuel tokens
  · intro fuel rest
    cases fuel <;> rfl
  · intro tokens other
    unfold parseMoreFields
    split
    · exact absurd rfl other
    · contradiction
    · rfl
  · intro fuel tokens other stuck
    unfold parseMoreFields
    split
    · exact absurd rfl other
    · cases stuck
    · rfl
  · intro fuel tokens begins
    cases tokens with
    | nil => cases begins
    | cons first behind =>
        obtain rfl := of_decide_eq_true begins
        rw [read_token_bind]
        cases parseField behind with
        | none => rfl
        | some field => rfl

theorem parseField_refused {tokens : List Token} (other : tokens.head?.any startsIdentifier = false) :
    parseField tokens = none := by
  cases parsed : parseField tokens with
  | none => rfl
  | some taken =>
      obtain ⟨sentence, rfl, derives⟩ := @decided_field.sound _ taken.1 taken.2 parsed
      obtain ⟨token, behind, rfl, starts⟩ := startsWith_field _ _ derives
      exact absurd starts (Bool.eq_false_iff.mp other)

theorem read_fields_rparen (tokens : List Token) :
    (do let targets ← fields; symbol .rparen; return targets).read tokens = parseFields tokens := by
  have first : (choice startsIdentifier (do return [← field]) (return [])).read tokens =
      if tokens.head?.any startsIdentifier then (parseField tokens).bind fun first =>
        some ([first.1], first.2)
      else some ([], tokens) := rfl
  have shape : (do let targets ← fields; symbol .rparen; return targets).read tokens =
      (((choice startsIdentifier (do return [← field]) (return [])).read tokens).bind fun front =>
        ((readMany (· = .op .comma) (do token (.op .comma); field : Production Token LValue).read
          front.2.length front.2).bind
          fun items => some (front.1 ++ items.1, items.2))).bind fun targets =>
            ((symbol .rparen).read targets.2).bind fun closed => some (targets.1, closed.2) := rfl
  rw [shape, first, parseFields]
  by_cases begins : tokens.head?.any startsIdentifier = true
  · rw [if_pos begins]
    cases parseField tokens with
    | none =>
        cases tokens with
        | nil => rfl
        | cons token behind =>
            cases token with
            | identifier name => rfl
            | _ => cases begins
    | some first =>
        dsimp only
        rw [read_moreFields_rparen]
        dsimp only [Option.bind_some]
        cases readMany _ _ first.2.length first.2 with
        | none => rfl
        | some items =>
            dsimp only [Option.bind_some]
            cases (symbol .rparen).read items.2 <;> rfl
  · rw [if_neg begins, parseField_refused (Bool.eq_false_iff.mpr begins)]
    dsimp only
    rw [read_moreFields_rparen]
    dsimp only [Option.bind_some, List.nil_append]
    cases readMany _ _ tokens.length tokens with
    | none => rfl
    | some items => rfl

/-- What is read up to a closing token, and then on. -/
theorem read_closed {α β : Type} {items : Production Token α} {close : Token} (next : α → Production Token β)
    (tokens : List Token) : (items >>= fun value => token close >>= fun _ => next value).read tokens =
      ((items >>= fun value => token close >>= fun _ => pure value).read tokens).bind fun taken =>
        (next taken.1).read taken.2 := by
  rw [read_bind, read_bind, Option.bind_assoc]
  refine congrArg _ (funext fun taken => ?_)
  change Option.bind _ _ = Option.bind (Option.bind _ _) _
  rw [Option.bind_assoc]
  rfl

theorem read_symbol_bind {β : Type} (name : SingleOp) (next : Unit → Production Token β)
    (tokens : List Token) : (symbol name >>= next).read tokens =
      (expect (.op name) tokens).bind (next ()).read := read_token_bind _ next tokens

/-- What follows `select`. -/
theorem read_select (tokens : List Token) :
    (do
      symbol .lparen
      let targets ← fields
      symbol .rparen
      symbol .lbrace
      let entries ← transitionEntries
      symbol .rbrace
      return Transition.select targets entries : Production Token Transition).read tokens =
      (expect (.op .lparen) tokens).bind fun tokens => (parseFields tokens).bind fun targets =>
        (expect (.op .lbrace) targets.2).bind fun tokens =>
          (parseEntries tokens.length tokens).bind fun entries =>
          some (.select targets.1 entries.1, entries.2) := by
  rw [read_symbol_bind]
  refine congrArg _ (funext fun tokens => ?_)
  refine (read_closed _ tokens).trans ((congrArg (Option.bind · _) (read_fields_rparen tokens)).trans ?_)
  refine congrArg _ (funext fun targets => ?_)
  rw [read_symbol_bind]
  refine congrArg _ (funext fun tokens => ?_)
  exact (read_closed _ tokens).trans (congrArg (Option.bind · _) (read_transitionEntries_rbrace tokens))

theorem read_direct (tokens : List Token) :
    (do
      let entry ← directEntry .default
      symbol .semicolon
      return Transition.direct entry : Production Token Transition).read tokens =
      (parseTarget .default tokens).bind fun entry => (expect (.op .semicolon) entry.2).bind fun tokens =>
        some (.direct entry.1, tokens) := by
  rw [read_bind, read_directEntry]
  refine congrArg _ (funext fun entry => ?_)
  exact read_symbol_bind .semicolon _ entry.2

theorem read_transitionStmt (tokens : List Token) : transitionStmt.read tokens = parseTransition tokens := by
  unfold transitionStmt parseTransition keyword
  rw [read_token_bind, Option.bind_eq_bind]
  refine congrArg _ (funext fun rest => ?_)
  by_cases select : rest.head? = some (.keyword .select)
  · obtain ⟨behind, rfl⟩ := List.head?_eq_some_iff.mp select
    exact read_select behind
  · refine Eq.trans (if_neg ?_) ((read_direct rest).trans ?_)
    · cases rest with
      | nil => exact Bool.false_ne_true
      | cons first behind => exact fun same => select (congrArg some (of_decide_eq_true same))
    · split
      · exact absurd rfl select
      · rfl

/-! ### States -/

theorem read_stateDef (tokens : List Token) :
    stateDef.read (.keyword .state :: tokens) = parseState tokens := by
  unfold stateDef extractStmt parseState symbol keyword
  simp only [read_bind, read_token, read_identifier, read_transitionStmt, read_pure,
    Option.bind_map, Function.comp_def, Option.bind_assoc]
  rfl

theorem parseStates_eq (fuel : Nat) (tokens : List Token) :
    parseStates fuel tokens = (readMany (· = .keyword .state) stateDef.read fuel tokens).bind
        fun items => ((symbol .rbrace).read items.2).bind fun closed => some (items.1, closed.2) := by
  refine @closedLoop_eq _ _ _ parseStates (.op .rbrace) (· = .keyword .state) stateDef ?_ ?_ ?_ ?_ fuel tokens
  · intro fuel rest
    cases fuel <;> rfl
  · intro tokens other
    unfold parseStates
    split
    · exact absurd rfl other
    · contradiction
    · rfl
  · intro fuel tokens other stuck
    unfold parseStates
    split
    · exact absurd rfl other
    · cases stuck
    · rfl
  · intro fuel tokens begins
    cases tokens with
    | nil => cases begins
    | cons first behind =>
        obtain rfl := of_decide_eq_true begins
        rw [parseStates, read_stateDef]
        cases parseState behind with
        | none => rfl
        | some state => rfl

/-- The production and the loops read the same parsers. -/
theorem read_parserDef (tokens : List Token) : parserDef.read tokens = parseParser tokens := by
  have states (tokens : List Token) : (do let states ← stateDefs; symbol .rbrace; return states).read tokens =
      parseStates tokens.length tokens := (parseStates_eq ..).symm
  unfold parserDef parseParser
  simp only [read_bind (keyword _), read_bind identifier, read_bind (symbol _), read_identifier, states]
  unfold keyword symbol
  simp only [read_token, Option.bind_map, Function.comp_def]
  rfl

end Ipbm.Compiler.Grammar
