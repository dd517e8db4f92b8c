import Ipbm.Compiler.Ast
import Ipbm.Compiler.Lexer

/-! Right sides of assignments in the grammar (`yacc.y`). One token tells the
productions apart, so the parser reads from the left without taking anything back. -/

set_option autoImplicit false

namespace Ipbm.Compiler
open Lexer

inductive Rp4Operation where
  | lvalue (lvalue : LValue)
  | literal (value : Int)
  | parameter (name : String)
  | binary (op : Rp4Operator) (left right : Rp4Operation)
  deriving DecidableEq, Repr

namespace Rp4Operator

def text : Rp4Operator → String
  | plus => "+" | minus => "-" | and => "&" | or => "|" | xor => "^" | eq => "==" | ne => "!="
  | lt => "<" | gt => ">" | le => "<=" | ge => ">=" | not => "~" | notl => "!" | mul => "*" | div => "/"

def all : List Rp4Operator := [plus, minus, and, or, xor, eq, ne, lt, gt, le, ge, not, notl, mul, div]

def token : Rp4Operator → Token
  | plus => .op .plus | minus => .op .minus | and => .op .amp | or => .op .bar | xor => .op .caret
  | eq => .equ | ne => .neq | lt => .op .lt | gt => .op .gt | le => .leq | ge => .geq
  | not => .op .tilde | notl => .op .bang | mul => .op .star | div => .op .slash

end Rp4Operator

namespace Grammar

/-- The production `op`. -/
def parseOp : List Token → Option (Rp4Operator × List Token)
  | [] => none
  | token :: rest => (Rp4Operator.all.find? fun op => decide (op.token = token)).map (·, rest)

def parseRparen : List Token → Option (List Token)
  | .op .rparen :: rest => some rest
  | _ => none

/-- The production `operand`. An identifier in front of a dot is no operand of its own. -/
def parseOperand : List Token → Option (Rp4Operation × List Token)
  | .identifier first :: .op .dot :: .identifier second :: .op .dot :: .identifier third :: rest =>
      some (.lvalue (.field first second third), rest)
  | .identifier first :: .op .dot :: .identifier second :: .op .dot ::
      .keyword .isValid :: .op .lparen :: .op .rparen :: rest =>
      some (.lvalue (.field first second "isValid"), rest)
  | .identifier _ :: .op .dot :: .identifier _ :: .op .dot :: _ => none
  | .identifier first :: .op .dot :: .identifier second :: rest => some (.lvalue (.member first second), rest)
  | .identifier _ :: .op .dot :: _ => none
  | .identifier name :: rest => some (.parameter name, rest)
  | .valueInt value :: rest => some (.literal value, rest)
  | .keyword .true :: rest => some (.literal 1, rest)
  | .keyword .false :: rest => some (.literal 0, rest)
  | _ => none

/-- The production `operation`, with fuel for the parentheses that may open. -/
def parseOperationFrom : Nat → List Token → Option (Rp4Operation × List Token)
  | 0, _ => none
  | fuel + 1, .op .lparen :: tokens => do
      let (left, tokens) ← parseOperationFrom fuel tokens
      let (op, tokens) ← parseOp tokens
      let (right, tokens) ← parseOperationFrom fuel tokens
      let tokens ← parseRparen tokens
      return (.binary op left right, tokens)
  | _ + 1, tokens => parseOperand tokens

/-- An operation in front of some tokens. -/
def parseOperation (tokens : List Token) : Option (Rp4Operation × List Token) :=
  parseOperationFrom (tokens.length + 1) tokens

end Grammar

namespace Rp4Operation

/-- The tokens of an operation. -/
def size : Rp4Operation → Nat
  | .lvalue (.member ..) => 3
  | .lvalue (.field _ _ fieldName) => if fieldName = "isValid" then 7 else 5
  | .literal _ | .parameter _ => 1
  | .binary _ left right => left.size + right.size + 3

/-- Names are identifiers and literals are 32-bit integers. -/
def WellNamed : Rp4Operation → Prop
  | .lvalue (.member instanceName memberName) => Identifier instanceName ∧ Identifier memberName
  | .lvalue (.field instanceName memberName fieldName) =>
      Identifier instanceName ∧ Identifier memberName ∧ (Identifier fieldName ∨ fieldName = "isValid")
  | .literal value => -2 ^ 31 ≤ value ∧ value < 2 ^ 31
  | .parameter name => Identifier name
  | .binary _ left right => left.WellNamed ∧ right.WellNamed

end Rp4Operation

namespace Grammar

theorem identifier_ne_isValid {name : String} (identifier : Identifier name) : name ≠ "isValid" := by
  rintro rfl
  have free := identifier.free
  revert free
  decide

/-- An operand takes as many tokens as it has. -/
theorem parseOperand_spec {tokens rest : List Token} {operation : Rp4Operation}
    (valid : ∀ token ∈ tokens, Valid token) (parsed : parseOperand tokens = some (operation, rest)) :
    operation.WellNamed ∧ ∃ consumed, tokens = consumed ++ rest ∧ consumed.length = operation.size := by
  unfold parseOperand at parsed
  split at parsed
  case h_1 first second third behind =>
    obtain ⟨rfl, rfl⟩ := Prod.mk.inj (Option.some.inj parsed)
    have last : Identifier third := valid (.identifier third) (by simp)
    refine ⟨⟨valid (.identifier first) (by simp), valid (.identifier second) (by simp), .inl last⟩,
      [_, _, _, _, _], rfl, ?_⟩
    rw [Rp4Operation.size, if_neg (identifier_ne_isValid last)]
    rfl
  case h_2 first second behind =>
    obtain ⟨rfl, rfl⟩ := Prod.mk.inj (Option.some.inj parsed)
    exact ⟨⟨valid (.identifier first) (by simp), valid (.identifier second) (by simp), .inr rfl⟩,
      [_, _, _, _, _, _, _], rfl, rfl⟩
  case h_4 first second behind _ _ _ =>
    obtain ⟨rfl, rfl⟩ := Prod.mk.inj (Option.some.inj parsed)
    exact ⟨⟨valid (.identifier first) (by simp), valid (.identifier second) (by simp)⟩, [_, _, _], rfl, rfl⟩
  case h_6 =>
    obtain ⟨rfl, rfl⟩ := Prod.mk.inj (Option.some.inj parsed)
    exact ⟨valid (.identifier _) List.mem_cons_self, [_], rfl, rfl⟩
  case h_7 value behind =>
    obtain ⟨rfl, rfl⟩ := Prod.mk.inj (Option.some.inj parsed)
    exact ⟨valid (.valueInt value) (by simp), [_], rfl, rfl⟩
  case h_8 behind | h_9 behind =>
    obtain ⟨rfl, rfl⟩ := Prod.mk.inj (Option.some.inj parsed)
    exact ⟨by simp [Rp4Operation.WellNamed], [_], rfl, rfl⟩
  all_goals cases parsed

theorem parseOp_eq_some {tokens rest : List Token} {op : Rp4Operator} :
    parseOp tokens = some (op, rest) ↔ tokens = op.token :: rest := by
  constructor
  · intro parsed
    cases tokens with
    | nil => cases parsed
    | cons token behind =>
        obtain ⟨found, isFound, same⟩ := Option.map_eq_some_iff.mp parsed
        obtain ⟨rfl, rfl⟩ := Prod.mk.inj same
        have isOp := List.find?_some isFound
        rw [of_decide_eq_true isOp]
  · rintro rfl
    cases op <;> rfl

theorem parseRparen_eq_some {tokens rest : List Token} :
    parseRparen tokens = some rest ↔ tokens = .op .rparen :: rest := by
  constructor
  · intro parsed
    unfold parseRparen at parsed
    split at parsed
    · rw [Option.some.inj parsed]
    · cases parsed
  · rintro rfl
    rfl

/-- A parenthesis opens a binary operation. -/
theorem parseOperationFrom_lparen {fuel : Nat} {tokens rest : List Token} {operation : Rp4Operation} :
    parseOperationFrom (fuel + 1) (.op .lparen :: tokens) = some (operation, rest) ↔
      ∃ op left right middle, parseOperationFrom fuel tokens = some (left, op.token :: middle) ∧
        parseOperationFrom fuel middle = some (right, .op .rparen :: rest) ∧
        operation = .binary op left right := by
  rw [parseOperationFrom]
  constructor
  · intro parsed
    obtain ⟨⟨left, afterLeft⟩, isLeft, parsed⟩ := Option.bind_eq_some_iff.mp parsed
    obtain ⟨⟨op, middle⟩, isOp, parsed⟩ := Option.bind_eq_some_iff.mp parsed
    obtain ⟨⟨right, afterRight⟩, isRight, parsed⟩ := Option.bind_eq_some_iff.mp parsed
    obtain ⟨behind, closed, parsed⟩ := Option.bind_eq_some_iff.mp parsed
    cases parsed
    obtain rfl := parseOp_eq_some.mp isOp
    obtain rfl := parseRparen_eq_some.mp closed
    exact ⟨op, left, right, middle, isLeft, isRight, rfl⟩
  · rintro ⟨op, left, right, middle, isLeft, isRight, rfl⟩
    simp only [isLeft, parseOp_eq_some.mpr rfl, isRight, parseRparen_eq_some.mpr rfl, Option.bind_eq_bind,
      Option.bind_some, Option.pure_def]

/-- Two names are a member, unless a dot follows. -/
theorem parseOperand_member (first second : String) {rest : List Token}
    (stop : rest.head? ≠ some (.op .dot)) :
    parseOperand (.identifier first :: .op .dot :: .identifier second :: rest) =
      some (.lvalue (.member first second), rest) := by
  rw [parseOperand]
  all_goals
    intros
    subst_vars
    exact stop rfl

/-- One name is a parameter, unless a dot follows. -/
theorem parseOperand_parameter (name : String) {rest : List Token} (stop : rest.head? ≠ some (.op .dot)) :
    parseOperand (.identifier name :: rest) = some (.parameter name, rest) := by
  rw [parseOperand]
  all_goals
    intros
    subst_vars
    exact stop rfl

theorem parseOperationFrom_operand {fuel : Nat} {tokens : List Token}
    (closed : tokens.head? ≠ some (.op .lparen)) :
    parseOperationFrom (fuel + 1) tokens = parseOperand tokens := by
  rw [parseOperationFrom]
  rintro behind rfl
  exact closed rfl

/-- So does an operation. -/
theorem parseOperationFrom_spec {fuel : Nat} {tokens rest : List Token} {operation : Rp4Operation}
    (valid : ∀ token ∈ tokens, Valid token)
    (parsed : parseOperationFrom fuel tokens = some (operation, rest)) :
    operation.WellNamed ∧ ∃ consumed, tokens = consumed ++ rest ∧ consumed.length = operation.size := by
  induction fuel generalizing tokens rest operation with
  | zero => cases parsed
  | succ fuel ih =>
      by_cases opened : tokens.head? = some (.op .lparen)
      · obtain ⟨behind, rfl⟩ := List.head?_eq_some_iff.mp opened
        obtain ⟨op, left, right, middle, isLeft, isRight, rfl⟩ := parseOperationFrom_lparen.mp parsed
        have inner : ∀ token ∈ behind, Valid token :=
          fun token member => valid token (List.mem_cons_of_mem _ member)
        obtain ⟨leftNamed, first, rfl, firstSize⟩ := ih inner isLeft
        have later : ∀ token ∈ middle, Valid token := fun token member =>
          inner token (List.mem_append_right _ (List.mem_cons_of_mem _ member))
        obtain ⟨rightNamed, second, rfl, secondSize⟩ := ih later isRight
        refine ⟨⟨leftNamed, rightNamed⟩,
          .op .lparen :: first ++ op.token :: second ++ [.op .rparen], by simp, ?_⟩
        simp only [List.length_append, List.length_cons, List.length_nil, Rp4Operation.size,
          firstSize, secondSize]
        omega
      · rw [parseOperationFrom_operand opened] at parsed
        exact parseOperand_spec valid parsed

end Grammar

end Ipbm.Compiler
