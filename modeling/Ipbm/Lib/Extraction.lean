import Mathlib.Data.Nat.Digits.Lemmas
import Mathlib.Logic.Function.Basic
import Mathlib.Logic.Relation

/-! Parsers of packets: a move accepts, or takes a header off the packet and goes on
somewhere else. Two parsers whose positions correspond take the same path. -/

set_option autoImplicit false

namespace Ipbm.Lib

inductive Move (Header Position : Type) where
  | accept
  | extract (header : Header) (next : Position)

/-- Without a move, or where a header does not fit, the parser stops. -/
structure Extractor (Header Position View : Type) where
  move : Position → View → Option (Move Header Position)
  take : Header → View → Option View

/-- `running` is an end of the fuel. -/
inductive Verdict where
  | accepted | stopped | running
  deriving DecidableEq, Repr

/-- The headers that are taken, and how it ends. -/
def Extractor.path {Header Position View : Type} (extractor : Extractor Header Position View) :
    Nat → Position → View → List Header × Verdict
  | 0, _, _ => ([], .running)
  | fuel + 1, position, view =>
      match extractor.move position view with
      | none => ([], .stopped)
      | some .accept => ([], .accepted)
      | some (.extract header next) =>
          match extractor.take header view with
          | none => ([], .stopped)
          | some view =>
              let rest := extractor.path fuel next view
              (header :: rest.1, rest.2)

/-- What holds of every header that is extracted holds of all headers of a path. -/
theorem Extractor.path_headers {Header Position View : Type} {extractor : Extractor Header Position View}
    {holds : Header → Prop}
    (each : ∀ position view header next,
      extractor.move position view = some (.extract header next) → holds header)
    (fuel : Nat) (position : Position) (view : View) :
    ∀ header ∈ (extractor.path fuel position view).1, holds header := by
  induction fuel generalizing position view with
  | zero =>
      intro header member
      cases member
  | succ fuel ih =>
      intro header member
      unfold Extractor.path at member
      split at member
      case h_1 => cases member
      case h_2 => cases member
      case h_3 first next moved =>
        split at member
        case h_1 => cases member
        case h_2 after _ =>
          cases List.mem_cons.mp member with
          | inl isFirst => exact isFirst ▸ each position view first next moved
          | inr later => exact ih next after header later

/-- Both accept, or both extract headers and positions that correspond. -/
inductive MoveRel {Header Position Header' Position' : Type}
    (same : Header → Position → Header' → Position' → Prop) :
    Move Header Position → Move Header' Position' → Prop where
  | accept : MoveRel same .accept .accept
  | extract {header : Header} {next : Position} {header' : Header'} {next' : Position'} :
      same header next header' next' → MoveRel same (.extract header next) (.extract header' next')

section

variable {Header Position View Header' Position' View' : Type}

/-- Positions and views of two parsers correspond, and `name` gives the other name of a header. -/
structure Corresponds (left : Extractor Header Position View) (right : Extractor Header' Position' View')
    (name : Header → Header') (known : Header → Prop) (at_ : Position → Position' → Prop)
    (seen : View → View' → Prop) : Prop where
  moves : ∀ position position' view view', at_ position position' → seen view view' →
    Option.Rel (MoveRel fun header next header' next' =>
      header' = name header ∧ known header ∧ at_ next next')
      (left.move position view) (right.move position' view')
  takes : ∀ header view view', known header → seen view view' →
    Option.Rel seen (left.take header view) (right.take (name header) view')

theorem Corresponds.path_eq {left : Extractor Header Position View}
    {right : Extractor Header' Position' View'}
    {name : Header → Header'} {known : Header → Prop} {at_ : Position → Position' → Prop}
    {seen : View → View' → Prop} (corresponds : Corresponds left right name known at_ seen)
    (fuel : Nat) {position : Position} {position' : Position'} {view : View} {view' : View'}
    (here : at_ position position') (same : seen view view') :
    right.path fuel position' view' =
      ((left.path fuel position view).1.map name, (left.path fuel position view).2) := by
  induction fuel generalizing position position' view view' with
  | zero => rfl
  | succ fuel ih =>
      have moves := corresponds.moves position position' view view' here same
      cases leftMove : left.move position view with
      | none =>
          rw [leftMove] at moves
          cases rightMove : right.move position' view' with
          | none => simp [Extractor.path, leftMove, rightMove]
          | some _ =>
              rw [rightMove] at moves
              cases moves
      | some move =>
          rw [leftMove] at moves
          cases rightMove : right.move position' view' with
          | none =>
              rw [rightMove] at moves
              cases moves
          | some move' =>
              rw [rightMove] at moves
              cases moves with
              | some moves =>
                  cases moves with
                  | accept => simp [Extractor.path, leftMove, rightMove]
                  | @extract header next _ next' related =>
                      obtain ⟨rfl, known, there⟩ := related
                      have takes := corresponds.takes header view view' known same
                      cases leftTake : left.take header view with
                      | none =>
                          rw [leftTake] at takes
                          cases rightTake : right.take (name header) view' with
                          | none => simp [Extractor.path, leftMove, rightMove, leftTake, rightTake]
                          | some _ =>
                              rw [rightTake] at takes
                              cases takes
                      | some after =>
                          rw [leftTake] at takes
                          cases rightTake : right.take (name header) view' with
                          | none =>
                              rw [rightTake] at takes
                              cases takes
                          | some after' =>
                              rw [rightTake] at takes
                              cases takes with
                              | some same =>
                                  simp [Extractor.path, leftMove, rightMove, leftTake,
                                    rightTake, ih there same]

end

/-! ### Packets -/

/-- The rest of a packet and the bits of the headers before it. -/
structure View (Name : Type) where
  rest : List Bool
  headers : Name → List Bool

/-- The value of some bits, the first of them highest. -/
def bitsVal (bits : List Bool) : Nat := Nat.ofDigits 2 (bits.reverse.map Bool.toNat)

theorem bitsVal_lt (bits : List Bool) : bitsVal bits < 2 ^ bits.length := by
  have digits : ∀ digit ∈ bits.reverse.map Bool.toNat, digit < 2 := by
    intro digit member
    obtain ⟨bit, _, rfl⟩ := List.mem_map.mp member
    exact bit.toNat_lt
  simpa [bitsVal] using Nat.ofDigits_lt_base_pow_length (by decide) digits

namespace View

variable {Name Name' : Type}

def ofPacket (packet : List Bool) : View Name := ⟨packet, fun _ => []⟩

def take [DecidableEq Name] (view : View Name) (name : Name) (length : Nat) : Option (View Name) :=
  if length ≤ view.rest.length then
    some ⟨view.rest.drop length, Function.update view.headers name (view.rest.take length)⟩
  else
    none

/-- The value of a field of a header. -/
def value (view : View Name) (name : Name) (offset length : Nat) : Nat :=
  bitsVal (((view.headers name).drop offset).take length)

theorem value_lt (view : View Name) (name : Name) (offset length : Nat) :
    view.value name offset length < 2 ^ length := by
  refine Nat.lt_of_lt_of_le (bitsVal_lt _) (Nat.pow_le_pow_right (by omega) ?_)
  rw [List.length_take]
  exact Nat.min_le_left _ _

/-- The same view under other names, as far as these are known. -/
structure Same (known : Name → Prop) (rename : Name → Name') (view : View Name)
    (view' : View Name') : Prop where
  rest : view'.rest = view.rest
  headers : ∀ name, known name → view'.headers (rename name) = view.headers name

theorem Same.take [DecidableEq Name] [DecidableEq Name'] {known : Name → Prop} {rename : Name → Name'}
    {view : View Name} {view' : View Name'} (same : Same known rename view view')
    (injective : ∀ first second, known first → known second → rename first = rename second → first = second)
    {name : Name} (isKnown : known name) (length : Nat) :
    Option.Rel (Same known rename) (view.take name length) (view'.take (rename name) length) := by
  unfold View.take
  rw [same.rest]
  split
  · refine .some ⟨rfl, fun other otherKnown => ?_⟩
    by_cases here : other = name
    · subst here
      simp
    · have apart : rename other ≠ rename name :=
        fun equal => here (injective other name otherKnown isKnown equal)
      simp [here, apart, same.headers other otherKnown]
  · exact .none

end View

end Ipbm.Lib
