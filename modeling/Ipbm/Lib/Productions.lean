import Mathlib.Data.List.Forall2

/-! Productions of a grammar, each with the reader that takes its sentences from the
front of a text. One token of lookahead decides, and a reader is right if what may
stand behind a sentence does not continue it. -/

set_option autoImplicit false

namespace Ipbm.Lib

variable {τ α β : Type}

structure Production (τ α : Type) where
  read : List τ → Option (α × List τ)
  Derives : α → List τ → Prop

namespace Production

/-! ### Sequences -/

protected def pure (value : α) : Production τ α where
  read tokens := some (value, tokens)
  Derives derived sentence := derived = value ∧ sentence = []

protected def bind (first : Production τ α) (next : α → Production τ β) : Production τ β where
  read tokens := (first.read tokens).bind fun (value, rest) => (next value).read rest
  Derives derived sentence :=
    ∃ value front back, sentence = front ++ back ∧ first.Derives value front ∧
      (next value).Derives derived back

instance : Monad (Production τ) where
  pure := Production.pure
  bind := Production.bind

@[simp] theorem read_pure (value : α) (tokens : List τ) :
    (Pure.pure value : Production τ α).read tokens = some (value, tokens) := rfl

theorem read_bind (first : Production τ α) (next : α → Production τ β) (tokens : List τ) :
    (first >>= next).read tokens = (first.read tokens).bind fun (value, rest) => (next value).read rest := rfl

/-- A sentence followed by another one. -/
theorem Derives.bind {first : Production τ α} {next : α → Production τ β} {value : α} {derived : β}
    {front back : List τ} (derives : first.Derives value front)
    (continues : (next value).Derives derived back) :
    (first >>= next).Derives derived (front ++ back) := ⟨value, front, back, rfl, derives, continues⟩

/-! ### Tokens -/

/-- A token that has a value. -/
def terminal (value : τ → Option α) : Production τ α where
  read
    | [] => none
    | token :: rest => (value token).map (·, rest)
  Derives derived sentence := ∃ token, sentence = [token] ∧ value token = some derived

def token [DecidableEq τ] (expected : τ) : Production τ Unit :=
  terminal fun token => if token = expected then some () else none

theorem derives_terminal {value : τ → Option α} {token : τ} {derived : α}
    (known : value token = some derived) : (terminal value).Derives derived [token] := ⟨token, rfl, known⟩

theorem derives_token [DecidableEq τ] (expected : τ) : (token expected).Derives () [expected] :=
  derives_terminal (if_pos rfl)

/-! ### Alternatives and repetitions -/

/-- Two alternatives, told apart by the next token. -/
def choice (starts : τ → Bool) (first second : Production τ α) : Production τ α where
  read tokens := if tokens.head?.any starts then first.read tokens else second.read tokens
  Derives derived sentence := first.Derives derived sentence ∨ second.Derives derived sentence

/-- A list that grows at its end. -/
inductive Repeated (Item : α → List τ → Prop) : List α → List τ → Prop where
  | nil : Repeated Item [] []
  | push {items : List α} {item : α} {front back : List τ} (before : Repeated Item items front)
      (last : Item item back) :
      Repeated Item (items ++ [item]) (front ++ back)

/-- Items as long as the next token starts one. -/
def readMany (starts : τ → Bool) (item : List τ → Option (α × List τ)) :
    Nat → List τ → Option (List α × List τ)
  | 0, tokens => some ([], tokens)
  | fuel + 1, tokens =>
      if tokens.head?.any starts then do
        let (first, rest) ← item tokens
        let (items, rest) ← readMany starts item fuel rest
        return (first :: items, rest)
      else
        some ([], tokens)

def many (starts : τ → Bool) (item : Production τ α) : Production τ (List α) where
  read tokens := readMany starts item.read tokens.length tokens
  Derives := Repeated item.Derives

/-- A list whose items a token separates. Nothing at all may stand in front of a separator. -/
inductive Separated (separator : τ) (Item : α → List τ → Prop) : List α → List τ → Prop where
  | nil : Separated separator Item [] []
  | single {item : α} {sentence : List τ} (only : Item item sentence) :
      Separated separator Item [item] sentence
  | push {items : List α} {item : α} {front back : List τ} (before : Separated separator Item items front)
      (last : Item item back) : Separated separator Item (items ++ [item]) (front ++ separator :: back)

def separated [DecidableEq τ] (separator : τ) (starts : τ → Bool) (item : Production τ α) :
    Production τ (List α) where
  read := Production.read do
    let front ← choice starts (do return [← item]) (return [])
    let items ← many (· = separator) (do token separator; item)
    return front ++ items
  Derives := Separated separator item.Derives

/-! ### What a reader takes -/

/-- No token goes on with a sentence. -/
def closed : τ → Bool := fun _ => false

/-- The next token does not go on with the sentence in front of it. -/
def Stops (continues : τ → Bool) (rest : List τ) : Prop := ∀ token ∈ rest.head?, continues token = false

/-- The reader takes sentences only, and every sentence in front of a token that stops it. -/
structure Decided (production : Production τ α) (continues : τ → Bool) : Prop where
  sound : ∀ {tokens : List τ} {value : α} {rest : List τ}, production.read tokens = some (value, rest) →
    ∃ sentence, tokens = sentence ++ rest ∧ production.Derives value sentence
  complete : ∀ {value : α} {sentence rest : List τ}, production.Derives value sentence →
    Stops continues rest → production.read (sentence ++ rest) = some (value, rest)

/-- A sentence is not empty, and its first token passes the test. -/
def StartsWith (production : Production τ α) (starts : τ → Bool) : Prop :=
  ∀ (value : α) (sentence : List τ), production.Derives value sentence →
    ∃ token behind, sentence = token :: behind ∧ starts token = true

theorem stops_closed (rest : List τ) : Stops closed rest := fun _ _ => rfl

theorem stops_nil (continues : τ → Bool) : Stops continues [] := fun _ member => nomatch member

theorem stops_cons {continues : τ → Bool} {token : τ} {rest : List τ} :
    Stops continues (token :: rest) ↔ continues token = false :=
  ⟨fun stops => stops token rfl, fun refused other member => by rwa [← Option.some.inj member]⟩

theorem stops_iff {continues : τ → Bool} {rest : List τ} :
    Stops continues rest ↔ rest.head?.any continues = false := by
  cases rest with
  | nil => exact ⟨fun _ => rfl, fun _ => stops_nil continues⟩
  | cons token behind => exact stops_cons

/-- What stops on more tokens stops on fewer. -/
theorem Decided.mono {production : Production τ α} {fewer more : τ → Bool}
    (decided : Decided production fewer)
    (weaker : ∀ token, more token = false → fewer token = false) : Decided production more where
  sound := decided.sound
  complete derives stops := decided.complete derives fun token member => weaker token (stops token member)

theorem decided_pure (value : α) : Decided (Pure.pure value : Production τ α) closed where
  sound := by
    intro tokens derived rest taken
    cases taken
    exact ⟨[], rfl, rfl, rfl⟩
  complete := by
    rintro derived sentence rest ⟨rfl, rfl⟩ _
    rfl

theorem decided_terminal (value : τ → Option α) : Decided (terminal value) closed where
  sound := by
    intro tokens derived rest taken
    cases tokens with
    | nil => cases taken
    | cons token behind =>
        obtain ⟨known, isKnown, same⟩ := Option.map_eq_some_iff.mp taken
        obtain ⟨rfl, rfl⟩ := Prod.mk.inj same
        exact ⟨[token], rfl, derives_terminal isKnown⟩
  complete := by
    rintro derived sentence rest ⟨token, rfl, known⟩ _
    exact Option.map_eq_some_iff.mpr ⟨derived, known, rfl⟩

theorem decided_token [DecidableEq τ] (expected : τ) : Decided (token expected) closed := decided_terminal _

theorem startsWith_terminal (value : τ → Option α) :
    StartsWith (terminal value) fun token => (value token).isSome := by
  rintro derived sentence ⟨token, rfl, known⟩
  exact ⟨token, [], rfl, Option.isSome_iff_exists.mpr ⟨derived, known⟩⟩

theorem startsWith_token [DecidableEq τ] (expected : τ) : StartsWith (token expected) (· = expected) := by
  rintro derived sentence ⟨token, rfl, known⟩
  refine ⟨token, [], rfl, decide_eq_true ?_⟩
  by_contra other
  dsimp only at known
  rw [if_neg other] at known
  cases known

theorem StartsWith.mono {production : Production τ α} {fewer more : τ → Bool}
    (starting : StartsWith production fewer)
    (weaker : ∀ token, fewer token = true → more token = true) : StartsWith production more := by
  intro value sentence derives
  obtain ⟨token, behind, rfl, passes⟩ := starting _ _ derives
  exact ⟨token, behind, rfl, weaker token passes⟩

theorem startsWith_choice {first second : Production τ α} {test starts others : τ → Bool}
    (front : StartsWith first starts) (back : StartsWith second others) :
    StartsWith (choice test first second) fun token => starts token || others token := by
  rintro value sentence (derives | derives)
  · obtain ⟨token, behind, rfl, passes⟩ := front _ _ derives
    exact ⟨token, behind, rfl, Bool.or_eq_true_iff.mpr (.inl passes)⟩
  · obtain ⟨token, behind, rfl, passes⟩ := back _ _ derives
    exact ⟨token, behind, rfl, Bool.or_eq_true_iff.mpr (.inr passes)⟩

/-- A production that starts a sentence starts what goes on with it. -/
theorem startsWith_bind {first : Production τ α} {starts : τ → Bool} (starting : StartsWith first starts)
    (next : α → Production τ β) : StartsWith (first >>= next) starts := by
  rintro derived _ ⟨value, front, back, rfl, derives, _⟩
  obtain ⟨token, behind, rfl, passes⟩ := starting _ _ derives
  exact ⟨token, behind ++ back, rfl, passes⟩

/-- A reader may go on where no token goes on with the sentence it has taken. -/
theorem Decided.bind_of {first : Production τ α} {next : α → Production τ β} {continues later : τ → Bool}
    (front : Decided first continues) (back : ∀ value, Decided (next value) later)
    (meets : ∀ {value derived sentence rest}, (next value).Derives derived sentence → Stops later rest →
      Stops continues (sentence ++ rest)) : Decided (first >>= next) later where
  sound := by
    intro tokens derived rest taken
    obtain ⟨⟨value, middle⟩, isFirst, isNext⟩ := Option.bind_eq_some_iff.mp taken
    obtain ⟨sentence, rfl, derives⟩ := front.sound isFirst
    obtain ⟨behind, rfl, goesOn⟩ := (back value).sound isNext
    exact ⟨sentence ++ behind, (List.append_assoc ..).symm, derives.bind goesOn⟩
  complete := by
    rintro derived _ rest ⟨value, sentence, behind, rfl, derives, goesOn⟩ stops
    rw [List.append_assoc, read_bind, front.complete derives (meets goesOn stops)]
    exact (back value).complete goesOn stops

theorem Decided.bind {first : Production τ α} {next : α → Production τ β} {later : τ → Bool}
    (front : Decided first closed) (back : ∀ value, Decided (next value) later) :
    Decided (first >>= next) later :=
  front.bind_of back fun _ _ => stops_closed _

theorem Decided.map {production : Production τ α} {continues : τ → Bool}
    (decided : Decided production continues) (value : α → β) :
    Decided (production >>= fun derived => Pure.pure (value derived)) continues :=
  decided.bind_of (fun derived => (decided_pure (value derived)).mono fun _ _ => rfl) fun goesOn stops => by
    obtain ⟨_, rfl⟩ := goesOn
    exact stops

/-- A production that some tokens go on with, in front of one that none of them starts. -/
theorem Decided.bind_apart {first : Production τ α} {next : α → Production τ β}
    {continues starts later : τ → Bool} (front : Decided first continues)
    (back : ∀ value, Decided (next value) later)
    (starting : ∀ value, StartsWith (next value) starts)
    (apart : ∀ token, starts token = true → continues token = false) : Decided (first >>= next) later :=
  front.bind_of back fun {value} _ _ _ goesOn _ => by
    obtain ⟨token, behind, rfl, passes⟩ := starting value _ _ goesOn
    exact stops_cons.mpr (apart token passes)

/-- A token behind a production stops it. -/
theorem Decided.bind_token [DecidableEq τ] {first : Production τ α} {next : α → Production τ β}
    {continues later : τ → Bool} {behind : τ} (front : Decided first continues)
    (stop : continues behind = false) (back : ∀ value, Decided (next value) later) :
    Decided (first >>= fun value => token behind >>= fun _ => next value) later :=
  front.bind_apart (fun value => (decided_token behind).bind fun _ => back value)
    (fun value => startsWith_bind (startsWith_token behind) _) fun token same => by
      obtain rfl : token = behind := of_decide_eq_true same
      exact stop

/-- The first alternative is taken if and only if the next token starts it. -/
theorem Decided.choice {first second : Production τ α} {starts continues : τ → Bool}
    (front : Decided first continues) (back : Decided second continues) (starting : StartsWith first starts)
    (apart : ∀ {value sentence rest}, second.Derives value sentence → Stops continues rest →
      Stops starts (sentence ++ rest)) : Decided (choice starts first second) continues where
  sound := by
    intro tokens value rest taken
    rw [Production.choice] at taken
    dsimp only at taken
    split at taken
    · obtain ⟨sentence, rfl, derives⟩ := front.sound taken
      exact ⟨sentence, rfl, .inl derives⟩
    · obtain ⟨sentence, rfl, derives⟩ := back.sound taken
      exact ⟨sentence, rfl, .inr derives⟩
  complete := by
    intro value sentence rest derives stops
    rcases derives with derives | derives
    · obtain ⟨token, behind, rfl, passes⟩ := starting _ _ derives
      refine (if_pos ?_).trans (front.complete derives stops)
      exact passes
    · refine (if_neg ?_).trans (back.complete derives stops)
      rw [stops_iff.mp (apart derives stops)]
      exact Bool.false_ne_true

/-- The first alternative is told by its first token from one that starts with another. -/
theorem Decided.choice_apart {first second : Production τ α} {starts others continues : τ → Bool}
    (front : Decided first continues) (back : Decided second continues) (starting : StartsWith first starts)
    (other : StartsWith second others) (apart : ∀ token, others token = true → starts token = false) :
    Decided (Production.choice starts first second) continues :=
  front.choice back starting fun derives _ => by
    obtain ⟨token, behind, rfl, passes⟩ := other _ _ derives
    exact stops_cons.mpr (apart token passes)

theorem Repeated.append {Item : α → List τ → Prop} {items more : List α} {front back : List τ}
    (before : Repeated Item items front) (after : Repeated Item more back) :
    Repeated Item (items ++ more) (front ++ back) := by
  induction after with
  | nil => simpa using before
  | push _ last ih => simpa only [List.append_assoc] using ih.push last

theorem Repeated.single {Item : α → List τ → Prop} {item : α} {sentence : List τ}
    (only : Item item sentence) :
    Repeated Item [item] sentence := Repeated.nil.push only

theorem Repeated.cons {Item : α → List τ → Prop} {item : α} {items : List α} {front back : List τ}
    (first : Item item front) (after : Repeated Item items back) :
    Repeated Item (item :: items) (front ++ back) :=
  (Repeated.single first).append after

/-- A list item by item, each with its own sentence. -/
theorem repeated_iff {Item : α → List τ → Prop} {items : List α} {sentence : List τ} :
    Repeated Item items sentence ↔ ∃ parts, List.Forall₂ Item items parts ∧ sentence = parts.flatten := by
  constructor
  · intro repeated
    induction repeated with
    | nil => exact ⟨[], .nil, rfl⟩
    | @push items item front back _ last ih =>
        obtain ⟨parts, each, rfl⟩ := ih
        exact ⟨parts ++ [back], List.rel_append each (.cons last .nil), by simp⟩
  · rintro ⟨parts, each, rfl⟩
    induction each with
    | nil => exact .nil
    | cons first _ ih => exact ih.cons first

theorem readMany_sound {starts continues : τ → Bool} {item : Production τ α}
    (decided : Decided item continues) {fuel : Nat} {tokens : List τ} {items : List α} {rest : List τ}
    (taken : readMany starts item.read fuel tokens = some (items, rest)) :
    ∃ sentence, tokens = sentence ++ rest ∧ Repeated item.Derives items sentence := by
  induction fuel generalizing tokens items with
  | zero =>
      cases taken
      exact ⟨[], rfl, .nil⟩
  | succ fuel ih =>
      rw [readMany] at taken
      split at taken
      · obtain ⟨⟨first, middle⟩, isFirst, taken⟩ := Option.bind_eq_some_iff.mp taken
        obtain ⟨⟨more, behind⟩, isMore, same⟩ := Option.bind_eq_some_iff.mp taken
        cases same
        obtain ⟨front, rfl, derives⟩ := decided.sound isFirst
        obtain ⟨back, rfl, repeated⟩ := ih isMore
        exact ⟨front ++ back, (List.append_assoc ..).symm, repeated.cons derives⟩
      · cases taken
        exact ⟨[], rfl, .nil⟩

theorem readMany_complete {starts continues : τ → Bool} {item : Production τ α}
    (decided : Decided item continues) (starting : StartsWith item starts)
    (apart : ∀ token, starts token = true → continues token = false)
    {items : List α} {parts : List (List τ)} (each : List.Forall₂ item.Derives items parts) {rest : List τ}
    (ends : Stops starts rest) (stops : Stops continues rest) {fuel : Nat}
    (enough : parts.flatten.length ≤ fuel) :
    readMany starts item.read fuel (parts.flatten ++ rest) = some (items, rest) := by
  induction each generalizing fuel with
  | nil =>
      cases fuel with
      | zero => rfl
      | succ fuel =>
          rw [List.flatten_nil, List.nil_append, readMany, stops_iff.mp ends]
          rfl
  | @cons item items part parts first later ih =>
      obtain ⟨token, behind, rfl, passes⟩ := starting _ _ first
      rw [List.flatten_cons, List.length_append, List.length_cons] at enough
      obtain ⟨fuel, rfl⟩ : ∃ less, fuel = less + 1 := ⟨fuel - 1, by omega⟩
      have next : Stops continues (parts.flatten ++ rest) := by
        cases later with
        | nil => exact stops
        | cons second _ =>
            obtain ⟨token, behind, rfl, passes⟩ := starting _ _ second
            exact stops_cons.mpr (apart token passes)
      have read := decided.complete first next
      rw [← List.append_assoc, ← List.flatten_cons] at read
      have begins : (((token :: behind) :: parts).flatten ++ rest).head?.any starts = true := passes
      rw [readMany, if_pos begins, read, Option.bind_eq_bind, Option.bind_some]
      dsimp only
      rw [@ih fuel (by omega)]
      rfl

theorem decided_many {starts continues : τ → Bool} {item : Production τ α} (decided : Decided item continues)
    (starting : StartsWith item starts) (apart : ∀ token, starts token = true → continues token = false) :
    Decided (many starts item) fun token => starts token || continues token where
  sound := readMany_sound decided
  complete := by
    intro items sentence rest derives stops
    obtain ⟨parts, each, rfl⟩ := repeated_iff.mp derives
    have ends : Stops starts rest := fun token member => (Bool.or_eq_false_iff.mp (stops token member)).1
    have last : Stops continues rest := fun token member => (Bool.or_eq_false_iff.mp (stops token member)).2
    refine readMany_complete decided starting apart each ends last ?_
    rw [List.length_append]
    exact Nat.le_add_right ..

/-- Items that nothing goes on with stop at every token that starts none. -/
theorem decided_many_closed {starts : τ → Bool} {item : Production τ α} (decided : Decided item closed)
    (starting : StartsWith item starts) : Decided (many starts item) starts :=
  (decided_many decided starting fun _ _ => rfl).mono fun _ refused => Bool.or_eq_false_iff.mpr ⟨refused, rfl⟩

/-- A loop that ends at its closing token reads the items and the token behind them. -/
theorem closedLoop_eq [DecidableEq τ] {loop : Nat → List τ → Option (List α × List τ)} {close : τ}
    {starts : τ → Bool} {item : Production τ α}
    (done : ∀ fuel rest, loop fuel (close :: rest) = some ([], rest))
    (ended : ∀ tokens, tokens.head? ≠ some close → loop 0 tokens = none)
    (refused : ∀ fuel tokens, tokens.head? ≠ some close → tokens.head?.any starts = false →
      loop fuel tokens = none)
    (next : ∀ fuel tokens, tokens.head?.any starts = true → loop (fuel + 1) tokens =
      (item.read tokens).bind fun first =>
    (loop fuel first.2).bind fun items => some (first.1 :: items.1, items.2))
    (fuel : Nat) (tokens : List τ) :
    loop fuel tokens = (readMany starts item.read fuel tokens).bind fun items =>
      ((token close).read items.2).bind fun closed => some (items.1, closed.2) := by
  have closes (rest : List τ) : (some (([] : List α), close :: rest)).bind (fun items =>
      ((token close).read items.2).bind fun closed => some (items.1, closed.2)) = some ([], rest) :=
    congrArg (Option.bind · _) (congrArg (Option.map _) (if_pos rfl))
  have stuck (tokens : List τ) (other : tokens.head? ≠ some close) : (some (([] : List α), tokens)).bind
      (fun items => ((token close).read items.2).bind fun closed => some (items.1, closed.2)) = none := by
    cases tokens with
    | nil => rfl
    | cons first behind =>
        have different : first ≠ close := fun same => other (congrArg some same)
        exact congrArg (Option.bind · _) (congrArg (Option.map _) (if_neg different))
  induction fuel generalizing tokens with
  | zero =>
      rw [readMany]
      by_cases last : tokens.head? = some close
      · obtain ⟨rest, rfl⟩ := List.head?_eq_some_iff.mp last
        exact (done ..).trans (closes rest).symm
      · exact (ended tokens last).trans (stuck tokens last).symm
  | succ fuel ih =>
      rw [readMany]
      by_cases begins : tokens.head?.any starts = true
      · rw [next fuel tokens begins, if_pos begins]
        cases item.read tokens with
        | none => rfl
        | some taken =>
            obtain ⟨first, rest⟩ := taken
            rw [Option.bind_some, ih rest, Option.bind_eq_bind, Option.bind_some]
            dsimp only
            cases readMany starts item.read fuel rest with
            | none => rfl
            | some items =>
                change (((token close).read items.2).bind _).bind _ = ((token close).read items.2).bind _
                rw [Option.bind_assoc]
                rfl
      · rw [if_neg begins]
        by_cases last : tokens.head? = some close
        · obtain ⟨rest, rfl⟩ := List.head?_eq_some_iff.mp last
          exact (done ..).trans (closes rest).symm
        · exact (refused _ tokens last (Bool.eq_false_iff.mpr begins)).trans (stuck tokens last).symm

/-! ### Separated lists -/

theorem derives_token_bind [DecidableEq τ] {expected : τ} {next : Unit → Production τ β}
    {derived : β} {sentence : List τ} : (token expected >>= next).Derives derived sentence ↔
      ∃ back, sentence = expected :: back ∧ (next ()).Derives derived back := by
  constructor
  · rintro ⟨value, front, back, rfl, derives, goesOn⟩
    obtain ⟨first, rfl, known⟩ := derives
    by_cases same : first = expected
    · exact ⟨back, by rw [same]; rfl, goesOn⟩
    · dsimp only at known
      rw [if_neg same] at known
      cases known
  · rintro ⟨back, rfl, goesOn⟩
    exact Derives.bind (derives_token expected) goesOn

/-- An item that may be missing, and more of them behind their separators. -/
theorem separated_iff {separator : τ} {Item : α → List τ → Prop} {items : List α} {sentence : List τ} :
    Separated separator Item items sentence ↔ ∃ first more front back, items = first ++ more ∧
      sentence = front ++ back ∧
      (first = [] ∧ front = [] ∨ ∃ item, first = [item] ∧ Item item front) ∧
      Repeated (fun item part => ∃ behind, part = separator :: behind ∧ Item item behind) more back := by
  constructor
  · intro derives
    induction derives with
    | nil => exact ⟨[], [], [], [], rfl, rfl, .inl ⟨rfl, rfl⟩, .nil⟩
    | @single item sentence
      only => exact ⟨[item], [], sentence, [], rfl, by simp, .inr ⟨item, rfl, only⟩, .nil⟩
    | @push items item front back _ last ih =>
        obtain ⟨first, more, start, behind, rfl, rfl, optional, repeated⟩ := ih
        exact ⟨first, more ++ [item], start, behind ++ separator :: back, by simp, by simp, optional,
          repeated.push ⟨back, rfl, last⟩⟩
  · rintro ⟨first, more, front, back, rfl, rfl, optional, repeated⟩
    induction repeated with
    | nil =>
        rcases optional with ⟨rfl, rfl⟩ | ⟨item, rfl, only⟩
        · exact .nil
        · simpa using Separated.single only
    | push _ last ih =>
        obtain ⟨behind, rfl, derives⟩ := last
        simpa only [List.append_assoc] using ih.push derives

/-- A separated list is an optional item and then items behind separators. -/
theorem derives_separated [DecidableEq τ] {separator : τ} {starts : τ → Bool}
    {item : Production τ α} {items : List α} {sentence : List τ} :
    (separated separator starts item).Derives items sentence ↔
      Production.Derives (do
        let front ← choice starts (do return [← item]) (return [])
        let items ← many (· = separator) (do token separator; item)
        return front ++ items) items sentence := by
  have behind (item' : α) (part : List τ) : (do token separator; item : Production τ α).Derives item' part ↔
      ∃ back, part = separator :: back ∧ item.Derives item' back := derives_token_bind
  have optional (first : List α) (front : List τ) :
      (choice starts (do return [← item]) (return [])).Derives first front ↔
        first = [] ∧ front = [] ∨ ∃ only, first = [only] ∧ item.Derives only front := by
    constructor
    · rintro (⟨only, front, _, rfl, derives, rfl, rfl⟩ | none)
      · exact .inr ⟨only, rfl, by simpa using derives⟩
      · exact .inl none
    · rintro (none | ⟨only, rfl, derives⟩)
      · exact .inr none
      · exact .inl ⟨only, front, [], by simp, derives, rfl, rfl⟩
  have repeated (more : List α) (back : List τ) :
      (many (· = separator) (do token separator; item)).Derives more back ↔
      Repeated (fun item' part => ∃ behind, part = separator :: behind ∧
          item.Derives item' behind) more back := by
    change Repeated _ _ _ ↔ _
    simp only [funext₂ fun item' part => propext (behind item' part)]
  refine separated_iff.trans ?_
  constructor
  · rintro ⟨first, more, front, back, rfl, rfl, isFirst, isMore⟩
    exact ⟨first, front, back, rfl, (optional ..).mpr isFirst, more, back,
      [], by simp, (repeated ..).mpr isMore, rfl, rfl⟩
  · rintro ⟨first, front, _, rfl, isFirst, more, back, _, rfl, isMore, rfl, rfl⟩
    exact ⟨first, more, front, back, rfl, by simp, (optional ..).mp isFirst, (repeated ..).mp isMore⟩

theorem decided_separated [DecidableEq τ] {separator : τ} {starts continues : τ → Bool}
    {item : Production τ α} (decided : Decided item continues)
    (starting : StartsWith item starts) (ends : continues separator = false)
    (apart : starts separator = false) :
    Decided (separated separator starts item) fun token => token =
      separator || starts token || continues token := by
  have optional : Decided (choice starts (do return [← item]) (return [])) fun token =>
      starts token || continues token := by
    refine Decided.choice ((decided.map fun only => [only]).mono ?_) ((decided_pure []).mono fun _ _ => rfl)
      (startsWith_bind starting _) ?_
    · exact fun token refused => (Bool.or_eq_false_iff.mp refused).2
    · rintro value sentence rest ⟨_, rfl⟩ stops
      exact fun token member => (Bool.or_eq_false_iff.mp (stops token member)).1
  have more : Decided (many (· = separator) (do token separator; item))
      fun token => token = separator || continues token :=
    decided_many ((decided_token separator).bind fun _ => decided)
      (startsWith_bind (startsWith_token separator) _)
      fun token same => by
        obtain rfl : token = separator := of_decide_eq_true same
        exact ends
  suffices whole : Decided (do
      let front ← choice starts (do return [← item]) (return [])
      let items ← many (· = separator) (do token separator; item)
      return front ++ items) fun token => token = separator || starts token || continues token by
    refine ⟨fun taken => ?_, fun derives stops => whole.complete (derives_separated.mp derives) stops⟩
    obtain ⟨sentence, rfl, derives⟩ := whole.sound taken
    exact ⟨sentence, rfl, derives_separated.mpr derives⟩
  refine optional.bind_of (fun front => (more.map fun items => front ++ items).mono ?_) ?_
  · intro token refused
    obtain ⟨early, refused⟩ := Bool.or_eq_false_iff.mp refused
    exact Bool.or_eq_false_iff.mpr ⟨(Bool.or_eq_false_iff.mp early).1, refused⟩
  · rintro value derived _ rest ⟨items, back, _, rfl, derives, _, rfl⟩ stops
    rw [List.append_nil]
    obtain ⟨parts, each, rfl⟩ := repeated_iff.mp derives
    cases each with
    | nil =>
        refine fun token member => ?_
        obtain ⟨early, refused⟩ := Bool.or_eq_false_iff.mp (stops token member)
        exact Bool.or_eq_false_iff.mpr ⟨(Bool.or_eq_false_iff.mp early).2, refused⟩
    | cons first _ =>
        obtain ⟨behind, rfl, _⟩ := derives_token_bind.mp first
        exact stops_cons.mpr (Bool.or_eq_false_iff.mpr ⟨apart, ends⟩)

end Production

end Ipbm.Lib
