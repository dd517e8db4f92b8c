import Ipbm.Compiler.LevelRuns
import Ipbm.Compiler.Numbering
import Ipbm.Compiler.ParserText
import Ipbm.Lib.BigEndian
import Ipbm.Lib.Pointwise
import Mathlib.Data.List.Find

/-! The path of a packet through a translated parser. The text does not say which
state a parser starts in, and the compiler starts in the first one. -/

set_option autoImplicit false

namespace Ipbm.Compiler.P4r
open Lib Lexer Grammar

variable (manager : HeaderManager) (unit : Nat)

/-- A header as the levels name it. -/
def headerOf (name : String) : Int × Int :=
  match manager.getHeader name with
  | some header => (header.headerId, header.offset)
  | none => (0, 0)

/-- A header, or metadata other than the standard one. -/
def Known (name : String) : Prop :=
  ∃ header, manager.getHeader name = some header ∧ (name, header) ∈ manager.counted

/-- The levels made of the printed parser take the parser's path through every packet. -/
def PathPreserved (parser : P4Parser) : Prop :=
  ∃ states rest levels, parserDef.read (lex parser.output) = some (states, rest) ∧
    LevelManager.load manager states = some levels ∧ ∀ (fuel : Nat) (packet : List Bool),
      (levelExtractor levels).path fuel .start (View.ofPacket packet) =
        (((parser.extractor manager unit).path fuel none (View.ofPacket packet)).1.map (headerOf manager),
          ((parser.extractor manager unit).path fuel none (View.ofPacket packet)).2)

/-- A parser that the grammar accepts, over headers that are declared. -/
structure WellFormed (parser : P4Parser) : Prop where
  printable : parser.Printable
  single : ∀ state ∈ parser.parseStates, state.Single
  names : (parser.parseStates.map P4ParseState.name).Nodup
  init : ∃ state ∈ parser.parseStates, state.name = parser.initState
  keyless : ∀ state ∈ parser.parseStates, state.transitionKey = [] →
    ∀ transition ∈ state.transitions, transition.value = "default"
  targets : ∀ state ∈ parser.parseStates, ∀ transition ∈ state.transitions,
    transition.nextState = "" ∨ ∃ next ∈ parser.parseStates, next.name = transition.nextState
  instanceName : manager.headerName = "hdr"
  headers : ∀ state ∈ parser.parseStates, Known manager state.header
  fields : ∀ state ∈ parser.parseStates, ∃ fields, state.fields manager = some fields ∧
    ∀ field ∈ fields, Known manager field.1

/-- A key is a 32-bit word, and only its first field may be filled up. -/
structure KeysFit (parser : P4Parser) : Prop where
  width : ∀ state ∈ parser.parseStates, ∀ fields, state.fields manager = some fields → keyWidth 1 fields ≤ 32
  whole : ∀ state ∈ parser.parseStates, ∀ fields, state.fields manager = some fields →
    ∀ field ∈ fields.tail, padded unit field.2.fieldLength.toNat = field.2.fieldLength.toNat
  values : ∀ state ∈ parser.parseStates, ∀ transition ∈ state.transitions,
    ∀ text ∈ [transition.value, transition.mask], ∀ value, hexValue text = some value → value < 2 ^ 32

/-! ### What the levels compare -/

/-- The key and the value of a transition as words of 32 bits. -/
def Transition.matchesWord (transition : Transition) (key : Nat) : Bool :=
  if transition.value = "default" then
    true
  else if transition.mask = "" then
    decide (key % 2 ^ 32 = Dataplane.wrap 32 (literal transition.value))
  else
    decide (key % 2 ^ 32 &&& Dataplane.wrap 32 (literal transition.mask) =
      Dataplane.wrap 32 (literal transition.value) &&& Dataplane.wrap 32 (literal transition.mask))

namespace P4Parser

variable (parser : P4Parser)

/-- The parser that starts in the state listed first. -/
def fromFirst : P4Parser :=
  { parser with initState := (parser.parseStates.head?.map P4ParseState.name).getD "" }

/-- As `move`, with keys that are not filled up and are compared in words. -/
def wordMove : Option P4ParseState → View String → Option (Move String (Option P4ParseState))
  | none, _ => parser.enter parser.initState
  | some state, view => do
      let fields ← state.fields manager
      let transition ← state.transitions.find? fun transition =>
        transition.matchesWord (keyValue 1 view fields)
      if transition.nextState = "" then some .accept else parser.enter transition.nextState

def wordExtractor : Extractor String (Option P4ParseState) (View String) :=
  { parser.extractor manager 1 with move := parser.wordMove manager }

end P4Parser

/-- It makes no difference whether the parser starts in its initial state and compares whole keys, or
starts in the state listed first and compares words. -/
def SameInWords (parser : P4Parser) : Prop :=
  ∀ (fuel : Nat) (packet : List Bool),
    (parser.fromFirst.wordExtractor manager).path fuel none (View.ofPacket packet) =
      (parser.extractor manager unit).path fuel none (View.ofPacket packet)

/-- It makes no difference whether the parser starts in its initial state or in the one listed first. -/
def StartsFirst (parser : P4Parser) : Prop :=
  ∀ (fuel : Nat) (packet : List Bool),
    (parser.fromFirst.extractor manager unit).path fuel none (View.ofPacket packet) =
      (parser.extractor manager unit).path fuel none (View.ofPacket packet)

/-! ### Keys -/

section

variable {manager unit}

private theorem matches_entry (transition : Transition) {mask : Int}
    (isMask : transition.key.getMask = some mask) (state : Int) (key : Nat) :
    (ParserTcamEntry.mk state transition.key.getKey mask).matches key = transition.matchesWord key := by
  unfold ParserTcamEntry.matches Transition.matchesWord
  unfold Transition.key at isMask ⊢
  by_cases isDefault : transition.value = "default"
  · rw [if_pos isDefault] at isMask ⊢
    obtain rfl : mask = 0 := (Option.some.inj isMask).symm
    simp [isDefault, Dataplane.wrap]
  · rw [if_neg isDefault] at isMask ⊢
    rw [if_neg isDefault]
    by_cases noMask : transition.mask = ""
    · rw [if_pos noMask] at isMask ⊢
      rw [if_pos noMask]
      obtain rfl : mask = -1 := (Option.some.inj isMask).symm
      have all : Dataplane.wrap 32 (-1) = 2 ^ 32 - 1 := by decide
      have word : Dataplane.wrap 32 (literal transition.value) % 2 ^ 32 = Dataplane.wrap 32
          (literal transition.value) := by
        unfold Dataplane.wrap
        omega
      rw [all, Nat.and_two_pow_sub_one_eq_mod, Nat.and_two_pow_sub_one_eq_mod, Nat.mod_mod, Key.getKey, word]
      exact decide_eq_decide.mpr eq_comm
    · rw [if_neg noMask] at isMask ⊢
      rw [if_neg noMask]
      obtain rfl : mask = literal transition.mask := (Option.some.inj isMask).symm
      exact decide_eq_decide.mpr eq_comm

private theorem wrap_literal {text : String} {value : Nat} (hex : hexValue text = some value)
    (small : value < 2 ^ 32) :
    Dataplane.wrap 32 (literal text) = value := by
  rw [literal, hex, Option.getD_some]
  unfold strtol Dataplane.wrap
  omega

/-! ### What becomes of a parser -/

variable {headerDefs : List HeaderDef} {structDefs : List StructDef} {parser : P4Parser}

private theorem Known.header {name : String} (known : Known manager name) :
    ∃ header, manager.getHeader name = some header ∧
      headerOf manager name = (header.headerId, (header.offset : Int)) := by
  obtain ⟨header, found, _⟩ := known
  exact ⟨header, found, by rw [headerOf, found]⟩

private theorem headerOf_injective {first second : String} (known : Known (.load headerDefs structDefs) first)
    (known' : Known (.load headerDefs structDefs) second)
    (same : (headerOf (.load headerDefs structDefs) first).1 =
      (headerOf (.load headerDefs structDefs) second).1) :
    first = second := by
  obtain ⟨header, found, here⟩ := known
  obtain ⟨header', found', there⟩ := known'
  rw [headerOf, headerOf, found, found'] at same
  exact congrArg Prod.fst (HeaderManager.counted_injective here there same)

private theorem field_header {key : TransitionKey} {field : String × HeaderField}
    (found : key.field (.load headerDefs structDefs) = some field)
    (known : Known (.load headerDefs structDefs) field.1) :
    (field.2.headerId : Int) = (headerOf (.load headerDefs structDefs) field.1).1 := by
  obtain ⟨own, isOwn, name⟩ := known.header
  unfold TransitionKey.field at found
  split at found
  case h_1 headerName fieldName _ =>
    obtain ⟨place, isPlace, rfl⟩ := Option.map_eq_some_iff.mp found
    obtain ⟨header, isHeader, ofHeader⟩ := lookupName_headerField isPlace
    obtain rfl : header = own := Option.some.inj (isHeader.symm.trans isOwn)
    rw [name]
    exact ofHeader.id
  case h_2 => cases found

private theorem lookup_fields (instanceName : manager.headerName = "hdr") {keys : List TransitionKey}
    (printable : ∀ key ∈ keys, key.Printable) {fields : List (String × HeaderField)}
    (found : keys.mapM (TransitionKey.field manager) = some fields) :
    (keys.map TransitionKey.lvalue).mapM manager.lookup = some (fields.map Prod.snd) := by
  induction keys generalizing fields with
  | nil =>
      cases found
      rfl
  | cons key others ih =>
      obtain ⟨field, rest, here, later, rfl⟩ := mapM_cons_some found
      refine mapM_cons_eq_some ?_
        (ih (fun other member => printable other (List.mem_cons_of_mem _ member)) later)
      obtain ⟨headerName, fieldName, names, _, _⟩ := printable key List.mem_cons_self
      rw [TransitionKey.field, names] at here
      obtain ⟨place, isPlace, rfl⟩ := Option.map_eq_some_iff.mp here
      rw [TransitionKey.lvalue, names, HeaderManager.lookup, if_pos instanceName.symm]
      exact isPlace

private theorem getSelect_stateDef (instanceName : manager.headerName = "hdr") {state : P4ParseState}
    (printable : state.Printable) {fields : List (String × HeaderField)}
    (found : state.fields manager = some fields) :
    LevelManager.getSelect manager state.stateDef = some (fields.map Prod.snd) := by
  rw [P4ParseState.fields] at found
  rw [LevelManager.getSelect, P4ParseState.stateDef, P4ParseState.transition]
  by_cases keyless : state.transitionKey = []
  · rw [keyless] at found
    rw [if_pos keyless]
    cases found
    rfl
  · rw [if_neg keyless]
    exact lookup_fields instanceName printable.keys found

private theorem entries_stateDef {state : P4ParseState} (single : state.Single)
    (keyless : state.transitionKey = [] → ∀ transition ∈ state.transitions, transition.value = "default") :
    LevelManager.Transition.entries state.stateDef.transition =
      state.transitions.map fun transition => transition.entry transition.key := by
  rw [P4ParseState.stateDef, P4ParseState.transition]
  by_cases noKey : state.transitionKey = []
  · obtain ⟨transition, only⟩ := single.direct noKey
    have isDefault := keyless noKey transition (by simp [only])
    rw [if_pos noKey, only]
    simp [LevelManager.Transition.entries, Transition.key, isDefault]
  · rw [if_neg noKey]
    rfl

namespace WellFormed

theorem named (wellFormed : WellFormed manager parser) :
    LevelManager.Named (parser.parseStates.map P4ParseState.stateDef) := by
  have names : (parser.parseStates.map P4ParseState.stateDef).map StateDef.name =
      parser.parseStates.map P4ParseState.name :=
    List.map_map
  refine ⟨names ▸ wellFormed.names, fun empty => ?_⟩
  rw [names] at empty
  obtain ⟨state, listed, isEmpty⟩ := List.mem_map.mp empty
  obtain ⟨first, rest, shape, _⟩ := (wellFormed.printable.states state listed).name.word.1
  rw [isEmpty] at shape
  cases shape

theorem enter (wellFormed : WellFormed manager parser) {state : P4ParseState}
    (listed : state ∈ parser.parseStates) :
    parser.enter state.name = some (.extract state.header (some state)) := by
  obtain ⟨op, only⟩ := (wellFormed.single state listed).op
  have found : parser.state state.name = some state := find?_of_key wellFormed.names listed
  rw [P4Parser.enter, found, Option.bind_eq_bind, Option.bind_some, P4ParseState.header, only]
  rfl

/-- Entering a state is an action of the levels. -/
theorem extract (wellFormed : WellFormed manager parser) {index : Nat} {state : P4ParseState}
    (here : parser.parseStates[index]? = some state) {fields : List (String × HeaderField)}
    (found : state.fields manager = some fields) :
    LevelManager.extract manager (parser.parseStates.map P4ParseState.stateDef) state.stateDef =
      some ⟨(headerOf manager state.header).1, (headerOf manager state.header).2, (index + 1 : Nat),
        fields.map Prod.snd, 2⟩ := by
  have listed := List.mem_of_getElem? here
  obtain ⟨header, isHeader, name⟩ := (wellFormed.headers state listed).header
  have select := getSelect_stateDef wellFormed.instanceName (wellFormed.printable.states state listed) found
  have number : LevelManager.stateId
      (parser.parseStates.map P4ParseState.stateDef) state.stateDef.name = some (index + 1) :=
    wellFormed.named.stateId (by rw [List.getElem?_map, here, Option.map_some])
  have isOwn : state.stateDef.instanceName = manager.headerName := wellFormed.instanceName.symm
  have member : manager.getHeader state.stateDef.memberName = some header := isHeader
  simp only [LevelManager.extract, if_pos isOwn, member, select, number, name, Option.bind_eq_bind,
    Option.bind_some, Option.pure_def, Option.getD_some]

end WellFormed

/-! ### The simulation -/

/-- The action that enters a state, seen from the levels. -/
structure Enters (manager : HeaderManager) (parser : P4Parser) (name : String)
    (action : ParserSramEntry) : Prop where
  target : ∃ (index : Nat) (state : P4ParseState) (fields : List (String × HeaderField)),
    parser.parseStates[index]? = some state ∧ state.name = name ∧ state.fields manager = some fields ∧
      action = ⟨(headerOf manager state.header).1, (headerOf manager state.header).2, (index + 1 : Nat),
        fields.map Prod.snd, 2⟩

/-- A transition and its entry in the level of its state. -/
structure Reflects (manager : HeaderManager) (parser : P4Parser) (number : Int) (transition : Transition)
    (entry : LevelEntry) : Prop where
  state : entry.parserTcamEntry.currentState = number
  matching : ∀ key, entry.parserTcamEntry.matches key = transition.matchesWord key
  accept : transition.nextState = "" → entry.parserSramEntry.acceptDrop = 0
  next : transition.nextState ≠ "" → Enters manager parser transition.nextState entry.parserSramEntry

private theorem getMask_key (transition : Transition) : ∃ mask, transition.key.getMask = some mask := by
  unfold Transition.key
  split
  · exact ⟨0, rfl⟩
  · split
    · exact ⟨-1, rfl⟩
    · exact ⟨_, rfl⟩

namespace WellFormed

theorem enters (wellFormed : WellFormed manager parser) {state : P4ParseState}
    (listed : state ∈ parser.parseStates) :
    LevelManager.getState (parser.parseStates.map P4ParseState.stateDef) state.name = some state.stateDef ∧
      ∃ action, LevelManager.extract manager (parser.parseStates.map P4ParseState.stateDef)
        state.stateDef = some action ∧ Enters manager parser state.name action := by
  obtain ⟨index, here⟩ := List.mem_iff_getElem?.mp listed
  obtain ⟨fields, found, _⟩ := wellFormed.fields state listed
  exact ⟨wellFormed.named.getState (List.mem_map_of_mem listed), _, wellFormed.extract here found,
    ⟨index, state, fields, here, rfl, found, rfl⟩⟩

theorem buildEntry (wellFormed : WellFormed manager parser) {state : P4ParseState}
    (listed : state ∈ parser.parseStates) {transition : Transition}
    (member : transition ∈ state.transitions) (number : Nat) :
    ∃ entry, LevelManager.buildEntry manager (parser.parseStates.map P4ParseState.stateDef) number
        (transition.entry transition.key) = some entry ∧ Reflects manager parser number transition entry := by
  obtain ⟨mask, isMask⟩ := getMask_key transition
  have sameKey := matches_entry transition isMask number
  by_cases last : transition.nextState = ""
  · refine ⟨⟨⟨number, transition.key.getKey, mask⟩, ⟨0, 0, 0, [], 0⟩⟩, ?_, rfl, sameKey,
      fun _ => rfl, absurd last⟩
    rw [Transition.entry, if_pos last, LevelManager.buildEntry, isMask]
    rfl
  · obtain ⟨next, nextListed, name⟩ := (wellFormed.targets state listed transition member).resolve_left last
    obtain ⟨isNext, action, extracted, enters⟩ := wellFormed.enters nextListed
    rw [name] at isNext enters
    refine ⟨⟨⟨number, transition.key.getKey, mask⟩, action⟩, ?_, rfl, sameKey,
      fun empty => absurd empty last, fun _ => enters⟩
    rw [Transition.entry, if_neg last, LevelManager.buildEntry, isMask]
    simp only [Option.bind_eq_bind, Option.bind_some, if_true, isNext, extracted, Option.pure_def]

theorem stateEntries (wellFormed : WellFormed manager parser) {index : Nat} {state : P4ParseState}
    (here : parser.parseStates[index]? = some state) :
    ∃ entries, LevelManager.stateEntries manager (parser.parseStates.map P4ParseState.stateDef)
      state.stateDef = some entries ∧
      List.Forall₂ (Reflects manager parser (index + 1 : Nat)) state.transitions entries := by
  have listed := List.mem_of_getElem? here
  have number : LevelManager.stateId
      (parser.parseStates.map P4ParseState.stateDef) state.stateDef.name = some (index + 1) :=
    wellFormed.named.stateId (by rw [List.getElem?_map, here, Option.map_some])
  obtain ⟨entries, built, reflects⟩ := mapM_forall₂ fun (transition : Transition) member =>
    wellFormed.buildEntry listed member (index + 1)
  refine ⟨entries, ?_, reflects⟩
  rw [LevelManager.stateEntries, number, Option.bind_eq_bind, Option.bind_some,
    entries_stateDef (wellFormed.single state listed) (wellFormed.keyless state listed), List.mapM_map]
  exact built

end WellFormed

/-- The levels of a parser. -/
structure LevelsOf (manager : HeaderManager) (parser : P4Parser) (levels : List Level) : Prop where
  start : ∃ first action, parser.parseStates.head? = some first ∧ Enters manager parser first.name action ∧
    levels[0]? = some [⟨⟨0, 0, 0⟩, action⟩]
  level : ∀ (index : Nat) state, parser.parseStates[index]? = some state →
    ∃ entries, levels[index + 1]? = some entries ∧
    List.Forall₂ (Reflects manager parser (index + 1 : Nat)) state.transitions entries

theorem WellFormed.load (wellFormed : WellFormed manager parser) :
    ∃ levels, LevelManager.load manager (parser.parseStates.map P4ParseState.stateDef) = some levels ∧
      LevelsOf manager parser levels := by
  have named := wellFormed.named
  have enters (state : P4ParseState) (listed : state ∈ parser.parseStates) := wellFormed.enters listed
  have entries (index : Nat) (state : P4ParseState) (here : parser.parseStates[index]? = some state) :=
    wellFormed.stateEntries here
  obtain ⟨init, listed, _⟩ := wellFormed.init
  cases shape : parser.parseStates with
  | nil => simp [shape] at listed
  | cons first rest =>
      simp only [shape, List.map_cons] at named enters entries ⊢
      obtain ⟨_, action, extracted, isFirst⟩ := enters first List.mem_cons_self
      obtain ⟨levels, loaded, zero, level⟩ :=
        LevelManager.load_levels named extracted fun stateDef member => by
        obtain ⟨index, there⟩ := List.mem_iff_getElem?.mp member
        rw [← List.map_cons, List.getElem?_map] at there
        obtain ⟨state, here, rfl⟩ := Option.map_eq_some_iff.mp there
        obtain ⟨entries, built, _⟩ := entries index state here
        rw [built]
        rfl
      refine ⟨levels, loaded, ⟨first, action, by rw [shape, List.head?_cons], isFirst, zero⟩,
        fun index state here => ?_⟩
      rw [shape] at here
      obtain ⟨entries, built, reflects⟩ := entries index state here
      refine ⟨entries, ?_, reflects⟩
      rw [level index state.stateDef
        (by rw [← List.map_cons, List.getElem?_map, here, Option.map_some]), built]

/-- Views of a packet under the names of the parser and under those of the levels. -/
def Seen (manager : HeaderManager) : View String → View Int → Prop :=
  View.Same (Known manager) fun name => (headerOf manager name).1

/-- Where the levels are when the parser is behind a state. -/
inductive Placed (manager : HeaderManager) (parser : P4Parser) :
    Option P4ParseState → LevelPosition → Prop where
  | start : Placed manager parser none .start
  | behind {index : Nat} {state : P4ParseState} {fields : List (String × HeaderField)} :
      parser.parseStates[index]? = some state → state.fields manager = some fields →
        Placed manager parser (some state) ⟨(index + 1 : Nat), fields.map Prod.snd⟩

private theorem key_same {position : LevelPosition} {fields : List (String × HeaderField)}
    {view : View String} {view' : View Int} (seen : Seen manager view view')
    (isFields : position.fields = fields.map Prod.snd)
    (known : ∀ field ∈ fields, Known manager field.1 ∧
      (field.2.headerId : Int) = (headerOf manager field.1).1) :
    position.key view' = keyValue 1 view fields := by
  rw [LevelPosition.key, isFields, List.foldl_map, keyValue]
  refine List.foldl_ext _ _ _ fun key field member => ?_
  obtain ⟨isKnown, header⟩ := known field member
  have bits := seen.headers field.1 isKnown
  simp only [View.value, header, bits, padded, Nat.add_sub_cancel, Nat.div_one, Nat.mul_one]

private theorem WellFormed.known (wellFormed : WellFormed (.load headerDefs structDefs) parser)
    {state : P4ParseState} (listed : state ∈ parser.parseStates) {fields : List (String × HeaderField)}
    (found : state.fields (.load headerDefs structDefs) = some fields) :
    ∀ field ∈ fields, Known (.load headerDefs structDefs) field.1 ∧
      (field.2.headerId : Int) = (headerOf (.load headerDefs structDefs) field.1).1 := by
  obtain ⟨own, isOwn, known⟩ := wellFormed.fields state listed
  obtain rfl : own = fields := Option.some.inj (isOwn.symm.trans found)
  intro field member
  obtain ⟨key, _, isField⟩ := mem_of_mapM_some found member
  exact ⟨known field member, field_header isField (known field member)⟩

private theorem enters_move (wellFormed : WellFormed manager parser) {name : String}
    {action : ParserSramEntry} (enters : Enters manager parser name action) :
    action.acceptDrop = 2 ∧ ∃ header next, parser.enter name = some (.extract header next) ∧
      (action.headerId, action.headerLength) = headerOf manager header ∧ Known manager header ∧
        Placed manager parser next ⟨action.nextState, action.transitionFields⟩ := by
  obtain ⟨index, state, fields, here, rfl, found, rfl⟩ := enters.target
  have listed := List.mem_of_getElem? here
  exact ⟨rfl, state.header, some state, wellFormed.enter listed, rfl,
    wellFormed.headers state listed, .behind here found⟩

private theorem level_move {levels : List Level} {number : Nat} {level : Level}
    (isLevel : levels[number]? = some level) (fields : List HeaderField) (view : View Int) :
    levelMove levels ⟨number, fields⟩ view =
      (level.find? fun entry : LevelEntry => decide (entry.parserTcamEntry.currentState = (number : Int)) &&
          entry.parserTcamEntry.matches (LevelPosition.key ⟨number, fields⟩ view)).bind fun entry =>
        if entry.parserSramEntry.acceptDrop = 2 then
          some (.extract (entry.parserSramEntry.headerId, entry.parserSramEntry.headerLength)
            ⟨entry.parserSramEntry.nextState, entry.parserSramEntry.transitionFields⟩)
        else if entry.parserSramEntry.acceptDrop = 0 then some .accept else none := by
  rw [levelMove, if_pos (Int.natCast_nonneg number), Int.toNat_natCast, isLevel]
  rfl

private theorem moves_start (wellFormed : WellFormed (.load headerDefs structDefs) parser)
    {levels : List Level} (isLevels : LevelsOf (.load headerDefs structDefs) parser levels)
    (view : View String) (view' : View Int) :
    Option.Rel (MoveRel fun header next header' next' => header' =
      headerOf (.load headerDefs structDefs) header ∧
        Known (.load headerDefs structDefs) header ∧ Placed (.load headerDefs structDefs) parser next next')
      ((parser.fromFirst.wordExtractor (.load headerDefs structDefs)).move none view)
      ((levelExtractor levels).move .start view') := by
  obtain ⟨first, action, isFirst, enters, level⟩ := isLevels.start
  obtain ⟨goesOn, header, next, moved, named, known, there⟩ := enters_move wellFormed enters
  have left : (parser.fromFirst.wordExtractor (.load headerDefs structDefs)).move none view =
      some (.extract header next) := by
    rw [← moved]
    simp only [P4Parser.wordExtractor, P4Parser.wordMove, P4Parser.fromFirst, isFirst, Option.map_some,
      Option.getD_some]
    rfl
  have matching : (ParserTcamEntry.mk 0 0 0).matches (LevelPosition.start.key view') = true := by
    simp [ParserTcamEntry.matches, Dataplane.wrap]
  have right : (levelExtractor levels).move .start view' =
      some (.extract (action.headerId, action.headerLength) ⟨action.nextState, action.transitionFields⟩) := by
    refine (level_move level [] view').trans ?_
    rw [List.find?_singleton]
    simp only [LevelPosition.start] at matching
    simp [matching, goesOn]
  rw [left, right]
  exact .some (.extract ⟨named, known, there⟩)

private theorem moves_behind (wellFormed : WellFormed (.load headerDefs structDefs) parser)
    {levels : List Level} (isLevels : LevelsOf (.load headerDefs structDefs) parser levels)
    {view : View String} {view' : View Int} (seen : Seen (.load headerDefs structDefs) view view')
    {index : Nat} {state : P4ParseState} {fields : List (String × HeaderField)}
    (here : parser.parseStates[index]? = some state)
    (found : state.fields (.load headerDefs structDefs) = some fields) :
    Option.Rel (MoveRel fun header next header' next' => header' =
      headerOf (.load headerDefs structDefs) header ∧
        Known (.load headerDefs structDefs) header ∧ Placed (.load headerDefs structDefs) parser next next')
      ((parser.fromFirst.wordExtractor (.load headerDefs structDefs)).move (some state) view)
      ((levelExtractor levels).move ⟨(index + 1 : Nat), fields.map Prod.snd⟩ view') := by
  have listed := List.mem_of_getElem? here
  obtain ⟨entries, level, reflects⟩ := isLevels.level index state here
  have key : LevelPosition.key ⟨(index + 1 : Nat), fields.map Prod.snd⟩ view' = keyValue 1 view fields :=
    key_same seen rfl (wellFormed.known listed found)
  have left : (parser.fromFirst.wordExtractor (.load headerDefs structDefs)).move (some state) view =
      (state.transitions.find? fun transition => transition.matchesWord (keyValue 1 view fields)).bind
        fun transition => if transition.nextState = "" then some .accept
            else parser.enter transition.nextState := by
    simp only [P4Parser.wordExtractor, P4Parser.wordMove, found]
    rfl
  have search : Option.Rel (Reflects (.load headerDefs structDefs) parser (index + 1 : Nat))
      (state.transitions.find? fun transition => transition.matchesWord (keyValue 1 view fields))
      (entries.find? fun entry => decide (entry.parserTcamEntry.currentState = ((index + 1 : Nat) : Int)) &&
        entry.parserTcamEntry.matches (keyValue 1 view fields)) :=
    find?_rel reflects fun transition entry _ reflects => by simp [reflects.state, reflects.matching]
  rw [left, levelExtractor]
  simp only
  rw [level_move level, key]
  generalize (state.transitions.find? fun transition =>
    transition.matchesWord (keyValue 1 view fields)) = taken at search
  generalize (entries.find? fun entry =>
    decide (entry.parserTcamEntry.currentState = ((index + 1 : Nat) : Int)) &&
      entry.parserTcamEntry.matches (keyValue 1 view fields)) = taken' at search
  cases search with
  | none => exact .none
  | @some transition entry reflects =>
      by_cases last : transition.nextState = ""
      · have accepts := reflects.accept last
        rw [Option.bind_some, Option.bind_some, if_pos last, accepts]
        exact .some .accept
      · obtain ⟨goesOn, header, next, moved, named, isKnown, there⟩ :=
          enters_move wellFormed (reflects.next last)
        rw [Option.bind_some, Option.bind_some, if_neg last, if_pos goesOn, moved]
        exact .some (.extract ⟨named, isKnown, there⟩)

theorem WellFormed.corresponds (wellFormed : WellFormed (.load headerDefs structDefs) parser)
    {levels : List Level} (isLevels : LevelsOf (.load headerDefs structDefs) parser levels) :
    Corresponds (parser.fromFirst.wordExtractor (.load headerDefs structDefs)) (levelExtractor levels)
      (headerOf (.load headerDefs structDefs)) (Known (.load headerDefs structDefs))
      (Placed (.load headerDefs structDefs) parser) (Seen (.load headerDefs structDefs)) := by
  constructor
  case takes =>
    intro name view view' known seen
    obtain ⟨header, found, isHeader⟩ := known.header
    have same := seen.take (fun first second => headerOf_injective) known header.offset.toNat
    simpa only [P4Parser.wordExtractor, P4Parser.extractor, levelExtractor, found, Option.bind_some, isHeader,
      Int.toNat_natCast, Seen] using same
  case moves =>
    intro position position' view view' placed seen
    cases placed with
    | start => exact moves_start wellFormed isLevels view view'
    | behind here found => exact moves_behind wellFormed isLevels seen here found

/-! ### Paths -/

private theorem enter_listed {name header : String} {next : Option P4ParseState}
    (moved : parser.enter name = some (.extract header next)) :
    ∃ state ∈ parser.parseStates, next = some state ∧ header = state.header := by
  obtain ⟨state, found, moved⟩ := Option.bind_eq_some_iff.mp moved
  refine ⟨state, List.mem_of_find?_eq_some found, ?_⟩
  split at moved
  case h_1 op only =>
    obtain ⟨rfl, rfl⟩ := Move.extract.inj (Option.some.inj moved)
    exact ⟨rfl, by simp [P4ParseState.header, only]⟩
  case h_2 => cases moved

private theorem path_known (wellFormed : WellFormed manager parser)
    {extractor : Extractor String (Option P4ParseState) (View String)}
    (each : ∀ position view header next, extractor.move position view = some (.extract header next) →
      ∃ name, parser.enter name = some (.extract header next))
    (fuel : Nat) (packet : List Bool) :
    ∀ header ∈ (extractor.path fuel none (View.ofPacket packet)).1, Known manager header := by
  refine Extractor.path_headers (fun position view header next moved => ?_) fuel none _
  obtain ⟨name, moved⟩ := each position view header next moved
  obtain ⟨state, listed, _, rfl⟩ := enter_listed moved
  exact wellFormed.headers state listed

private theorem goes_enters {ι : Type} {fields : Option ι} {choose : ι → Option Transition} {header : String}
    {next : Option P4ParseState} (moved : (fields.bind fun fields => (choose fields).bind fun transition =>
      if transition.nextState = "" then some .accept else parser.enter transition.nextState) =
        some (.extract header next)) :
    ∃ name, parser.enter name = some (.extract header next) := by
  obtain ⟨fields, _, moved⟩ := Option.bind_eq_some_iff.mp moved
  obtain ⟨transition, _, moved⟩ := Option.bind_eq_some_iff.mp moved
  split at moved
  · cases moved
  · exact ⟨transition.nextState, moved⟩

private theorem move_enters {position : Option P4ParseState} {view : View String} {header : String}
    {next : Option P4ParseState}
    (moved : parser.move manager unit position view = some (.extract header next)) :
    ∃ name, parser.enter name = some (.extract header next) := by
  cases position with
  | none => exact ⟨parser.initState, moved⟩
  | some state => exact goes_enters moved

private theorem wordMove_enters {position : Option P4ParseState} {view : View String} {header : String}
    {next : Option P4ParseState}
    (moved : parser.wordMove manager position view = some (.extract header next)) :
    ∃ name, parser.enter name = some (.extract header next) := by
  cases position with
  | none => exact ⟨parser.initState, moved⟩
  | some state => exact goes_enters moved

private theorem sameInWords_of (wellFormed : WellFormed (.load headerDefs structDefs) parser) :
    PathPreserved (.load headerDefs structDefs) unit parser ↔
      SameInWords (.load headerDefs structDefs) unit parser := by
  obtain ⟨levels, loaded, isLevels⟩ := wellFormed.load
  have parsed := P4Parser.read_output wellFormed.single wellFormed.printable []
  rw [List.append_nil] at parsed
  have seen (packet : List Bool) : Seen (.load headerDefs structDefs) (View.ofPacket packet)
      (View.ofPacket packet) :=
    ⟨rfl, fun _ _ => rfl⟩
  have paths (fuel : Nat) (packet : List Bool) :=
    (wellFormed.corresponds isLevels).path_eq fuel .start (seen packet)
  constructor
  · rintro ⟨states, rest, own, isParsed, isLoaded, same⟩ fuel packet
    obtain ⟨rfl, rfl⟩ := Prod.mk.inj (Option.some.inj (parsed.symm.trans isParsed))
    obtain rfl : levels = own := Option.some.inj (loaded.symm.trans isLoaded)
    have equal := (paths fuel packet).symm.trans (same fuel packet)
    obtain ⟨headers, verdict⟩ := Prod.mk.inj equal
    have injective (first second : String) (known : Known (.load headerDefs structDefs) first)
        (known' : Known (.load headerDefs structDefs) second)
        (same : headerOf (.load headerDefs structDefs) first = headerOf
          (.load headerDefs structDefs) second) :
        first = second := headerOf_injective known known' (congrArg Prod.fst same)
    refine Prod.ext (map_inj_on injective ?_ ?_ headers) verdict
    · exact path_known wellFormed (fun _ _ _ _ => wordMove_enters) fuel packet
    · exact path_known wellFormed (fun _ _ _ _ => move_enters) fuel packet
  · intro same
    refine ⟨_, _, levels, parsed, loaded, fun fuel packet => ?_⟩
    rw [paths fuel packet, same fuel packet]

/-! ### Keys that fit -/

private theorem hexValue_literal {text : String} (hex : IsHex text)
    (values : ∀ value, hexValue text = some value → value < 2 ^ 32) :
    hexValue text = some (Dataplane.wrap 32 (literal text)) := by
  obtain ⟨value, isValue⟩ := hex
  rw [wrap_literal isValue (values value isValue), isValue]

private theorem matches_word {transition : Transition} (printable : transition.Printable)
    (values : ∀ text ∈ [transition.value, transition.mask], ∀ value, hexValue text = some value →
      value < 2 ^ 32)
    {key : Nat} (small : key < 2 ^ 32) : transition.matchesWord key = transition.matches key := by
  unfold Transition.matchesWord Transition.matches
  rw [Nat.mod_eq_of_lt small]
  by_cases isDefault : transition.value = "default"
  · rw [if_pos isDefault, if_pos isDefault]
  · rw [if_neg isDefault, if_neg isDefault]
    obtain ⟨_, hex, mask⟩ := printable.value.resolve_left fun other => isDefault other.1
    have value := hexValue_literal hex (values transition.value (by simp))
    by_cases noMask : transition.mask = ""
    · rw [if_pos noMask, value]
      simp only [if_pos noMask]
    · have bits := hexValue_literal (mask.resolve_left noMask) (values transition.mask (by simp))
      rw [if_neg noMask, value, bits]
      simp only [if_neg noMask]

private theorem keyValue_lt (view : View String) (fields : List (String × HeaderField)) :
    keyValue 1 view fields < 2 ^ keyWidth 1 fields := by
  induction fields using List.reverseRecOn with
  | nil => simp [keyValue, keyWidth]
  | append_singleton fields field ih =>
      have last := view.value_lt field.1 field.2.fieldInternalOffset.toNat field.2.fieldLength.toNat
      have width : padded 1 field.2.fieldLength.toNat = field.2.fieldLength.toNat := by simp [padded]
      rw [keyValue] at ih
      rw [keyValue, List.foldl_append, List.foldl_cons, List.foldl_nil, keyWidth, List.map_append,
        List.sum_append, List.map_singleton, List.sum_singleton, width]
      simp only [width]
      exact concat_lt ih last

private theorem keyValue_whole {fields : List (String × HeaderField)}
    (whole : ∀ field ∈ fields.tail, padded unit field.2.fieldLength.toNat = field.2.fieldLength.toNat)
    (view : View String) :
    keyValue unit view fields = keyValue 1 view fields := by
  cases fields with
  | nil => rfl
  | cons first others =>
      simp only [keyValue, List.foldl_cons, Nat.zero_mul]
      refine List.foldl_ext _ _ _ fun key field member => ?_
      rw [whole field member]
      simp [padded]

private theorem word_move (wellFormed : WellFormed manager parser) (fit : KeysFit manager unit parser)
    {position : Option P4ParseState} (listed : ∀ state, position = some state → state ∈ parser.parseStates)
    (view : View String) : parser.fromFirst.wordMove manager position view =
      parser.fromFirst.move manager unit position view := by
  cases position with
  | none => rfl
  | some state =>
      have listed := listed state rfl
      obtain ⟨fields, found, _⟩ := wellFormed.fields state listed
      have whole := keyValue_whole (fit.whole state listed fields found) view
      have small : keyValue 1 view fields < 2 ^ 32 := (keyValue_lt view fields).trans_le
        (Nat.pow_le_pow_right (by decide) (fit.width state listed fields found))
      have same : (state.transitions.find? fun transition =>
        transition.matchesWord (keyValue 1 view fields)) =
          state.transitions.find? fun transition => transition.matches (keyValue unit view fields) :=
        List.find?_congr fun transition member => by
          have printable := (wellFormed.printable.states state listed).transitions transition member
          rw [whole, matches_word printable (fit.values state listed transition member) small]
      simp only [P4Parser.wordMove, P4Parser.move, found, Option.bind_eq_bind, Option.bind_some, same]

private theorem words_path (wellFormed : WellFormed manager parser)
    (fit : KeysFit manager unit parser) (fuel : Nat)
    (packet : List Bool) : (parser.fromFirst.wordExtractor manager).path fuel none (View.ofPacket packet) =
      (parser.fromFirst.extractor manager unit).path fuel none (View.ofPacket packet) := by
  have corresponds : Corresponds (parser.fromFirst.extractor manager unit)
    (parser.fromFirst.wordExtractor manager) id
      (fun _ => True) (fun position position' => position' = position ∧ ∀ state, position = some state →
        state ∈ parser.parseStates) Eq := by
    constructor
    case takes =>
      rintro header view _ _ rfl
      cases taken : (parser.fromFirst.extractor manager unit).take header view with
      | none => exact taken.symm ▸ .none
      | some after => exact taken.symm ▸ .some rfl
    case moves =>
      rintro _ position view _ ⟨rfl, listed⟩ rfl
      have own : (parser.fromFirst.wordExtractor manager).move position view =
          (parser.fromFirst.extractor manager unit).move position view := word_move wellFormed fit listed view
      rw [own]
      cases moved : (parser.fromFirst.extractor manager unit).move position view with
      | none => exact .none
      | some move =>
          cases move with
          | accept => exact .some .accept
          | extract header next =>
              obtain ⟨name, entered⟩ := move_enters moved
              obtain ⟨state, isListed, rfl, _⟩ := enter_listed entered
              refine .some (.extract ⟨rfl, trivial, rfl, fun other same => ?_⟩)
              obtain rfl := Option.some.inj same
              exact isListed
  have same := corresponds.path_eq fuel ⟨Eq.refl none, fun state impossible => nomatch impossible⟩
    (Eq.refl (View.ofPacket packet))
  rwa [List.map_id] at same

private theorem sameInWords_iff (wellFormed : WellFormed manager parser) (fit : KeysFit manager unit parser) :
    SameInWords manager unit parser ↔ StartsFirst manager unit parser :=
  forall₂_congr fun fuel packet => by rw [words_path wellFormed fit fuel packet]

/-- The levels take the parser's path exactly if comparing words, from the state listed first on,
makes no difference. Where keys fit only the start can make one. -/
theorem pathPreserved_iff (wellFormed : WellFormed (.load headerDefs structDefs) parser) :
    (PathPreserved (.load headerDefs structDefs) unit parser ↔
      SameInWords (.load headerDefs structDefs) unit parser) ∧
      (KeysFit (.load headerDefs structDefs) unit parser →
        (PathPreserved (.load headerDefs structDefs) unit parser ↔
        StartsFirst (.load headerDefs structDefs) unit parser)) :=
  ⟨sameInWords_of wellFormed, fun fit => (sameInWords_of wellFormed).trans (sameInWords_iff wellFormed fit)⟩

end

/-! ### The order of the states -/

def twoHeaders : HeaderManager :=
  .load [⟨"h_t", [⟨.bit 8, "kind"⟩]⟩, ⟨"k_t", [⟨.bit 8, "f"⟩]⟩]
    [{ name := "hdr", fields := [⟨.named "h_t", "h"⟩, ⟨.named "k_t", "k"⟩], isHeader := true }]

def outerState : P4ParseState :=
  ⟨"outer", [⟨"h"⟩], [⟨"0x08", "", "inner"⟩, ⟨"0x10", "0xf0", "inner"⟩, ⟨"default", "", ""⟩],
    [⟨["h", "kind"]⟩]⟩

def innerState : P4ParseState := ⟨"inner", [⟨"k"⟩], [⟨"default", "", ""⟩], []⟩

/-- Both orders of two states. -/
def twoStates (swapped : Bool) : P4Parser :=
  ⟨"parser", "outer", if swapped then [innerState, outerState] else [outerState, innerState]⟩

private theorem twoStates_states {swapped : Bool} {state : P4ParseState}
    (listed : state ∈ (twoStates swapped).parseStates) :
    state = outerState ∨ state = innerState := by
  cases swapped with
  | false => simpa [twoStates] using listed
  | true => simpa [twoStates, or_comm] using listed

private theorem twoStates_identifier {name : String}
    (listed : name ∈ ["MyParser", "outer", "inner", "h", "k", "kind"]) :
    Identifier name := by
  have facts : ∀ name ∈ ["MyParser", "outer", "inner", "h", "k", "kind"],
    (name.toList.head?.any Char.isAlpha = true ∧
      name.toList.all identifierChar = true) ∧ Keyword.ofWord name.toList = none := by
    decide
  obtain ⟨⟨alpha, chars⟩, free⟩ := facts name listed
  exact ⟨word_of_chars alpha (List.all_eq_true.mp chars), free⟩

private theorem twoStates_printable {state : P4ParseState} (own : state = outerState ∨ state = innerState) :
    state.Printable := by
  have accepts : (Transition.mk "default" "" "").Printable := ⟨.inl ⟨rfl, rfl⟩, .inl rfl⟩
  have inner : Identifier "inner" := twoStates_identifier (by decide)
  rcases own with rfl | rfl
  · refine ⟨twoStates_identifier (by decide), ?_, ?_, ?_⟩
    · intro op member
      rw [List.mem_singleton.mp member]
      exact twoStates_identifier (by decide)
    · intro key member
      rw [List.mem_singleton.mp member]
      exact ⟨"h", "kind", rfl, twoStates_identifier (by decide), twoStates_identifier (by decide)⟩
    · intro transition member
      rcases List.mem_cons.mp member with rfl | member
      · exact ⟨.inr ⟨by decide, ⟨8, by decide⟩, .inl rfl⟩, .inr inner⟩
      · rcases List.mem_cons.mp member with rfl | member
        · exact ⟨.inr ⟨by decide, ⟨16, by decide⟩, .inr ⟨240, by decide⟩⟩, .inr inner⟩
        · exact List.mem_singleton.mp member ▸ accepts
  · refine ⟨inner, ?_, ?_, ?_⟩
    · intro op member
      rw [List.mem_singleton.mp member]
      exact twoStates_identifier (by decide)
    · intro key member
      cases member
    · intro transition member
      exact List.mem_singleton.mp member ▸ accepts

private theorem twoStates_known {name : String} (listed : name ∈ ["h", "k"]) : Known twoHeaders name := by
  have facts : ∀ name ∈ ["h", "k"], ∃ entry ∈ twoHeaders.counted, entry.1 = name ∧
      twoHeaders.getHeader name = some entry.2 := by decide
  obtain ⟨⟨_, header⟩, counted, rfl, found⟩ := facts name listed
  exact ⟨header, found, counted⟩

private theorem twoStates_fields {state : P4ParseState} (own : state = outerState ∨ state = innerState) :
    state.fields twoHeaders = some [] ∨ state.fields twoHeaders = some [("h", ⟨0, 0, 8, .field⟩)] := by
  rcases own with rfl | rfl
  · exact .inr (by decide)
  · exact .inl rfl

theorem twoStates_wellFormed (swapped : Bool) : WellFormed twoHeaders (twoStates swapped) where
  printable := ⟨twoStates_identifier (by decide +revert),
    fun _ listed => twoStates_printable (twoStates_states listed)⟩
  single := fun state listed => by
    rcases twoStates_states listed with rfl | rfl
    · exact ⟨⟨_, rfl⟩, fun keyless => by cases keyless⟩
    · exact ⟨⟨_, rfl⟩, fun _ => ⟨_, rfl⟩⟩
  names := by decide +revert
  init := by decide +revert
  keyless := by decide +revert
  targets := by decide +revert
  instanceName := by decide
  headers := fun state listed => by
    rcases twoStates_states listed with rfl | rfl
    · exact twoStates_known (by decide)
    · exact twoStates_known (by decide)
  fields := fun state listed => by
    rcases twoStates_fields (twoStates_states listed) with fields | fields
    · exact ⟨_, fields, by simp⟩
    · refine ⟨_, fields, fun field member => ?_⟩
      rw [List.mem_singleton.mp member]
      exact twoStates_known (by decide)

theorem twoStates_fit (swapped : Bool) : KeysFit twoHeaders 8 (twoStates swapped) where
  width := fun state listed fields found => by
    rcases twoStates_fields (twoStates_states listed) with own | own
    · cases own.symm.trans found
      decide
    · cases own.symm.trans found
      decide
  whole := fun state listed fields found => by
    rcases twoStates_fields (twoStates_states listed) with own | own
    · cases own.symm.trans found
      decide
    · cases own.symm.trans found
      decide
  values := fun state listed => by
    have small : ∀ state ∈ [outerState, innerState], ∀ transition ∈ state.transitions,
        ∀ text ∈ [transition.value, transition.mask], ∀ value ∈ hexValue text, value < 2 ^ 32 := by decide
    rcases twoStates_states listed with rfl | rfl
    · exact small outerState (by simp)
    · exact small innerState (by simp)

theorem pathPreserved_twoStates : PathPreserved twoHeaders 8 (twoStates false) :=
  ((pathPreserved_iff (twoStates_wellFormed false)).2 (twoStates_fit false)).mpr fun _ _ => rfl

/-- The compiler enters the state that is printed first. -/
theorem not_pathPreserved_swapped :
    WellFormed twoHeaders (twoStates true) ∧ KeysFit twoHeaders 8 (twoStates true) ∧
      ¬PathPreserved twoHeaders 8 (twoStates true) := by
  refine ⟨twoStates_wellFormed true, twoStates_fit true, fun preserved => ?_⟩
  have same := (sameInWords_iff (twoStates_wellFormed true) (twoStates_fit true)).mp
    ((sameInWords_of (twoStates_wellFormed true)).mp preserved) 2 (List.replicate 8 false)
  revert same
  decide

end Ipbm.Compiler.P4r
