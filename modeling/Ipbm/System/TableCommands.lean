import Ipbm.Compiler.UpdateKey
import Ipbm.Dataplane.Pipeline
import Ipbm.System.TableEntry

/-! Table commands from the command line to the switch. The runtime writes an
update document, the controller turns it into a request, and the switch writes
the request's key and value into the row of the key. -/

set_option autoImplicit false

namespace Ipbm.System
open Lib Compiler Dataplane
open Controller (UpdateField TableUpdate TableRequest)

variable (inetPton : AddressFamily → List Char → Option (List UInt8)) (ipsa : Ipsa)

/-- A width below zero leaves no room for the mask. -/
def readKey (key : String × Int) : Option UpdateField := do
  let width ← natural key.2
  let (value, mask) ← IpsaTableUpdateKey.read inetPton key.1.toList width
  return ⟨width, value, mask⟩

/-- The parameters abandon their masks. -/
def readParameter (parameter : String × Int) : Option UpdateField := do
  let width ← natural parameter.2
  let (value, _) ← IpsaTableUpdateKey.read inetPton parameter.1.toList width
  return ⟨width, value, []⟩

/-- The update document of a command. -/
def updateDocument (updater : TableUpdater) : Option TableUpdate := do
  let keys ← updater.keys.mapM (readKey inetPton)
  let actionPara ← updater.actionPara.mapM (readParameter inetPton)
  return {
    procId := updater.procId
    matcherId := updater.matcherId
    actionId := updater.actionId
    matchType := updater.matchType
    keys, actionPara }

/-- What a command asks for and what the controller sends. -/
structure TableCommand where
  type : TableUpdateType
  actionId : Int
  request : TableRequest
  deriving DecidableEq, Repr

def tableCommand (params : List String) : Option TableCommand := do
  let updater ← Rp4Runtime.emitUpdate ipsa params
  let update ← updateDocument inetPton updater
  let request ← Controller.extract update
  return ⟨updater.type, updater.actionId, request⟩

namespace TableCommand

def toRequest (command : TableCommand) : Request :=
  match command.request with
  | .insertSramEntry procId matcherId key value => .insertSramEntry procId matcherId key value
  | .insertTcamEntry procId matcherId key mask value => .insertTcamEntry procId matcherId key mask value

def key (command : TableCommand) : List UInt8 :=
  match command.request with
  | .insertSramEntry _ _ key _ => key
  | .insertTcamEntry _ _ key _ _ => key

def value (command : TableCommand) : List UInt8 :=
  match command.request with
  | .insertSramEntry _ _ _ value => value
  | .insertTcamEntry _ _ _ _ value => value

/-- The action id and the parameters, as the matcher reads an entry. -/
def newValue (command : TableCommand) : List UInt8 :=
  beBytes 2 (command.actionId % 2 ^ 16).toNat ++ command.value

end TableCommand

def runCommands (pipeline : Pipeline) (commands : List (List String)) : Option Pipeline :=
  commands.foldlM (fun pipeline params => do
    let command ← tableCommand inetPton ipsa params
    pipeline.apply command.toRequest) pipeline

def tableThread (pipeline : Pipeline) (table : Table) : Option MatcherThread := do
  let processor ← pipeline.proc table.procId
  processor.matcher.thread table.id

def lookupKey (scratch : Nat → UInt8) (pipeline : Pipeline) (table : Table) (key : List UInt8) :
    Option (Option (List UInt8)) := do
  let thread ← tableThread pipeline table
  thread.getMatchRes pipeline.memory scratch key

/-- The commands with a given key. -/
def onKey (key : List UInt8) (params : List String) : Bool :=
  (tableCommand inetPton ipsa params).map TableCommand.key = some key

def commandsOn (commands : List (List String)) (key : List UInt8) : List TableCommand :=
  (commands.filter (onKey inetPton ipsa key)).filterMap (tableCommand inetPton ipsa)

/-- The bits of a key of the table. -/
def keyBits (table : Table) : Nat := (table.keyWidthVec.map Int.toNat).sum

/-- A key whose last command is an addition or a modification hits with what that command asks
for; any other key misses. -/
def Answers (last : Option TableCommand) (result : Option (Option (List UInt8))) : Prop :=
  match last with
  | none => result = some none
  | some command =>
      (command.type = .del → result = some none) ∧
        (command.type ≠ .del → ∃ row, result = some (some row) ∧ command.newValue <+: row)

/-- The answer for a key is that of its last command, and commands on other keys do not change it. -/
def ActsAsMap (scratch : Nat → UInt8) (pipeline after : Pipeline) (table : Table)
    (commands : List (List String)) : Prop :=
  ∀ key : List UInt8, key.length = bytesFor (keyBits table) →
    Answers (commandsOn inetPton ipsa commands key).getLast? (lookupKey scratch after table key) ∧
      ∃ alone, runCommands inetPton ipsa pipeline (commands.filter (onKey inetPton ipsa key)) = some alone ∧
        lookupKey scratch alone table key = lookupKey scratch after table key

/-- What an empty row of `room` bytes holds after some commands: each value over the one before. -/
def storedValue (room : Nat) (commands : List TableCommand) : List UInt8 :=
  (commands.map TableCommand.value).foldl (layOver room) (List.replicate room 0)

/-- No key is deleted last, the zero key has a command, and each row happens to read as the action
and the parameters of its last command, although the action is not stored. -/
structure MapLike (room : Nat) (table : Table) (commands : List (List String)) : Prop where
  kept : ∀ key last, (commandsOn inetPton ipsa commands key).getLast? = some last → last.type ≠ .del
  zero : commandsOn inetPton ipsa commands (List.replicate (bytesFor (keyBits table)) 0) ≠ []
  values : ∀ key last, (commandsOn inetPton ipsa commands key).getLast? = some last →
    last.newValue <+: storedValue room (commandsOn inetPton ipsa commands key)

/-- The texts of a command's key. -/
def keyTexts (params : List String) : List String := (params.drop 3).takeWhile (· ≠ "=>")

theorem withWidths_snd (widths : List Int) {texts : List String} (complete : texts.length = widths.length) :
    (Rp4Runtime.withWidths widths texts).map Prod.snd = widths := by
  apply List.ext_getElem
  · simp [Rp4Runtime.withWidths, complete]
  · intro index inside bound
    simp [Rp4Runtime.withWidths, List.getElem?_eq_getElem bound]

theorem packUpdate_width {fields : List (Nat × List UInt8)} {packed : List UInt8} {width : Nat}
    (isPacked : Controller.packUpdate fields = some (packed, width)) :
    width = bytesFor (fields.map Prod.fst).sum := by
  obtain ⟨infos, _, isPacked⟩ := Option.bind_eq_some_iff.mp isPacked
  obtain ⟨buffer, _, isPacked⟩ := Option.bind_eq_some_iff.mp isPacked
  cases isPacked
  rfl

theorem getString_length {bytes sent : List UInt8} {width : Nat}
    (isSent : Controller.getString bytes width = some sent) :
    sent.length = width := by
  unfold Controller.getString at isSent
  split at isSent
  case isTrue room =>
    cases isSent
    rw [List.length_take, Nat.min_eq_left room]
  case isFalse => cases isSent

/-- A packed buffer of the request has the bytes of its widths. -/
theorem packUpdate_length {fields : List (Nat × List UInt8)} {packed sent : List UInt8} {width : Nat}
    (isPacked : Controller.packUpdate fields = some (packed, width))
    (isSent : Controller.getString packed width = some sent) :
    sent.length = bytesFor (fields.map Prod.fst).sum :=
  (getString_length isSent).trans (packUpdate_width isPacked)

theorem extract_exact {update : TableUpdate} {request : TableRequest} (exact : update.matchType = .exact)
    (extracted : Controller.extract update = some request) :
    ∃ key value, request = .insertSramEntry update.procId update.matcherId key value ∧
      key.length = bytesFor (update.keys.map UpdateField.width).sum := by
  rw [Controller.extract, exact] at extracted
  obtain ⟨⟨packed, keyWidth⟩, isPacked, extracted⟩ := Option.bind_eq_some_iff.mp extracted
  obtain ⟨⟨paras, valueWidth⟩, _, extracted⟩ := Option.bind_eq_some_iff.mp extracted
  obtain ⟨key, isKey, extracted⟩ := Option.bind_eq_some_iff.mp extracted
  obtain ⟨value, _, extracted⟩ := Option.bind_eq_some_iff.mp extracted
  cases extracted
  refine ⟨key, value, rfl, ?_⟩
  rw [packUpdate_length isPacked isKey, List.map_map]
  rfl

section Commands

variable {inetPton ipsa} {table : Table} {tableName : String} {params : List String}
  {command : TableCommand}

theorem readKey_width {keys : List (String × Int)} {fields : List UpdateField}
    (isRead : keys.mapM (readKey inetPton) = some fields) :
    fields.map UpdateField.width = (keys.map Prod.snd).map Int.toNat := by
  induction keys generalizing fields with
  | nil =>
      cases isRead
      rfl
  | cons key rest ih =>
      rw [List.mapM_cons] at isRead
      obtain ⟨field, isField, isRead⟩ := Option.bind_eq_some_iff.mp isRead
      obtain ⟨others, areRead, isRead⟩ := Option.bind_eq_some_iff.mp isRead
      obtain ⟨width, isWidth, isField⟩ := Option.bind_eq_some_iff.mp isField
      obtain ⟨_, _, isField⟩ := Option.bind_eq_some_iff.mp isField
      cases isRead
      cases isField
      rw [List.map_cons, List.map_cons, List.map_cons, ih areRead, natural_toNat isWidth]

/-- A command on an exact table writes a key of the table's width into the table's thread. -/
theorem tableCommand_on (found : ipsa.tables.lookupName tableName = some table)
    (exact : table.matchType = .exact) (onTable : params[1]? = some tableName)
    (complete : (keyTexts params).length = table.keyWidthVec.length)
    (isCommand : tableCommand inetPton ipsa params = some command) :
    command.request = .insertSramEntry table.procId table.id command.key command.value ∧
      command.key.length = bytesFor (keyBits table) := by
  obtain ⟨updater, isUpdater, isCommand⟩ := Option.bind_eq_some_iff.mp isCommand
  obtain ⟨update, isUpdate, isCommand⟩ := Option.bind_eq_some_iff.mp isCommand
  obtain ⟨request, isRequest, isCommand⟩ := Option.bind_eq_some_iff.mp isCommand
  cases isCommand
  match params with
  | cmd :: name :: actionName :: texts =>
      obtain rfl : name = tableName := Option.some.inj onTable
      obtain ⟨other, same, isUpdater⟩ := Option.bind_eq_some_iff.mp isUpdater
      cases found.symm.trans same
      obtain ⟨action, _, isUpdater⟩ := Option.bind_eq_some_iff.mp isUpdater
      cases isUpdater
      obtain ⟨keys, isKeys, isUpdate⟩ := Option.bind_eq_some_iff.mp isUpdate
      obtain ⟨paras, _, isUpdate⟩ := Option.bind_eq_some_iff.mp isUpdate
      cases isUpdate
      obtain ⟨key, value, rfl, width⟩ := extract_exact exact isRequest
      refine ⟨rfl, ?_⟩
      change key.length = _
      rw [width]
      change bytesFor (keys.map UpdateField.width).sum = _
      rw [readKey_width isKeys]
      change bytesFor
        (((Rp4Runtime.withWidths table.keyWidthVec (keyTexts (cmd :: name :: actionName :: texts))).map
        Prod.snd).map Int.toNat).sum = _
      rw [withWidths_snd _ complete]
      rfl
  | [] | [_] | [_, _] => cases isUpdater

end Commands

section Run

variable {pipeline after : Pipeline} {table : Table} {thread : MatcherThread}

/-- An insert into a table changes the memory only. -/
theorem apply_insertSramEntry (placed : tableThread pipeline table = some thread) (key value : List UInt8) :
    pipeline.apply (.insertSramEntry table.procId table.id key value) =
      (thread.insertSramEntry pipeline.memory key value).map fun memory => { pipeline with memory } := by
  obtain ⟨processor, isProc, isThread⟩ := Option.bind_eq_some_iff.mp placed
  unfold Pipeline.proc at isProc
  unfold Matcher.thread at isThread
  split at isProc
  case isTrue => cases isProc
  case isFalse proc =>
    split at isThread
    case isTrue => cases isThread
    case isFalse matcher =>
      simp only [Pipeline.apply, Pipeline.atThread, proc, matcher, or_self, if_false, isProc, isThread,
        Option.bind_eq_bind, Option.bind_some]
      cases thread.insertSramEntry pipeline.memory key value with
      | none => rfl
      | some memory =>
          obtain ⟨_, rfl⟩ := List.getElem?_eq_some_iff.mp isProc
          obtain ⟨_, rfl⟩ := List.getElem?_eq_some_iff.mp isThread
          simp only [Option.pure_def, Option.bind_some, Option.map_some, List.set_getElem_self]
          exact congrArg (fun procs => some { pipeline with procs, memory }) (List.set_getElem_self _)

/-- The writes of some commands to the thread of their table. -/
def storeAll (thread : MatcherThread) (memory : Memory) (commands : List TableCommand) : Option Memory :=
  commands.foldlM (fun memory command => thread.insertSramEntry memory command.key command.value) memory

variable {inetPton ipsa} {commands : List (List String)} {entries : List TableCommand}

/-- A run of commands on a table is the writes of its commands. -/
theorem runCommands_eq (placed : tableThread pipeline table = some thread)
    (resolved : commands.map (tableCommand inetPton ipsa) = entries.map some)
    (onTable : ∀ command ∈ entries,
      command.request = .insertSramEntry table.procId table.id command.key command.value) :
    runCommands inetPton ipsa pipeline commands =
      (storeAll thread pipeline.memory entries).map fun memory => { pipeline with memory } := by
  induction commands generalizing pipeline entries with
  | nil =>
      obtain rfl : entries = [] := List.map_eq_nil_iff.mp resolved.symm
      rfl
  | cons params rest ih =>
      obtain ⟨command, others, rfl⟩ : ∃ command others, entries = command :: others := by
        cases entries with
        | nil => cases resolved
        | cons command others => exact ⟨command, others, rfl⟩
      obtain ⟨isCommand, resolved⟩ := List.cons.inj resolved
      have here := onTable command List.mem_cons_self
      unfold runCommands storeAll
      rw [List.foldlM_cons, List.foldlM_cons, isCommand]
      simp only [Option.bind_eq_bind, Option.bind_some, TableCommand.toRequest, here,
        apply_insertSramEntry placed]
      cases thread.insertSramEntry pipeline.memory command.key command.value with
      | none => rfl
      | some memory =>
          exact ih placed resolved fun other member => onTable other (List.mem_cons_of_mem _ member)

/-- A run that goes through resolves its commands. -/
theorem runCommands_resolved (ran : runCommands inetPton ipsa pipeline commands = some after) :
    ∀ params ∈ commands, ∃ command, tableCommand inetPton ipsa params = some command := by
  induction commands generalizing pipeline with
  | nil => simp
  | cons params rest ih =>
      unfold runCommands at ran
      rw [List.foldlM_cons] at ran
      obtain ⟨next, stepped, ran⟩ := Option.bind_eq_some_iff.mp ran
      obtain ⟨command, isCommand, _⟩ := Option.bind_eq_some_iff.mp stepped
      exact List.forall_mem_cons.mpr ⟨⟨command, isCommand⟩, ih ran⟩

end Run

section Rows

variable {thread : MatcherThread} {keyBits valueBits : Nat} {memory after : Memory}
  {entries : List TableCommand}

/-- The commands that write into the row of a key. -/
def inRow (thread : MatcherThread) (key : List UInt8) (entries : List TableCommand) : List TableCommand :=
  entries.filter fun command => thread.SameSlot key command.key

/-- The row of a key holds what the commands on the row wrote, each laid over the one before. -/
theorem rows_storeAll (sized : thread.Sized keyBits valueBits)
    (stored : storeAll thread memory entries = some after) (key : List UInt8) :
    MatcherThread.keyRow after thread key =
        ((inRow thread key entries).map TableCommand.key).foldl
          (layOver (thread.keyWidth * (sramWidth / 8))) (MatcherThread.keyRow memory thread key) ∧
      MatcherThread.valueRow after thread key =
        ((inRow thread key entries).map TableCommand.value).foldl
          (layOver (thread.valueWidth * (sramWidth / 8))) (MatcherThread.valueRow memory thread key) := by
  induction entries generalizing memory with
  | nil =>
      cases stored
      exact ⟨rfl, rfl⟩
  | cons command rest ih =>
      unfold storeAll at stored
      rw [List.foldlM_cons] at stored
      obtain ⟨next, inserted, stored⟩ := Option.bind_eq_some_iff.mp stored
      obtain ⟨keys, values⟩ := ih stored
      unfold inRow at keys values ⊢
      by_cases same : thread.SameSlot key command.key
      · rw [List.filter_cons_of_pos (by simpa using same), List.map_cons, List.map_cons, List.foldl_cons,
          List.foldl_cons, keys, values, sized.keyRow_written inserted same,
          sized.valueRow_written inserted same]
        exact ⟨rfl, rfl⟩
      · rw [List.filter_cons_of_neg (by simpa using same), keys, values,
          (sized.rows_kept inserted same).1, (sized.rows_kept inserted same).2]
        exact ⟨rfl, rfl⟩

theorem storeAll_isSome (sized : thread.Sized keyBits valueBits) :
    (storeAll thread memory entries).isSome ↔
      ∀ command ∈ entries, (thread.insertSramEntry memory command.key command.value).isSome := by
  induction entries generalizing memory with
  | nil => simp [storeAll]
  | cons command rest ih =>
      unfold storeAll at ih ⊢
      rw [List.foldlM_cons, List.forall_mem_cons]
      cases inserted : thread.insertSramEntry memory command.key command.value with
      | none => simp
      | some next =>
          simp only [Option.bind_eq_bind, Option.bind_some, Option.isSome_some, true_and]
          rw [ih]
          refine forall₂_congr fun other _ => ?_
          rw [sized.insertSramEntry_isSome_congr next memory]

/-- The key that the row of a key begins with. -/
def rowKey (thread : MatcherThread) (key : List UInt8) (entries : List TableCommand) : List UInt8 :=
  ((inRow thread key entries).getLast?.map TableCommand.key).getD (List.replicate key.length 0)

theorem keyRow_take (sized : thread.Sized keyBits valueBits) (empty : MatcherThread.Empty memory thread)
    (stored : storeAll thread memory entries = some after) {key : List UInt8}
    (fits : key.length ≤ thread.keyWidth * (sramWidth / 8))
    (lengths : ∀ command ∈ entries, command.key.length = key.length) :
    (MatcherThread.keyRow after thread key).take key.length = rowKey thread key entries := by
  rw [(rows_storeAll sized stored key).1, (sized.rows_empty empty key).1, rowKey]
  rcases List.eq_nil_or_concat (inRow thread key entries) with none | ⟨front, last, split⟩
  · rw [none]
    simp [fits]
  · have member : last ∈ inRow thread key entries := by simp [split]
    have width := lengths last (List.mem_filter.mp member).1
    have whole : last.key.take (thread.keyWidth * (sramWidth / 8)) = last.key :=
      List.take_of_length_le (width ▸ fits)
    rw [split, List.concat_eq_append, List.map_append, List.foldl_append, List.map_singleton,
      List.foldl_cons, List.foldl_nil, List.getLast?_concat, layOver, ← width, whole, List.take_left]
    rfl

/-- What a lookup finds after some commands on an empty table. -/
theorem lookupKey_storeAll {pipeline : Pipeline} {table : Table}
    (placed : tableThread pipeline table = some thread) (sized : thread.Sized keyBits valueBits)
    (empty : MatcherThread.Empty pipeline.memory thread)
    (stored : storeAll thread pipeline.memory entries = some after) (scratch : Nat → UInt8) {key : List UInt8}
    (fits : key.length ≤ thread.keyWidth * (sramWidth / 8))
    (lengths : ∀ command ∈ entries, command.key.length = key.length) :
    lookupKey scratch { pipeline with memory := after } table key =
      some (if key = rowKey thread key entries then
        some (storedValue (thread.valueWidth * (sramWidth / 8)) (inRow thread key entries)) else none) := by
  have here : tableThread { pipeline with memory := after } table = some thread := placed
  rw [lookupKey, here]
  change thread.getMatchRes after scratch key = _
  rw [sized.getMatchRes_eq scratch fits, keyRow_take sized empty stored fits lengths,
    (rows_storeAll sized stored key).2, (sized.rows_empty empty key).2]
  rfl

end Rows

theorem map_eq_filterMap {α β : Type} {resolve : α → Option β} {list : List α}
    (resolves : ∀ element ∈ list, ∃ result, resolve element = some result) :
    list.map resolve = (list.filterMap resolve).map some := by
  rw [List.map_filterMap_some_eq_filter_map_isSome, eq_comm, List.filter_eq_self]
  intro result member
  obtain ⟨element, inside, rfl⟩ := List.mem_map.mp member
  obtain ⟨_, found⟩ := resolves element inside
  exact found ▸ rfl

theorem commandsOn_eq (inetPton : AddressFamily → List Char → Option (List UInt8)) (ipsa : Ipsa)
    (commands : List (List String)) (key : List UInt8) :
    commandsOn inetPton ipsa commands key =
      (commands.filterMap (tableCommand inetPton ipsa)).filter fun command => command.key = key := by
  induction commands with
  | nil => rfl
  | cons params rest ih =>
      unfold commandsOn at ih ⊢
      cases isCommand : tableCommand inetPton ipsa params with
      | none =>
          rw [List.filter_cons_of_neg (by simp [onKey, isCommand]), List.filterMap_cons_none isCommand, ih]
      | some command =>
          rw [List.filterMap_cons_some isCommand]
          by_cases same : command.key = key
          · rw [List.filter_cons_of_pos (by simp [onKey, isCommand, same]),
              List.filterMap_cons_some isCommand, List.filter_cons_of_pos (by simpa using same), ih]
          · rw [List.filter_cons_of_neg (by simp [onKey, isCommand, same]),
              List.filter_cons_of_neg (by simpa using same), ih]

section Map

variable {inetPton : AddressFamily → List Char → Option (List UInt8)} {ipsa : Ipsa} {tableName : String}
  {table : Table} {commands : List (List String)} {pipeline after : Pipeline} {thread : MatcherThread}
  {valueBits : Nat}

/-- Commands on one exact table, applied to the empty table of the switch. -/
structure OnTable (inetPton : AddressFamily → List Char → Option (List UInt8)) (ipsa : Ipsa)
    (tableName : String) (table : Table) (commands : List (List String)) (pipeline : Pipeline)
    (thread : MatcherThread) (valueBits : Nat) : Prop where
  found : ipsa.tables.lookupName tableName = some table
  exact : table.matchType = .exact
  named : ∀ params ∈ commands, params[1]? = some tableName
  complete : ∀ params ∈ commands, (keyTexts params).length = table.keyWidthVec.length
  placed : tableThread pipeline table = some thread
  sized : thread.Sized (keyBits table) valueBits
  empty : MatcherThread.Empty pipeline.memory thread
  apart : ∀ left ∈ commands.filterMap (tableCommand inetPton ipsa),
    ∀ right ∈ commands.filterMap (tableCommand inetPton ipsa),
      thread.SameSlot left.key right.key → left.key = right.key

variable (on : OnTable inetPton ipsa tableName table commands pipeline thread valueBits)
  (ran : runCommands inetPton ipsa pipeline commands = some after)

include on

theorem OnTable.command {command : TableCommand}
    (member : command ∈ commands.filterMap (tableCommand inetPton ipsa)) :
    command.request = .insertSramEntry table.procId table.id command.key command.value ∧
      command.key.length = bytesFor (keyBits table) := by
  obtain ⟨params, inside, isCommand⟩ := List.mem_filterMap.mp member
  exact tableCommand_on on.found on.exact (on.named params inside) (on.complete params inside) isCommand

omit on in
theorem inRow_alone (key : List UInt8) :
    inRow thread key (commandsOn inetPton ipsa commands key) = commandsOn inetPton ipsa commands key := by
  rw [commandsOn_eq]
  apply List.filter_eq_self.mpr
  intro command member
  obtain rfl : command.key = key := by simpa using (List.mem_filter.mp member).2
  exact decide_eq_true ⟨rfl, rfl⟩

/-- Two commands in one row have one key. -/
theorem OnTable.inRow_eq {key : List UInt8} (commanded : commandsOn inetPton ipsa commands key ≠ []) :
    inRow thread key (commands.filterMap (tableCommand inetPton ipsa)) =
      commandsOn inetPton ipsa commands key := by
  obtain ⟨command, member⟩ := List.exists_mem_of_ne_nil _ commanded
  rw [commandsOn_eq] at member ⊢
  obtain ⟨listed, same⟩ := List.mem_filter.mp member
  obtain rfl : command.key = key := by simpa using same
  apply List.filter_congr
  intro other inside
  rw [decide_eq_decide]
  constructor
  · intro slot
    exact (on.apart command listed other inside slot).symm
  · intro equal
    rw [equal]
    exact ⟨rfl, rfl⟩

include ran

theorem OnTable.stored : ∃ memory,
    storeAll thread pipeline.memory (commands.filterMap (tableCommand inetPton ipsa)) = some memory ∧
      after = { pipeline with memory } := by
  rw [runCommands_eq on.placed (map_eq_filterMap (runCommands_resolved ran))
    fun command member => (on.command member).1] at ran
  obtain ⟨memory, stored, rfl⟩ := Option.map_eq_some_iff.mp ran
  exact ⟨memory, stored, rfl⟩

omit ran in
theorem OnTable.fits {key : List UInt8} (length : key.length = bytesFor (keyBits table)) :
    key.length ≤ thread.keyWidth * (sramWidth / 8) := by
  have width : thread.keyWidth = ((keyBits table) + 127) / 128 := on.sized.keyWidth
  have unit : sramWidth / 8 = 16 := rfl
  rw [length, width, unit, bytesFor]
  omega

/-- What a lookup finds after the commands. -/
theorem OnTable.lookup_after (scratch : Nat → UInt8) {key : List UInt8}
    (length : key.length = bytesFor (keyBits table)) :
    lookupKey scratch after table key =
      some (if key = rowKey thread key (commands.filterMap (tableCommand inetPton ipsa)) then
        some (storedValue (thread.valueWidth * (sramWidth / 8))
          (inRow thread key (commands.filterMap (tableCommand inetPton ipsa)))) else none) := by
  obtain ⟨memory, stored, rfl⟩ := on.stored ran
  exact lookupKey_storeAll on.placed on.sized on.empty stored scratch (on.fits length)
    fun command member => (on.command member).2.trans length.symm

/-- What a lookup finds after the commands on its key. -/
theorem OnTable.lookup_alone (scratch : Nat → UInt8) {key : List UInt8}
    (length : key.length = bytesFor (keyBits table)) :
    ∃ alone, runCommands inetPton ipsa pipeline (commands.filter (onKey inetPton ipsa key)) = some alone ∧
      lookupKey scratch alone table key =
        some (if key = rowKey thread key (commandsOn inetPton ipsa commands key) then
          some (storedValue (thread.valueWidth * (sramWidth / 8))
            (inRow thread key (commandsOn inetPton ipsa commands key))) else none) := by
  have listed : ∀ command ∈ commandsOn inetPton ipsa commands key,
      command ∈ commands.filterMap (tableCommand inetPton ipsa) := by
    intro command member
    rw [commandsOn_eq] at member
    exact (List.mem_filter.mp member).1
  obtain ⟨memory, stored, _⟩ := on.stored ran
  have inserts := (storeAll_isSome on.sized).mp (Option.isSome_iff_exists.mpr ⟨memory, stored⟩)
  have succeeds : (storeAll thread pipeline.memory (commandsOn inetPton ipsa commands key)).isSome :=
    (storeAll_isSome on.sized).mpr fun command member => inserts command (listed command member)
  obtain ⟨other, alone⟩ := Option.isSome_iff_exists.mp succeeds
  have resolved : (commands.filter (onKey inetPton ipsa key)).map (tableCommand inetPton ipsa) =
      (commandsOn inetPton ipsa commands key).map some :=
    map_eq_filterMap fun params member => runCommands_resolved ran params (List.mem_filter.mp member).1
  refine ⟨{ pipeline with memory := other }, ?_, ?_⟩
  · rw [runCommands_eq on.placed resolved fun command member => (on.command (listed command member)).1, alone]
    rfl
  · exact lookupKey_storeAll on.placed on.sized on.empty alone scratch (on.fits length)
      fun command member => (on.command (listed command member)).2.trans length.symm

/-- A key with commands hits in the row that they wrote. -/
theorem OnTable.lookup_commanded (scratch : Nat → UInt8) {key : List UInt8} {last : TableCommand}
    (isLast : (commandsOn inetPton ipsa commands key).getLast? = some last) :
    key.length = bytesFor (keyBits table) ∧
      lookupKey scratch after table key =
        some (some (storedValue (thread.valueWidth * (sramWidth / 8))
          (commandsOn inetPton ipsa commands key))) := by
  have member := List.mem_of_getLast? isLast
  have commanded := List.ne_nil_of_mem member
  rw [commandsOn_eq] at member
  obtain ⟨listed, same⟩ := List.mem_filter.mp member
  obtain rfl : last.key = key := by simpa using same
  have length := (on.command listed).2
  refine ⟨length, ?_⟩
  rw [on.lookup_after ran scratch length, rowKey, on.inRow_eq commanded, isLast]
  simp

/-- A key other than zero without commands misses. -/
theorem OnTable.lookup_other (scratch : Nat → UInt8) {key : List UInt8}
    (length : key.length = bytesFor (keyBits table)) (nonzero : key ≠ List.replicate key.length 0)
    (unused : commandsOn inetPton ipsa commands key = []) :
    lookupKey scratch after table key = some none := by
  rw [on.lookup_after ran scratch length, if_neg]
  unfold rowKey
  cases isLast : (inRow thread key (commands.filterMap (tableCommand inetPton ipsa))).getLast? with
  | none => exact nonzero
  | some last =>
      intro same
      have listed := (List.mem_filter.mp (List.mem_of_getLast? isLast)).1
      have member : last ∈ commandsOn inetPton ipsa commands key := by
        rw [commandsOn_eq]
        exact List.mem_filter.mpr ⟨listed, decide_eq_true same.symm⟩
      rw [unused] at member
      cases member

/-- Table commands act as a map exactly if no key's last command deletes it, the zero key, which
hits in an empty row, has a command, and every row reads as the action and the parameters it is
written for: the switch only inserts, and it is not sent the action. -/
theorem actsAsMap_iff (scratch : Nat → UInt8) :
    ActsAsMap inetPton ipsa scratch pipeline after table commands ↔
      MapLike inetPton ipsa (thread.valueWidth * (sramWidth / 8)) table commands := by
  constructor
  · intro acts
    have hits {key : List UInt8} {last : TableCommand}
        (isLast : (commandsOn inetPton ipsa commands key).getLast? = some last) :
        last.type ≠ .del ∧ last.newValue <+:
          storedValue (thread.valueWidth * (sramWidth / 8)) (commandsOn inetPton ipsa commands key) := by
      obtain ⟨length, found⟩ := on.lookup_commanded ran scratch isLast
      have answers := (acts key length).1
      rw [isLast, found] at answers
      obtain ⟨deleted, kept⟩ := answers
      have notDel : last.type ≠ .del := fun del => nomatch deleted del
      obtain ⟨row, same, starts⟩ := kept notDel
      cases same
      exact ⟨notDel, starts⟩
    refine ⟨fun key last isLast => (hits isLast).1, ?_, fun key last isLast => (hits isLast).2⟩
    intro none
    have length : (List.replicate (bytesFor (keyBits table)) (0 : UInt8)).length =
        bytesFor (keyBits table) := List.length_replicate
    obtain ⟨answers, alone, isAlone, same⟩ := acts _ length
    obtain ⟨other, isOther, found⟩ := on.lookup_alone ran scratch length
    cases isAlone.symm.trans isOther
    rw [none] at answers found
    rw [← same, found, rowKey] at answers
    simp [inRow, Answers] at answers
  · intro map key length
    obtain ⟨alone, isAlone, found⟩ := on.lookup_alone ran scratch length
    rw [inRow_alone, rowKey, inRow_alone] at found
    cases isLast : (commandsOn inetPton ipsa commands key).getLast? with
    | none =>
        have none := List.getLast?_eq_none_iff.mp isLast
        have nonzero : key ≠ List.replicate key.length 0 := by
          intro zero
          rw [length] at zero
          exact map.zero (zero ▸ none)
        have misses := on.lookup_other ran scratch length nonzero none
        rw [isLast, Option.map_none, Option.getD_none, if_neg nonzero] at found
        exact ⟨misses, alone, isAlone, found.trans misses.symm⟩
    | some last =>
        have hits := (on.lookup_commanded ran scratch isLast).2
        have same : last.key = key := by
          have member := List.mem_of_getLast? isLast
          rw [commandsOn_eq] at member
          simpa using (List.mem_filter.mp member).2
        rw [isLast, Option.map_some, Option.getD_some, if_pos same.symm] at found
        refine ⟨?_, alone, isAlone, found.trans hits.symm⟩
        rw [hits]
        exact ⟨fun del => absurd del (map.kept key last isLast),
          fun _ => ⟨_, rfl, map.values key last isLast⟩⟩

end Map

/-! A table `t` with one byte of key and an action `a` without parameters. -/

def byteTable : Table where
  keyWidthVec := [8]
  tableId := 0
  missActionId := 0

def byteIpsa : Ipsa where
  processors := []
  actions := [("a", ⟨0, 0, [], []⟩)]
  tables := [("t", byteTable)]
  stages := []
  gateways := []

def byteThread : MatcherThread := plainThread 1 1 (plainFields [] 8)

def bytePipeline : Pipeline where
  procs := [{ matcher := [byteThread] }]

theorem byte_onTable {commands : List (List String)}
    (named : ∀ params ∈ commands, params[1]? = some "t")
    (complete : ∀ params ∈ commands, (keyTexts params).length = 1)
    (apart : ∀ left ∈ commands.filterMap (tableCommand (fun _ _ => none) byteIpsa),
      ∀ right ∈ commands.filterMap (tableCommand (fun _ _ => none) byteIpsa),
        byteThread.SameSlot left.key right.key → left.key = right.key) :
    OnTable (fun _ _ => none) byteIpsa "t" byteTable commands bytePipeline byteThread 16 where
  found := by decide
  exact := rfl
  named := named
  complete := complete
  placed := rfl
  sized := @plainThread_sized 8 16 (plainFields [] 8) (by decide)
  empty := fun _ _ _ => rfl
  apart := apart

def addAndMod : List (List String) :=
  [["table_add", "t", "a", "0", "=>"], ["table_mod", "t", "a", "7", "=>"]]

theorem actsAsMap_iff_add_mod :
    ∃ after, runCommands (fun _ _ => none) byteIpsa bytePipeline addAndMod = some after ∧
      (ActsAsMap (fun _ _ => none) byteIpsa (fun _ => 0) bytePipeline after byteTable addAndMod ↔
        MapLike (fun _ _ => none) byteIpsa 16 byteTable addAndMod) := by
  have ran : (runCommands (fun _ _ => none) byteIpsa bytePipeline addAndMod).isSome := by decide
  obtain ⟨after, ran⟩ := Option.isSome_iff_exists.mp ran
  have on := byte_onTable (show ∀ params ∈ addAndMod, params[1]? = some "t" by decide)
    (by decide) (by decide)
  exact ⟨after, ran, actsAsMap_iff on ran (fun _ => 0)⟩

def addAndDel : List (List String) :=
  [["table_add", "t", "a", "5", "=>"], ["table_del", "t", "a", "5", "=>"]]

/-- After `table_add t a 5 =>` and `table_del t a 5 =>` a lookup of 5 hits. -/
theorem deleted_key_hits :
    OnTable (fun _ _ => none) byteIpsa "t" byteTable addAndDel bytePipeline byteThread 16 ∧
      ∃ after, runCommands (fun _ _ => none) byteIpsa bytePipeline addAndDel = some after ∧
        lookupKey (fun _ => 0) after byteTable [5] = some (some (List.replicate 16 0)) ∧
        ¬ ActsAsMap (fun _ _ => none) byteIpsa (fun _ => 0) bytePipeline after byteTable addAndDel := by
  have on := byte_onTable (show ∀ params ∈ addAndDel, params[1]? = some "t" by decide)
    (by decide) (by decide)
  have looked : (runCommands (fun _ _ => none) byteIpsa bytePipeline addAndDel).map
      (lookupKey (fun _ => 0) · byteTable [5]) = some (some (some (List.replicate 16 0))) := by
    decide
  have last : (commandsOn (fun _ _ => none) byteIpsa addAndDel [5]).getLast?.map TableCommand.type =
      some .del := by
    decide
  obtain ⟨after, ran, found⟩ := Option.map_eq_some_iff.mp looked
  obtain ⟨command, isLast, deleted⟩ := Option.map_eq_some_iff.mp last
  refine ⟨on, after, ran, found, fun acts => ?_⟩
  have answers := (acts [5] rfl).1
  rw [isLast, found] at answers
  exact nomatch answers.1 deleted

end Ipbm.System
