import DurableFlow.Identifier
import DurableFlow.Moment

/-! The causes for which an operation fails, and their wording. -/
namespace DurableFlow

def Json.kindName : Json → String
  | .null => "NoneType"
  | .bool _ => "bool"
  | .int _ => "int"
  | .double _ => "float"
  | .string _ => "str"
  | .array _ => "list"
  | .object _ => "dict"

inductive DocumentFault where
  | notAnObject (document : Json)
  | noNodeList
  | nodeNotAnObject (position : Nat)
  | nodeWithoutUuid (position : Nat)
  | actionNotAnObject (node : Json)
  | exitNotAnObject (node : Json)
  | exitWithoutUuid (node : Json)
  | routerNotAnObject (node : Json)
  | repeatedNode (node : Json)
  | unknownDestination (exit node destination : Json)
  deriving DecidableEq

def DocumentFault.message : DocumentFault → String
  | .notAnObject d => "Flow document must be an object, got " ++ d.kindName
  | .noNodeList => "Flow document has no node list"
  | .nodeNotAnObject p => s!"Node at position {p} is not an object"
  | .nodeWithoutUuid p => s!"Node at position {p} has no uuid"
  | .actionNotAnObject n => "Action of node " ++ n.shown ++ " is not an object"
  | .exitNotAnObject n => "Exit of node " ++ n.shown ++ " is not an object"
  | .exitWithoutUuid n => "Exit of node " ++ n.shown ++ " has no uuid"
  | .routerNotAnObject n => "Router of node " ++ n.shown ++ " is not an object"
  | .repeatedNode n => "Duplicate node uuid " ++ n.shown
  | .unknownDestination e n d =>
    "Exit " ++ e.shown ++ " of node " ++ n.shown ++ " points at unknown node " ++ d.shown

inductive Transition where
  | advance | suspend | resume | complete | record | enter | deliver | cancel
  deriving DecidableEq

def Transition.phrase : Transition → String
  | .advance => "advance"
  | .suspend => "suspend"
  | .resume => "resume"
  | .complete => "complete"
  | .record => "record results on"
  | .enter => "enter a sub-flow from"
  | .deliver => "deliver input to"
  | .cancel => "cancel"

/-- A rule of a table that a row breaks, or a value of the wrong type for its place. -/
inductive RowFault where
  | missing (column : String)
  | taken (column : String)
  | mismatched
  deriving DecidableEq

def RowFault.message : RowFault → String
  | .missing c => "NOT NULL constraint failed: " ++ c
  | .taken c => "UNIQUE constraint failed: " ++ c
  | .mismatched => "datatype mismatch"

inductive Misfit where
  | column
  | double
  | power
  | infinity
  | date
  | days (count : Int)
  | word
  deriving DecidableEq

def Misfit.message : Misfit → String
  | .column => "Python int too large to convert to SQLite INTEGER"
  | .double => "int too large to convert to float"
  | .power => "(34, 'Numerical result out of range')"
  | .infinity => "cannot convert float infinity to integer"
  | .date => "date value out of range"
  | .days n => s!"days={n}; must have magnitude <= 999999999"
  | .word => "Python int too large to convert to C int"

def plainText? : Option String → String
  | some s => s
  | none => "None"

def quotedText? : Option String → String
  | some s => Text.quoted s
  | none => "None"

def plainInt? : Option Int → String
  | some n => toString n
  | none => "None"

inductive StorageFault where
  | notConnected
  | unavailable
  | rejected (context : String)
  | unknownFields (names : List String)
  | identityTaken (uuid shortcode : Option String)
  | flowRow (uuid : Option String) (fault : RowFault)
  | flowMissing (flow : Int)
  | revision (flow : Int) (text : String)
  | contextTaken (context : String)
  | contextRow (context : String) (fault : RowFault)
  | contextUpdate (context : Option String) (text : String)
  deriving DecidableEq

def StorageFault.message : StorageFault → String
  | .notConnected => "Not connected. Call connect() first."
  | .unavailable => "backend unavailable"
  | .rejected c => "backend rejected update of " ++ c
  | .unknownFields names =>
    "Cannot update context fields: " ++ Text.quotedList (names.mergeSort fun a b => decide (a ≤ b))
  | .identityTaken u s =>
    "Flow uuid/shortcode already in use: uuid=" ++ plainText? u ++ ", shortcode=" ++ plainText? s
  | .flowRow u f => "Failed to save flow " ++ plainText? u ++ ": " ++ f.message
  | .flowMissing f => s!"Flow not found: flow_id={f}"
  | .revision f t => s!"Failed to save revision for flow {f}: {t}"
  | .contextTaken c => "Context already exists: " ++ c
  | .contextRow c f => "Failed to insert context " ++ c ++ ": " ++ f.message
  | .contextUpdate c t => "Failed to update context " ++ plainText? c ++ ": " ++ t

inductive SettingFault where
  | notANumber (name text kind : String)
  | notPositive (name text : String)
  | noDatabasePath (url : String)
  | unknownScheme (url : String)
  deriving DecidableEq

def SettingFault.message : SettingFault → String
  | .notANumber n t k => n ++ "=" ++ Text.quoted t ++ " is not a valid " ++ k
  | .notPositive n t => n ++ " must be positive, got " ++ Text.quoted t
  | .noDatabasePath u => "SQLite URL has no database path: " ++ Text.quoted u
  | .unknownScheme u => "Unsupported store URL: " ++ Text.quoted u

/-- Why an operation fails. The first group are outcomes that callers are meant to handle;
the second are values of a kind or size with which an operation cannot work. -/
inductive Failure where
  | flowNotFound (identifier : Identifier)
  | noLiveRevision (flow : Int)
  | contextNotFound (context : Option String)
  | emptyFlow (flow : Option Int)
  | malformed (flow : Option Int) (fault : DocumentFault)
  | dangling (context : Option String) (node : Json)
  | completed (transition : Transition) (context : Option String)
  | notASubFlow (context : Option String)
  | noSuchExit (node exit : Json) (count : Nat)
  | stale (context : Option String) (expected : Option Int) (actual : Int)
  | storage (fault : StorageFault)
  | setting (fault : SettingFault)
  | badIdentifier (identifier : Identifier)
  | tooFewAttempts (text : String)
  | negativeDelay
  | intervalNotPositive (text : String)
  | batchNotPositive (text : String)
  | notAnObject (value : Json) (member : String)
  | notIterable (value : Json)
  | notAKey (value : Json)
  | notAMapping (value : Json)
  | notAnIndex (value : Json)
  | notComparable (value : Json)
  | notASliceBound
  | notAnAmount
  | reservedName (name : String)
  | missingTime
  | zonesDiffer
  | zonesApart
  | notAPair
  | notANumeral (text : String)
  | notANumber
  | unknownChoice
  | badUuid
  | unknownKey
  | outOfRange
  | tooLarge (place : Misfit)
  | zeroDivision
  | refusedArgument (value : Json)
  | notACount
  | brokenRow (fault : RowFault)
  | unsupportedValue
  | idsExhausted
  | notAFile
  | nullCharacter
  | nameTooLong
  | wrongEntry
  | tooDeep
  | host (text : String)
  deriving DecidableEq

/-- The wording for a text that is no integer: how many digits it has when they are too many,
else the start of the text itself. -/
def numeralMessage (s : String) : String :=
  let most := Text.longestInteger
  let digits := Text.leadingDigits s
  if most < digits then
    s!"Exceeds the limit ({most} digits) for integer string conversion: value has {digits} " ++
      "digits; use sys.set_int_max_str_digits() to increase the limit"
  else "invalid literal for int() with base 10: " ++
    String.ofList ((Text.quoted s).toList.take 200)

def Failure.message : Failure → String
  | .flowNotFound i => "Flow not found: " ++ i.shown
  | .noLiveRevision f => s!"No live revision for flow_id={f}"
  | .contextNotFound c => "Context not found: " ++ plainText? c
  | .emptyFlow f =>
    "An empty flow cannot have a context or be executed: flow_id=" ++ plainInt? f
  | .malformed _ f => f.message
  | .dangling c n => "Node " ++ n.shown ++ " not found in flow graph for context " ++ quotedText? c
  | .completed t c => "Cannot " ++ t.phrase ++ " completed context " ++ plainText? c
  | .notASubFlow c => "Context " ++ plainText? c ++ " is not a sub-flow"
  | .noSuchExit n e k =>
    "Node " ++ n.shown ++ s!" has {k} exit(s), cannot take exit " ++ e.plain
  | .stale c e a =>
    "Context " ++ quotedText? c ++ " is stale: expected version " ++ plainInt? e ++
      s!", store has {a}"
  | .storage f => f.message
  | .setting f => f.message
  | .badIdentifier i => "Invalid flow identifier: " ++ i.shown
  | .tooFewAttempts t => "max_attempts must be at least 1, got " ++ t
  | .negativeDelay => "retry delays cannot be negative"
  | .intervalNotPositive t => "tick interval must be positive, got " ++ t
  | .batchNotPositive t => "batch size must be positive, got " ++ t
  | .notAnObject v m => "'" ++ v.kindName ++ "' object has no attribute '" ++ m ++ "'"
  | .notIterable v => "'" ++ v.kindName ++ "' object is not iterable"
  | .notAKey v => "unhashable type: '" ++ v.kindName ++ "'"
  | .notAMapping v => "'" ++ v.kindName ++ "' object is not a mapping"
  | .notAnIndex v => "tuple indices must be integers or slices, not " ++ v.kindName
  | .notComparable v => "'<' not supported between instances of '" ++ v.kindName ++ "' and 'int'"
  | .notASliceBound => "slice indices must be integers or None or have an __index__ method"
  | .notAnAmount => "not a number"
  | .reservedName n => "the name '" ++ n ++ "' is reserved"
  | .missingTime =>
    "'<=' not supported between instances of 'datetime.datetime' and 'NoneType'"
  | .zonesDiffer => "can't compare offset-naive and offset-aware datetimes"
  | .zonesApart => "can't subtract offset-naive and offset-aware datetimes"
  | .notAPair => "not a pair"
  | .notANumeral t => numeralMessage t
  | .notANumber => "cannot convert float NaN to integer"
  | .unknownChoice => "not a valid choice"
  | .badUuid => "badly formed hexadecimal UUID string"
  | .unknownKey => "unknown key"
  | .outOfRange => "index out of range"
  | .tooLarge m => m.message
  | .zeroDivision => "division by zero"
  | .refusedArgument v =>
    "Invalid input of type: '" ++ v.kindName ++ "'. Convert to a bytes, string, int or float first."
  | .notACount => "value is not an integer or out of range"
  | .brokenRow f => f.message
  | .unsupportedValue => "unsupported value"
  | .idsExhausted => "database or disk is full"
  | .notAFile => "unable to open database file"
  | .nullCharacter => "embedded null character"
  | .nameTooLong => "File name too long"
  | .wrongEntry => "WRONGTYPE Operation against a key holding the wrong kind of value"
  | .tooDeep => "maximum recursion depth exceeded"
  | .host t => t

/-- Whether the same call may succeed when it is made again on fresh data. -/
def Failure.isRetryable : Failure → Bool
  | .flowNotFound _ | .noLiveRevision _ | .contextNotFound _ | .stale .. => true
  | _ => false

/-- Whether the failure belongs to flows and contexts: a document, a transition, a lost race. -/
def Failure.isFlowFailure : Failure → Bool
  | .flowNotFound _ | .noLiveRevision _ | .contextNotFound _ | .emptyFlow _ | .malformed ..
  | .dangling .. | .completed .. | .notASubFlow _ | .noSuchExit .. | .stale .. => true
  | _ => false

def Failure.isStorageFailure : Failure → Bool
  | .storage _ => true
  | _ => false

/-- A moment within the years 1 to 9999, which are all that a calendar date can show. -/
def Moment.dated (m : Moment) : Except Failure Moment :=
  if m.isDated then .ok m
  else
    let days := Int.fdiv m.micros 86400000000
    if days.natAbs ≤ 999999999 then .error (.tooLarge .date)
    else if -Nat.pow 2 31 ≤ days ∧ days < Nat.pow 2 31 then .error (.tooLarge (.days days))
    else .error (.tooLarge .word)

def Identifier.key (i : Identifier) : Except Failure FlowKey :=
  match i.split? with
  | some k => .ok k
  | none => .error (.badIdentifier i)

end DurableFlow
