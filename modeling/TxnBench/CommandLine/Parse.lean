import TxnBench.CommandLine.Argument

/-!
# Reading a command line

The texts of a command line are taken from left to right. Options and arguments told by their place may be mixed; the value
of an option follows it directly (`-s5`), after an equals sign (`-s=5`), or as the next text; two dashes end the options.

A value is read when the next argument begins, or at the end. So a text that is no argument at all is complained about before
the value in front of it is read, and any other text after.
-/

namespace TxnBench

/-- What a text on the command line looks like. -/
inductive Token where
  /-- Two dashes: no options follow. -/
  | terminator
  /-- A name after two dashes, with what follows an equals sign. -/
  | long (name : String) (value : Option String)
  /-- A letter after one dash, and what follows it. -/
  | short (letter : Char) (rest : List Char)
  | plain
  deriving DecidableEq, Repr

/-- What a text looks like. A dash by itself is plain. -/
def Token.of (text : String) : Token :=
  match text.toList with
  | ['-', '-'] => .terminator
  | '-' :: '-' :: body =>
    let name := body.takeWhile (· ≠ '=')
    match body.drop name.length with
    | [] => .long (String.ofList name) none
    | _ :: value => .long (String.ofList name) (some (String.ofList value))
  | '-' :: letter :: rest => .short letter rest
  | _ => .plain

/-- What a command line asks for. -/
inductive Request where
  /-- To be told how the program is used. -/
  | help
  | run (values : Values)
  deriving DecidableEq, Repr

/-- How far a command line has been read. -/
structure Scan where
  values : Values := {}
  /-- An argument that has begun, with its value once that is there. -/
  pending : Option (Argument × Option String) := none
  /-- The arguments told by their place that are still to come. -/
  places : List Argument := Argument.byPlace
  deriving DecidableEq, Repr

namespace Scan

/-- Takes in the text of an argument, which may be given once. -/
def take (s : Scan) (a : Argument) (text : String) : Except UsageError Scan :=
  if a.isGiven s.values then .error (.repeated a)
  else do return { s with values := ← a.store s.values text }

/-- Ends the argument that has begun. -/
def settle (s : Scan) : Except UsageError Scan :=
  match s.pending with
  | none => .ok s
  | some (a, none) => .error (.noValue a)
  | some (a, some text) => { s with pending := none }.take a text

/-- Begins an option. Its value may be attached. -/
def option (s : Scan) (a : Argument) (attached : List Char) : Except UsageError Scan := do
  let s ← s.settle
  match attached with
  | [] => return { s with pending := some (a, none) }
  | '=' :: value => s.take a (String.ofList value)
  | value => s.take a (String.ofList value)

/-- Takes a text for the next argument told by its place. -/
def place (s : Scan) (text : String) : Except UsageError Scan :=
  match s.places with
  | [] => .error (.unexpected text)
  | a :: places => do
    let s ← s.settle
    return { s with pending := some (a, some text), places }

/-- Takes a text that looks like no option: the value of an option, or an argument told by its place. -/
def plain (s : Scan) (text : String) : Except UsageError Scan :=
  match s.pending with
  | some (a, none) => .ok { s with pending := some (a, some text) }
  | _ => s.place text

/-- Takes a text while options are allowed; `none` stands for a call for help. -/
def text (s : Scan) (text : String) : Token → Except UsageError (Option Scan)
  | .long "dry-run" none => do
    let s ← s.settle
    return some (← s.take .dryRun "")
  | .long "help" none => do
    let _ ← s.settle
    return none
  | .long name (some value) =>
    if name = "dry-run" ∨ name = "help" then .error (.unwanted value ("--" ++ name))
    else .error (.unexpected ("--" ++ name))
  | .long name none => .error (.unexpected ("--" ++ name))
  | .short 'h' _ => do
    let _ ← s.settle
    return none
  | .short letter rest =>
    match Argument.ofLetter? letter with
    | some a => some <$> s.option a rest
    | none => .error (.unexpected (String.ofList ['-', letter]))
  | .terminator | .plain => some <$> s.plain text

end Scan

/-- Reads texts of which none is an option. -/
def Scan.places? : List String → Scan → Except UsageError Scan
  | [], s => s.settle
  | text :: rest, s => do places? rest (← s.place text)

/-- Reads texts among which there may be options. -/
def Scan.texts? : List String → Scan → Except UsageError (Option Scan)
  | [], s => some <$> s.settle
  | text :: rest, s =>
    match Token.of text with
    | .terminator => some <$> places? rest s
    | token => do
      match ← s.text text token with
      | none => return none
      | some s => texts? rest s

/-- Reads a command line. -/
def Request.parse (texts : List String) : Except UsageError Request := do
  match ← Scan.texts? texts {} with
  | none => return .help
  | some s => if Argument.byPlace.all fun a => a.isGiven s.values then return .run s.values else throw .missing

namespace Values

/-- The configuration that the values ask for; what is not given has its default. -/
def config (v : Values) : Except ConfigError Config :=
  let params : Params :=
    { threads := v.threads.getD 0, tasks := v.tasks.getD 0, perTxn := v.perTxn.getD 0,
      inserts := v.inserts.getD 0, removes := v.removes.getD 0 }
  Config.make (v.collection.getD .striped) params (v.runs.getD 1) v.seed

end Values

end TxnBench
