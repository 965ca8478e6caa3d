/-!
# Control sequences

A text may hold sequences of characters that a terminal obeys instead of showing. They begin with the escape character, and
what follows it says which characters belong to them; other control characters stand for themselves. `strip` leaves what a
terminal would show, which is the text itself where it has no control characters (`strip_eq_self`).

Tabs, line feeds, form feeds and carriage returns are shown. One that stands inside a sequence interrupts it: the text after it
is shown too, up to the next control character that is none of these, and the sequence goes on there.
-/

namespace TxnBench.ControlSequence

/-- How far a sequence has come. -/
inductive Stage where
  /-- There is no sequence. -/
  | outside
  /-- The escape character has been met. -/
  | escape
  /-- The escape character has been met, and characters that say what the final one is to mean. -/
  | designation
  /-- A control function with parameters, up to its final character. -/
  | control
  /-- A device command, before its parameters. -/
  | device
  /-- The parameters of a device command. -/
  | deviceParameters
  /-- What follows the parameters of a device command. -/
  | deviceDesignation
  /-- A text that is not for people, up to its terminator. -/
  | string
  /-- A command for the operating system, up to a bell. -/
  | systemCommand
  deriving DecidableEq, Repr

/-- Whether a character lies between two others. -/
def between (low high c : Char) : Bool :=
  low ≤ c ∧ c ≤ high

/-- Whether a character ends a string: its bytes include the one that is the terminator of strings. -/
def endsString (c : Char) : Bool :=
  (String.utf8EncodeChar c).contains 0x9c

/-- The stage after a character. -/
def Stage.next (s : Stage) (c : Char) : Stage :=
  if c = '\x1b' then .escape
  else if c = '\x18' ∨ c = '\x1a' then .outside
  else
    match s with
    | .outside => .outside
    | .escape =>
      if between ' ' '/' c then .designation
      else if c = '[' then .control
      else if c = ']' then .systemCommand
      else if c = 'P' then .device
      else if c = 'X' ∨ c = '^' ∨ c = '_' then .string
      else if between '0' '~' c then .outside
      else .escape
    | .designation => if between '0' '~' c then .outside else .designation
    | .control => if between '@' '~' c then .outside else .control
    | .device =>
      if between ' ' '/' c then .deviceDesignation
      else if between '0' '?' c then .deviceParameters
      else if between '@' '~' c then .string
      else .device
    | .deviceParameters =>
      if between ' ' '/' c then .deviceDesignation
      else if between '<' '~' c then .string
      else .deviceParameters
    | .deviceDesignation => if between '0' '~' c then .string else .deviceDesignation
    | .string => if endsString c then .outside else .string
    | .systemCommand => if c = '\x07' then .outside else .systemCommand

/-- Whether control characters inside a sequence stand for themselves. -/
def Stage.yields : Stage → Bool
  | .escape | .designation | .control => true
  | _ => false

/-- Whether a control character is one of those that lay out text. -/
def isLayout (c : Char) : Bool :=
  c = '\t' ∨ c = '\n' ∨ c = '\x0c' ∨ c = '\r'

/-- Whether a character by itself is shown. -/
def isShown (c : Char) : Bool :=
  isLayout c ∨ (' ' ≤ c ∧ c ≠ '\x7f')

/-- What is shown of a text that goes on in a stage of a sequence, which may have been interrupted. A character that is not
ASCII makes an interruption final. -/
def shown (interrupted : Bool) (s : Stage) : List Char → List Char
  | [] => []
  | c :: rest =>
    if interrupted ∨ s = .outside then
      if isShown c then
        if c ≤ '\x7f' then c :: shown interrupted s rest else c :: shown false .outside rest
      else shown false (s.next c) rest
    else if isLayout c ∧ s.yields then c :: shown true s rest
    else shown false (s.next c) rest

/-- The text without what a terminal would not show. -/
def strip (text : String) : String :=
  String.ofList (shown false .outside text.toList)

/-- Characters that are shown by themselves are shown in a row. -/
theorem shown_eq_self {text : List Char} (h : ∀ c ∈ text, isShown c) : shown false .outside text = text := by
  induction text with
  | nil => rfl
  | cons c rest ih =>
    have hc : isShown c = true := h c List.mem_cons_self
    have hr : shown false .outside rest = rest := ih fun d hd => h d (List.mem_cons_of_mem c hd)
    simp [shown, hc, hr]

/-- A text whose characters are shown by themselves is left as it is. -/
theorem strip_eq_self {text : String} (h : ∀ c ∈ text.toList, isShown c) : strip text = text := by
  rw [strip, shown_eq_self h, String.ofList_toList]

end TxnBench.ControlSequence
