import BedrockCommand.Command
import BedrockCommand.Diagnostic.Record
/-!
Command files: every line is a comment or a command.
-/
namespace BedrockCommand

/-- The tokens and the warnings of a command file, and what was noted on the way. -/
structure Tokenized where
  tokens : List Token
  warnings : List Warning
  notices : List Notice
deriving DecidableEq, Repr, Inhabited

namespace Tokenized

def errors (t : Tokenized) : List (Token × SyntaxError) :=
  t.tokens.filterMap fun token => token.error?.map fun e => (token, e)

def hasErrors (t : Tokenized) : Bool :=
  t.tokens.any Token.isError

/-- Whether one diagnostic may stand before another: those without a span come first, the
others by where they start. -/
def standsBefore (d e : Diagnostic) : Bool :=
  match d.span, e.span with
  | none, _ => true
  | some _, none => false
  | some s, some t => decide (s.start ≤ t.start)

/-- Errors and warnings in the order of their places; at one place, errors come first. -/
def diagnostics (t : Tokenized) : List Diagnostic :=
  (t.errors.map (fun p => Diagnostic.ofError p.2 p.1.span) ++
    t.warnings.map Diagnostic.ofWarning).mergeSort standsBefore

/-- The tokens, warnings and notices among some events. -/
def ofEvents (events : List Event) : Tokenized where
  tokens := events.filterMap fun | .token t => some t | _ => none
  warnings := events.filterMap fun | .warning w => some w | _ => none
  notices := events.filterMap fun | .notice n => some n | _ => none

end Tokenized

/-- The lines of a text, without their line breaks. A text without line breaks is one line. -/
def splitLines : List Char → List (List Char)
  | [] => [[]]
  | c :: cs =>
    if c = '\n' then [] :: splitLines cs
    else match splitLines cs with
      | [] => [[c]]
      | line :: lines => (c :: line) :: lines

/-- Reads a comment: the rest of the line, whatever it is. -/
def readComment (c : Cursor) : Step :=
  Step.token (some .comment) .none none c c.toLineEnd

/-- One round of reading a text: the spaces in front of a line, and after them a comment, a
command or the end of the line. -/
def readLine (version : Version) (c : Cursor) : Step :=
  let c := c.skipSpaces
  if c.atEnd then .done c
  else if c.isAt '#' then readComment c
  else if c.isAt '\n' then .done c.advance
  else Command.read version maxNesting c

/-- Reads to the end of a text. Every round reads something, so that the length of the text
bounds their number. -/
def readLines (version : Version) : Nat → Cursor → Step
  | 0, c => .fail .endless c
  | fuel + 1, c =>
    if c.atEnd then .done c else (readLine version c).andThen (readLines version fuel)

/-- Reads a text that starts at a position, by the grammar of a version. -/
def readText (text : String) (start : Position) (version : Version) : Step :=
  readLines version (text.length + 1) (.ofText text start)

/-- Tokenizes a text that starts at a position, by the grammar of a version. -/
def tokenize (text : String) (start : Position) (version : Version) : Except Fault Tokenized :=
  let s := readText text start version
  match s.outcome with
  | .failed f => .error f
  | _ => .ok (.ofEvents s.events)

end BedrockCommand
