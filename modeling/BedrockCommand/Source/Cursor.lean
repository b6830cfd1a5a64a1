import BedrockCommand.Source.Position
import BedrockCommand.Text.Blank
/-!
A place in a text together with the text still to be read from it.
-/
namespace BedrockCommand

/-- The characters that end a word, besides the end of the text. -/
def terminators : List Char :=
  " ,@~^/$&\"'!#%+*=[\x7b]\x7d\\|<>\x60\n".toList

/-- Whether a character ends a word. -/
def isTerminating (c : Char) : Bool :=
  terminators.contains c

def isNumberStart (c : Char) : Bool :=
  c = '-' || c = '+' || c.isDigit

/-- What is left of a text, and the position of its first character. -/
structure Cursor where
  rest : List Char
  position : Position
deriving DecidableEq, Repr, Inhabited

namespace Cursor

/-- A cursor on the first character of a text. -/
def ofText (text : String) (start : Position) : Cursor :=
  ⟨text.toList, start⟩

/-- What is shown in place of a character where the text has ended. A text may hold this
character too, and there it does not end anything. -/
def placeholder : Char := '\x04'

def atEnd (c : Cursor) : Bool :=
  c.rest.isEmpty

/-- The character some places ahead, if the text goes so far. -/
def charAt (c : Cursor) (k : Nat) : Option Char :=
  c.rest[k]?

/-- The character under the cursor, or the placeholder. -/
def current (c : Cursor) : Char :=
  (c.charAt 0).getD placeholder

/-- The character some places after the current one, or the placeholder. -/
def peek (c : Cursor) (k : Nat) : Char :=
  (c.charAt (k + 1)).getD placeholder

/-- Whether a given character is under the cursor. -/
def isAt (c : Cursor) (x : Char) : Bool :=
  match c.rest with
  | [] => false
  | y :: _ => y = x

/-- Past the next n characters, or as many as there are. -/
def skip (c : Cursor) (n : Nat) : Cursor :=
  ⟨c.rest.drop n, c.position.after (c.rest.take n)⟩

/-- Past one character. -/
def advance (c : Cursor) : Cursor :=
  c.skip 1

/-- The characters up to the first one that fails a test. -/
def ahead (c : Cursor) (p : Char → Bool) : List Char :=
  c.rest.takeWhile p

/-- Past the characters that pass a test. -/
def skipWhile (c : Cursor) (p : Char → Bool) : Cursor :=
  c.skip (c.ahead p).length

/-- Past a run of spaces. Tabs and line breaks are not spaces. -/
def skipSpaces (c : Cursor) : Cursor :=
  c.skipWhile (· = ' ')

/-- What is left of the line. -/
def line (c : Cursor) : List Char :=
  c.ahead (· ≠ '\n')

/-- Whether anything is left of the line. -/
def lineContinues (c : Cursor) : Bool :=
  match c.rest with
  | [] => false
  | x :: _ => x ≠ '\n'

/-- What is left of the line without its trailing blanks. -/
def lineText (c : Cursor) : String :=
  String.ofList (Text.trimEnd c.line)

/-- At the end of the line. -/
def toLineEnd (c : Cursor) : Cursor :=
  c.skip c.line.length

/-- Whether the text ends here or goes on with a character that ends a word. -/
def terminated (c : Cursor) : Bool :=
  match c.rest with
  | [] => true
  | x :: _ => isTerminating x

end Cursor
end BedrockCommand
