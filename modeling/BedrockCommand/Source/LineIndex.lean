import BedrockCommand.Source.Position
/-!
The way back from positions to character offsets. A text is indexed by the offsets of the
first characters of its lines; its first line starts at a column that the caller chose, the
others at column 0.
-/
namespace BedrockCommand

/-- The lines of a text by the offsets at which they start. -/
structure LineIndex where
  first : Position
  /-- The offset of the start of each line, in ascending order. -/
  starts : List Nat
  /-- The number of characters. -/
  length : Nat
deriving DecidableEq, Repr

namespace LineIndex

/-- The offsets that follow the newlines of a text whose first character has offset n. -/
def startsAfter (n : Nat) : List Char → List Nat
  | [] => []
  | c :: cs => if c = '\n' then (n + 1) :: startsAfter (n + 1) cs else startsAfter (n + 1) cs

/-- The index of a text whose first character stands at a position. -/
def ofText (text : List Char) (first : Position) : LineIndex where
  first := first
  starts := 0 :: startsAfter 0 text
  length := text.length

/-- The column at which a line of the text starts. -/
def firstColumn (index : LineIndex) (row : Nat) : Nat :=
  if row = 0 then index.first.column else 0

/-- The offset of a position: none on a line that the text does not have or before the column
where the line starts, and the end of the text at most. -/
def offset? (index : LineIndex) (p : Position) : Option Nat :=
  if p.line < index.first.line then none
  else
    let row := p.line - index.first.line
    match index.starts[row]? with
    | none => none
    | some start =>
      if p.column < index.firstColumn row then none
      else some (min (start + (p.column - index.firstColumn row)) index.length)

/-- The position of an offset: on the last line that starts at or before it. -/
def position (index : LineIndex) (offset : Nat) : Position :=
  let row := index.starts.countP (· ≤ offset) - 1
  ⟨index.first.line + row, index.firstColumn row + (offset - index.starts.getD row 0)⟩

/-- The number of lines; a text without characters has one. -/
def lineCount (index : LineIndex) : Nat :=
  index.starts.length

end LineIndex
end BedrockCommand
