import BedrockCommand.Rule.Step
/-!
Lists in brackets: elements with commas between them. An element that gives up does not end
the list; it goes on at the next comma that belongs to the list.
-/
namespace BedrockCommand

/-- The brackets around a list. -/
inductive Brackets where
  | square
  | curly
deriving DecidableEq, Repr

namespace Brackets

def opening : Brackets → Char
  | square => '['
  | curly => '{'

def closing : Brackets → Char
  | square => ']'
  | curly => '}'

theorem closing_ne_comma (b : Brackets) : b.closing ≠ ',' := by
  cases b <;> decide

end Brackets

namespace Step

/-- Past the closing bracket and the spaces after it. -/
def close (c : Cursor) : Step :=
  done c.advance.skipSpaces

/-- Whether the comma at a cursor has only spaces between it and the closing bracket. -/
def isTrailing (close : Char) (c : Cursor) : Bool :=
  c.advance.skipSpaces.isAt close

/-- What follows an element: the closing bracket, or a comma and the next element. Text before
that which does not belong there is an error, and the list goes on where it ends. -/
def afterElement (b : Brackets) (next : Cursor → Step) : Nat → Cursor → Step
  | 0, c => fail .endless c
  | fuel + 1, c =>
    if c.isAt b.closing then close c
    else if c.isAt ',' then
      if isTrailing b.closing c then
        (error .trailingComma c c.advance).andThen fun c => close c.skipSpaces
      else next c.advance
    else if !c.lineContinues then refuse (.unclosedBracket b.closing) c
    else
      (error (.expectedSeparator b.closing) c (c.toSeparator b.closing)).andThen
        (afterElement b next fuel)

/-- The elements of a list and its closing bracket, each element after the spaces before it.
Every element but the first takes a comma, so that the length of the line bounds their
number. -/
def elements (b : Brackets) (element : Cursor → Step) : Nat → Cursor → Step
  | 0, c => fail .endless c
  | fuel + 1, c =>
    let s := element c.skipSpaces
    if s.outcome = .halted ∧ s.cursor.lineContinues = false then s
    else
      s.settle.andThen fun c =>
        afterElement b (elements b element fuel) (c.line.length + 1) c

/-- A list in brackets. -/
def list (b : Brackets) (mayBeEmpty : Bool) (element : Cursor → Step) (c : Cursor) : Step :=
  if !c.isAt b.opening then refuse (.expectedChar b.opening) c
  else
    let c := c.advance.skipSpaces
    if c.isAt b.closing then
      if mayBeEmpty then close c else (complain .emptyList c).andThen close
    else elements b element (c.line.length + 1) c

end Step
end BedrockCommand
