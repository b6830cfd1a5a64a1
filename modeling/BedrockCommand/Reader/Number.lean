import BedrockCommand.Number.Numeral
import BedrockCommand.Reader.Basic
/-!
Readers of integers, numbers, ranges, coordinates and rotations.
-/
namespace BedrockCommand.Reader

/-- Reads a sign or none; the value tells whether it is a minus. -/
def sign : Reader Bool := fun c =>
  match c.rest with
  | '-' :: _ => (.ok true, c.advance)
  | '+' :: _ => (.ok false, c.advance)
  | _ => (.ok false, c)

/-- Reads one or more digits. -/
def digits (missing : SyntaxError) : Reader (List Char) := do
  let ds ← takeWhile Char.isDigit
  if ds.isEmpty then fail missing else return ds

/-- Reads a sign or none and digits: an integer of 32 bits. -/
def rawInteger : Reader Int := do
  let negative ← sign
  let ds ← digits .expectedInteger
  let n := Numeral.signed negative ds
  if Numeral.fits n then return n else fail .integerOverflow

/-- Reads an integer and the spaces after it. -/
def integer : Reader Int := do
  let n ← rawInteger
  argumentEnd
  return n

/-- Reads digits, and a point with digits after it if there is one. -/
def unsigned (negative : Bool) : Reader Binary64 := do
  let whole ← digits .expectedNumber
  if ← look (·.isAt '.') then do
    move Cursor.advance
    let places ← digits .incompleteFraction
    return .ofDecimal negative (Numeral.value (whole ++ places)) (-places.length)
  else return .ofDecimal negative (Numeral.value whole) 0

/-- Reads a sign or none and a number. -/
def rawNumber : Reader Binary64 := do
  let negative ← sign
  unsigned negative

/-- Reads a number and the spaces after it. -/
def number : Reader Binary64 := do
  let x ← rawNumber
  argumentEnd
  return x

def startsNumber (c : Cursor) : Bool :=
  c.rest.head?.any isNumberStart

/-- Reads an integer if one starts here. -/
def bound? : Reader (Option Int) := do
  if ← look startsNumber then do
    let n ← rawInteger
    return some n
  else return none

/-- Reads the two points of a range and the integer after them, if there are points. Spaces
may stand before the points and before the integer. -/
def upperBound? : Reader (Option Int) := do
  if ← spacesBefore (· = '.') then do
    move Cursor.advance
    exactly '.'
    if ← spacesBefore isNumberStart then do
      let n ← rawInteger
      return some n
    else return none
  else return none

/-- Reads an integer or a range of integers with one end or both, negated or not. -/
def range : Reader Unit := do
  negation
  let low ← bound?
  let high ← upperBound?
  match low, high with
  | none, none => fail .expectedRange
  | some l, some h => if h < l then fail .impossibleRange else argumentEnd
  | _, _ => argumentEnd

/-- What a coordinate is measured from. -/
inductive Anchor where
  /-- The origin of the world. -/
  | world
  /-- The place where the command runs, marked by a tilde. -/
  | place
  /-- That place along the line of view, marked by a caret. -/
  | view
deriving DecidableEq, Repr, Inhabited

/-- Reads a number if one starts here. -/
def offset : Reader Unit := do
  if ← look startsNumber then do
    let _ ← rawNumber

/-- Reads a coordinate: a number, or a mark with a number after it or none. -/
def coordinate : Reader Anchor := do
  if ← look (·.isAt '~') then do
    move Cursor.advance
    offset
    argumentEnd
    return .place
  else if ← look (·.isAt '^') then do
    move Cursor.advance
    offset
    argumentEnd
    return .view
  else if ← look startsNumber then do
    let _ ← rawNumber
    argumentEnd
    return .world
  else fail .expectedPosition

/-- Reads an angle: a number, or a tilde with a number after it or none. After a tilde alone
nothing is read. -/
def angle : Reader Unit := do
  if ← look (·.isAt '~') then do
    move Cursor.advance
    if ← look startsNumber then do
      let _ ← number
  else do
    let _ ← number

/-- Reads an amount of experience: an integer, with the letter that makes it levels or
without. -/
def experience : Reader Int := do
  let n ← rawInteger
  if ← look fun c => c.isAt 'L' || c.isAt 'l' then
    move Cursor.advance
  argumentEnd
  return n

/-- Reads a number as JSON writes it, and the spaces after it: no plus sign, and nothing that
has to end it. -/
def jsonNumber : Reader Binary64 := do
  let negative ← fun c => match c.rest with
    | '-' :: _ => (.ok true, c.advance)
    | _ => (.ok false, c)
  let x ← unsigned negative
  spaces
  return x

end BedrockCommand.Reader
