import BedrockCommand.Json.Reader.Basic
import BedrockCommand.Number.Numeral
/-!
Reading the values of JSON that hold no others. A value that nobody asks for is read loosely:
its surrogates need not come in pairs, its number may be of any size, and a number that is cut
off is not JSON rather than a text that ends too early.
-/
namespace BedrockCommand.JsonReader

/-- How closely a value is looked at. -/
inductive Care where
  | strict
  | loose
deriving DecidableEq, Repr

def hexDigit? (c : Char) : Option Nat :=
  if c.isDigit then some (c.toNat - '0'.toNat)
  else if 'a' ≤ c ∧ c ≤ 'f' then some (c.toNat - 'a'.toNat + 10)
  else if 'A' ≤ c ∧ c ≤ 'F' then some (c.toNat - 'A'.toNat + 10)
  else none

/-- Four hexadecimal digits. A text with fewer than four bytes left ends too early, whatever
they are. -/
def hexUnit : JsonReader Nat := fun cs =>
  if (cs.take 4).foldl (fun size c => size + c.utf8Size) 0 < 4 then .error .ended
  else match (cs.take 4).mapM hexDigit? with
    | some [a, b, c, d] => .ok (((a * 16 + b) * 16 + c) * 16 + d, cs.drop 4)
    | _ => .error .malformed

/-- The character of a sixteen-bit unit, together with the unit after it where the two are a
pair of surrogates. -/
def paired (high : Nat) : JsonReader Char := do
  if high < 0xd800 ∨ 0xdfff < high then return Char.ofNat high
  if 0xdc00 ≤ high then throw .malformed
  letters ['\\', 'u']
  let low ← hexUnit
  if low < 0xdc00 ∨ 0xdfff < low then throw .malformed
  return Char.ofNat (0x10000 + (high - 0xd800) * 0x400 + (low - 0xdc00))

/-- The character of an escape, after its backslash. -/
def escape (care : Care) : JsonReader Char := do
  match ← next with
  | '"' => return '"'
  | '\\' => return '\\'
  | '/' => return '/'
  | 'b' => return '\x08'
  | 'f' => return '\x0c'
  | 'n' => return '\n'
  | 'r' => return '\r'
  | 't' => return '\t'
  | 'u' =>
    let unit ← hexUnit
    match care with
    | .strict => paired unit
    | .loose => return Char.ofNat unit
  | _ => throw .malformed

/-- One character of a string, or its end; the state is what was read, the last character
first. -/
def stringRound (care : Care) (read : List Char) : JsonReader (List Char ⊕ String) := do
  match ← next with
  | '"' => return .inr (String.ofList read.reverse)
  | '\\' => return .inl ((← escape care) :: read)
  | c => if c.toNat < 0x20 then throw .malformed else return .inl (c :: read)

/-- A string with its quotes. -/
def string (care : Care) : JsonReader String := do
  symbol '"'
  loop (stringRound care) []

/-- A number by its parts. -/
structure NumberText where
  negative : Bool
  /-- The digits before the point. -/
  whole : List Char
  /-- The digits after the point. -/
  places : List Char
  exponent : Option Int

namespace NumberText

/-- A number followed by digits: as many of them as leave it below 2^64, and how many these
are. -/
def appended (value : Nat) : List Char → Nat × Nat
  | [] => (value, 0)
  | c :: cs =>
    let longer := value * 10 + Numeral.value [c]
    if longer < Nat.pow 2 64 then
      let (last, count) := appended longer cs
      (last, count + 1)
    else (value, 0)

/-- The number without its sign, as an integer of at most 64 bits times a power of ten. Digits
that do not fit are dropped, on either side of the point. -/
def leading (n : NumberText) : Nat × Int :=
  let (whole, wholeCount) := appended 0 n.whole
  let (digits, placeCount) := appended whole n.places
  (digits, (n.whole.length : Int) - wholeCount - placeCount + n.exponent.getD 0)

/-- The number without its sign, rounded three times: its leading digits, their power of ten,
and the product of the two. -/
def size (n : NumberText) : Binary64 :=
  let (digits, exponent) := n.leading
  .ofInt digits * .ofDecimal false 1 exponent

/-- Whether a number is too large. -/
def isHuge (n : NumberText) : Bool :=
  n.size = .infinite false

/-- The natural number of at most 64 bits that is written without a sign, a point and an
exponent. -/
def natural? (n : NumberText) : Option Nat :=
  if n.negative ∨ !n.places.isEmpty ∨ n.exponent.isSome then none
  else Numeral.natural? (Nat.pow 2 64) n.whole

end NumberText

/-- One or more digits, and the fault when the text ends before the first one. -/
def digits (atEnd : JsonFault) : JsonReader (List Char) := fun cs =>
  match cs with
  | [] => .error atEnd
  | c :: _ =>
    if c.isDigit then .ok (cs.takeWhile Char.isDigit, cs.dropWhile Char.isDigit)
    else .error .malformed

def exponent (atEnd : JsonFault) : JsonReader (Option Int) := do
  if (← accept fun c => c = 'e' || c = 'E').isNone then return none
  let sign ← accept fun c => c = '+' || c = '-'
  return some (Numeral.signed (sign = some '-') (← digits atEnd))

/-- The parts of a number. A zero at the front stands alone before the point. -/
def numberText (atEnd : JsonFault) : JsonReader NumberText := do
  let sign ← accept (· = '-')
  let whole ← digits atEnd
  if whole.head? = some '0' ∧ whole.length ≠ 1 then throw .malformed
  let places ← if (← accept (· = '.')).isSome then digits atEnd else pure []
  return { negative := sign.isSome, whole, places, exponent := ← exponent atEnd }

def number (care : Care) : JsonReader NumberText := do
  match care with
  | .loose => numberText .malformed
  | .strict =>
    let n ← numberText .ended
    if n.isHuge then throw .malformed else return n

/-- Whether a character is the first one of a number. -/
def startsNumber (c : Char) : Bool :=
  c = '-' || c.isDigit

/-- Passes over a value that holds no others. -/
def scalar (care : Care) : JsonReader Unit := do
  match ← ahead with
  | 'n' => letters "null".toList
  | 't' => letters "true".toList
  | 'f' => letters "false".toList
  | '"' => discard (string care)
  | c => if startsNumber c then discard (number care) else throw .malformed

end BedrockCommand.JsonReader
