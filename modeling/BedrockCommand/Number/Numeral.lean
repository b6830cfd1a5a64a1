import BedrockCommand.Number.Binary64
/-!
Numbers written in decimal: natural numbers and integers of a bounded size, and everything
that reads as a number with a fraction or exponent.
-/
namespace BedrockCommand.Numeral

/-- The value of decimal digits, read from the left. -/
def value (digits : List Char) : Nat :=
  digits.foldl (fun n c => 10 * n + (c.toNat - '0'.toNat)) 0

/-- Whether a text is one or more digits. -/
def isDigits (cs : List Char) : Bool :=
  !cs.isEmpty && cs.all Char.isDigit

/-- The natural number below a limit that a text denotes: digits, after a plus sign or none. -/
def natural? (limit : Nat) (cs : List Char) : Option Nat :=
  let digits := match cs with
    | '+' :: ds => ds
    | ds => ds
  if isDigits digits ∧ value digits < limit then some (value digits) else none

/-- A leading sign, as whether the number is negative, and the text after it. -/
def splitSign : List Char → Bool × List Char
  | '-' :: cs => (true, cs)
  | '+' :: cs => (false, cs)
  | cs => (false, cs)

/-- The integer that a sign and digits denote. -/
def signed (negative : Bool) (digits : List Char) : Int :=
  if negative then -(value digits : Int) else value digits

/-- The least integer of 32 bits. -/
def minInt : Int := -2147483648

/-- The greatest integer of 32 bits. -/
def maxInt : Int := 2147483647

/-- Whether an integer has 32 bits. -/
def fits (n : Int) : Bool :=
  minInt ≤ n && n ≤ maxInt

/-- The exponent that ends a number: none, or the letter e, a sign or none, and digits. -/
def exponent? : List Char → Option Int
  | [] => some 0
  | c :: cs =>
    if c = 'e' ∨ c = 'E' then
      let (negative, digits) := splitSign cs
      if isDigits digits then some (signed negative digits) else none
    else none

/-- The number that an unsigned text denotes: digits around a point or without one, at least
one of them, and an exponent or none. -/
def decimal? (negative : Bool) (cs : List Char) : Option Binary64 :=
  let whole := cs.takeWhile Char.isDigit
  let rest := cs.dropWhile Char.isDigit
  let (places, rest) := match rest with
    | '.' :: r => (r.takeWhile Char.isDigit, r.dropWhile Char.isDigit)
    | r => ([], r)
  if whole.isEmpty ∧ places.isEmpty then none
  else (exponent? rest).map fun e =>
    .ofDecimal negative (value (whole ++ places)) (e - places.length)

/-- The number that a text denotes: a sign or none, then digits with a point and an exponent,
or `inf`, `infinity` or `nan` in letters of any case. -/
def number? (cs : List Char) : Option Binary64 :=
  let (negative, body) := splitSign cs
  let name := body.map Char.toLower
  if name = "inf".toList ∨ name = "infinity".toList then some (.infinite negative)
  else if name = "nan".toList then some .nan
  else decimal? negative body

/-- Whether a word reads as a number. -/
def isNumeric (cs : List Char) : Bool :=
  (number? cs).isSome

end BedrockCommand.Numeral
