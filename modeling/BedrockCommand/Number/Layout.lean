import BedrockCommand.Number.Shortest
/-!
The text of a number: its shortest digits, laid out in one of two ways.
-/
namespace BedrockCommand

/-- How a number is laid out as text. -/
structure NumberLayout where
  /-- Which of two equally near decimals stands for a number. -/
  tie : Tie
  /-- The places of the first digit for which the number is written without an exponent;
  none when no number has an exponent. -/
  positional : Option (Int × Int)
  /-- Whether a whole number written without an exponent ends in `.0`. -/
  keepsPoint : Bool
  /-- The text of an infinity, which stands after the sign. -/
  infinity : Option String
  /-- The text of the number that is none. -/
  notANumber : String

namespace NumberLayout

/-- Messages write numbers without an exponent and whole numbers without a point; of two
equally near decimals they show the greater in size. -/
def plain : NumberLayout where
  tie := .awayFromZero
  positional := none
  keepsPoint := false
  infinity := some "inf"
  notANumber := "NaN"

/-- JSON writes a point or an exponent in every number, and has no infinities; of two equally
near decimals it shows the even one. -/
def json : NumberLayout where
  tie := .toEven
  positional := some (-5, 15)
  keepsPoint := true
  infinity := none
  notANumber := "null"

def zeros (n : Nat) : List Char :=
  List.replicate n '0'

/-- Digits with the decimal point where the exponent puts it. -/
def pointed (digits : List Char) (exponent : Int) (keepsPoint : Bool) : List Char :=
  if 0 ≤ exponent then
    digits ++ zeros exponent.toNat ++ (if keepsPoint then ['.', '0'] else [])
  else
    let places := (-exponent).toNat
    if places < digits.length then
      digits.take (digits.length - places) ++ ['.'] ++ digits.drop (digits.length - places)
    else
      ['0', '.'] ++ zeros (places - digits.length) ++ digits

/-- Digits with the point after the first one, and the exponent with its sign. -/
def scientific (digits : List Char) (place : Int) : List Char :=
  digits.take 1 ++ (if 1 < digits.length then '.' :: digits.drop 1 else []) ++
    ['e', if place < 0 then '-' else '+'] ++ Nat.toDigits 10 place.natAbs

/-- The digits of a decimal, with a point or with an exponent. -/
def magnitude (l : NumberLayout) (d : Decimal) : List Char :=
  let digits := Nat.toDigits 10 d.digits
  let place := (digits.length : Int) + d.exponent - 1
  match l.positional with
  | some (lo, hi) =>
    if lo ≤ place ∧ place ≤ hi then pointed digits d.exponent l.keepsPoint
    else scientific digits place
  | none => pointed digits d.exponent l.keepsPoint

/-- The text of a number. The zero with a sign keeps it. -/
def text (l : NumberLayout) (x : Binary64) : String :=
  match x with
  | .nan => l.notANumber
  | .infinite s =>
    match l.infinity with
    | some t => if s then "-" ++ t else t
    | none => l.notANumber
  | .finite s m e =>
    let body := String.ofList (l.magnitude (Decimal.shortest l.tie m e))
    if s then "-" ++ body else body

end NumberLayout

instance : ToString Binary64 := ⟨NumberLayout.plain.text⟩

end BedrockCommand
