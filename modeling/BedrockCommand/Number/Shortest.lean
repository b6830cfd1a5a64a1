import BedrockCommand.Number.Binary64
/-!
The fewest decimal digits that read back as a given binary number.

The decimals of a given precision form a grid. On each grid only the two neighbours of the
value can be the nearest decimal that rounds back to it, so the grids are tried from the
coarsest one up.
-/
namespace BedrockCommand

/-- The decimal number digits · 10^exponent. -/
structure Decimal where
  digits : Nat
  exponent : Int
deriving DecidableEq, Repr, Inhabited

/-- Which of two decimals that are equally near to a number stands for it. -/
inductive Tie where
  /-- The one whose last digit is even. -/
  | toEven
  /-- The one farther from zero. -/
  | awayFromZero
deriving DecidableEq, Repr, Inhabited

/-- Whether the lower of two neighbours that are equally near is taken. -/
def Tie.takesLower : Tie → Nat → Bool
  | toEven, lower => lower % 2 = 0
  | awayFromZero, _ => false

namespace Decimal

/-- How many digits a natural number is written with. -/
def width (n : Nat) : Nat :=
  (Nat.toDigits 10 n).length

/-- The place of the first digit of a positive quotient: the greatest d with
10^d at most the quotient. -/
def leadingPlace (num den : Nat) : Int :=
  if den ≤ num then (width (num / den) : Int) - 1
  else
    let shift := width den - width num
    if den ≤ num * Nat.pow 10 shift then -(shift : Int) else -(shift : Int) - 1

/-- The reals that round to m · 2^e, in quarters of 2^e: their ends, and whether the ends
belong to them. -/
structure Rounding where
  low : Nat
  value : Nat
  high : Nat
  closed : Bool

/-- The reals that round to a finite number. Below a power of two the numbers lie twice as
close, and the ends round to the number whose significand is even. -/
def roundingOf (significand : Nat) (exponent : Int) : Rounding where
  low :=
    let gap := if significand = Nat.pow 2 52 ∧ Binary64.minExponent < exponent then 1 else 2
    4 * significand - gap
  value := 4 * significand
  high := 4 * significand + 2
  closed := significand % 2 = 0

/-- Whether a grid point, in units of 1/q where a quarter is p/q, rounds to the value. -/
def Rounding.holds (r : Rounding) (p q candidate : Nat) : Bool :=
  if r.closed then r.low * p ≤ candidate * q && candidate * q ≤ r.high * p
  else r.low * p < candidate * q && candidate * q < r.high * p

/-- The better of the value's two neighbours on a grid, if one of them rounds to the value:
the nearer one. -/
def Rounding.onGrid? (r : Rounding) (tie : Tie) (p q : Nat) : Option Nat :=
  let below := r.value * p / q
  let above := below + 1
  match r.holds p q below, r.holds p q above with
  | false, false => none
  | true, false => some below
  | false, true => some above
  | true, true =>
    let down := r.value * p - below * q
    let up := above * q - r.value * p
    if down < up then some below
    else if up < down then some above
    else if tie.takesLower below then some below else some above

/-- Without trailing zeros. -/
def stripped : Nat → Nat → Int → Decimal
  | 0, n, e => ⟨n, e⟩
  | fuel + 1, n, e => if n ≠ 0 ∧ n % 10 = 0 then stripped fuel (n / 10) (e + 1) else ⟨n, e⟩

/-- The shortest decimal that reads back as significand · 2^exponent; of the shortest ones,
the nearest. Seventeen digits always suffice. -/
def shortest (tie : Tie) (significand : Nat) (exponent : Int) : Decimal :=
  if significand = 0 then ⟨0, 0⟩
  else
    let r := roundingOf significand exponent
    let (pn, pd) := Binary64.scaled 1 1 (2 - exponent)
    let place := leadingPlace (r.value * pn) pd
    let grid (count : Nat) : Option Decimal :=
      let k : Int := place - count
      let (p, q) :=
        if 0 ≤ k then (pn, pd * Nat.pow 10 k.toNat) else (pn * Nat.pow 10 (-k).toNat, pd)
      (r.onGrid? tie p q).map fun n => stripped (width n) n k
    ((List.range 17).findSome? grid).getD ⟨significand, 0⟩

end Decimal
end BedrockCommand
