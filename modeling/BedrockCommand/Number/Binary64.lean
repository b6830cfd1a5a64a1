/-!
Binary floating-point numbers of 64 bits, as exact integers: rounding a quotient to the nearest
number, and the order of numbers.
-/
namespace BedrockCommand

/-- A 64-bit binary number. `finite s m e` is m · 2^e, negated when `s` holds. Numbers that
arise here keep m below 2^53 and e at least -1074, and m at least 2^52 unless e is -1074, so
that equal numbers are equal values; the two zeros differ. -/
inductive Binary64 where
  | finite (negative : Bool) (significand : Nat) (exponent : Int)
  | infinite (negative : Bool)
  | nan
deriving DecidableEq, Repr, Inhabited

namespace Binary64

/-- The least exponent of a finite number. -/
def minExponent : Int := -1074

/-- The greatest exponent of a finite number. -/
def maxExponent : Int := 971

/-- The nearest integer to a quotient; a half goes to the even neighbour. -/
def roundDiv (num den : Nat) : Nat :=
  let q := num / den
  let r := num % den
  if 2 * r < den then q
  else if den < 2 * r then q + 1
  else if q % 2 = 0 then q else q + 1

/-- The quotient `num / den` in units of 2^e, as a pair of integers. -/
def scaled (num den : Nat) (e : Int) : Nat × Nat :=
  if 0 ≤ e then (num, den * Nat.pow 2 e.toNat) else (num * Nat.pow 2 (-e).toNat, den)

/-- The exponent for a positive quotient: the one that leaves 53 bits before the point, or the
least there is. -/
def exponentFor (num den : Nat) : Int :=
  let guess : Int := (num.log2 : Int) - (den.log2 : Int) - 52
  let (n, d) := scaled num den guess
  let exact := if n / d < Nat.pow 2 52 then guess - 1 else guess
  max exact minExponent

/-- The number nearest to a quotient of natural numbers; beyond the greatest one, infinity. -/
def ofRatio (negative : Bool) (num den : Nat) : Binary64 :=
  if num = 0 ∨ den = 0 then .finite negative 0 minExponent
  else
    let e := exponentFor num den
    let (n, d) := scaled num den e
    let m := roundDiv n d
    let (m, e) := if m = Nat.pow 2 53 then (Nat.pow 2 52, e + 1) else (m, e)
    if maxExponent < e then .infinite negative else .finite negative m e

/-- The number nearest to an integer. -/
def ofInt (n : Int) : Binary64 :=
  ofRatio (n < 0) n.natAbs 1

/-- The number nearest to digits · 10^exponent. Magnitudes far outside the range of finite
numbers are settled by their size alone. -/
def ofDecimal (negative : Bool) (digits : Nat) (exponent : Int) : Binary64 :=
  let size : Int := (Nat.toDigits 10 digits).length + exponent
  if digits = 0 ∨ size < -400 then .finite negative 0 minExponent
  else if 400 < size then .infinite negative
  else if 0 ≤ exponent then ofRatio negative (digits * Nat.pow 10 exponent.toNat) 1
  else ofRatio negative digits (Nat.pow 10 (-exponent).toNat)

/-- The number nearest to a product. Zero times an infinity is no number. -/
def mul (x y : Binary64) : Binary64 :=
  match x, y with
  | .nan, _ | _, .nan => .nan
  | .infinite s, .infinite t => .infinite (s != t)
  | .infinite s, .finite t m _ | .finite t m _, .infinite s =>
    if m = 0 then .nan else .infinite (s != t)
  | .finite s m e, .finite t n f =>
    let (num, den) := scaled (m * n) 1 (-(e + f))
    ofRatio (s != t) num den

instance : Mul Binary64 := ⟨mul⟩

instance : OfNat Binary64 n := ⟨ofInt n⟩

/-- A finite number as a multiple of 2^-1074; none for the others. -/
def units? : Binary64 → Option Int
  | .finite s m e =>
    let magnitude := m * Nat.pow 2 (e - minExponent).toNat
    some (if s then -(magnitude : Int) else magnitude)
  | _ => none

/-- Strictly smaller. The number that is none compares with nothing, and zeros are equal. -/
def lt (x y : Binary64) : Bool :=
  match x, y with
  | .nan, _ | _, .nan => false
  | .infinite s, .infinite t => s && !t
  | .infinite s, .finite .. => s
  | .finite .., .infinite t => !t
  | .finite .., .finite .. => x.units?.getD 0 < y.units?.getD 0

/-- Smaller or equal. -/
def le (x y : Binary64) : Bool :=
  match x, y with
  | .nan, _ | _, .nan => false
  | _, _ => !lt y x

end Binary64
end BedrockCommand
