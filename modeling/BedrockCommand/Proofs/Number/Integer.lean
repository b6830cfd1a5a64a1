import BedrockCommand.Number.Numeral
import BedrockCommand.Proofs.Number.Rounding
import Mathlib.Data.Nat.Digits.Defs
/-!
Integers in decimal and as 64-bit numbers. A sign and digits denote an integer of any size, and an
integer of at most 53 bits, so also one of 32 bits, is a 64-bit number exactly.
-/
namespace BedrockCommand

namespace Numeral

/-- The integer that a sign, if there is one, and digits denote: each digit counts as often as ten
to the number of digits behind it. -/
def denoted (sign digits : List Char) : Int :=
  (if sign = ['-'] then -1 else 1) *
    (Nat.ofDigits 10 (digits.reverse.map fun x => x.toNat - '0'.toNat) : Nat)

theorem value_eq_ofDigits (digits : List Char) :
    value digits = Nat.ofDigits 10 (digits.reverse.map fun x => x.toNat - '0'.toNat) := by
  rw [value, Nat.ofDigits_eq_foldr, List.foldr_map, List.foldl_eq_foldr_reverse]
  simp only [Nat.add_comm, Nat.cast_id]

theorem signed_eq_denoted (sign digits : List Char) :
    signed (sign = ['-']) digits = denoted sign digits := by
  rw [signed, denoted, ← value_eq_ofDigits]
  by_cases h : sign = ['-'] <;> simp [h]

theorem fits_iff {n : Int} : fits n = true ↔ -2 ^ 31 ≤ n ∧ n ≤ 2 ^ 31 - 1 := by
  rw [fits, Bool.and_eq_true, decide_eq_true_eq, decide_eq_true_eq]
  rfl

end Numeral

namespace Binary64

/-- A natural number of at most 53 bits is moved up until it has 53 of them. -/
theorem ofRatio_one (negative : Bool) {k : Nat} (hk : k ≠ 0) (h : k < 2 ^ 53) :
    ofRatio negative k 1 = .finite negative (k * 2 ^ (52 - k.log2)) ((k.log2 : Int) - 52) := by
  have hl : k.log2 ≤ 52 := Nat.lt_succ_iff.mp ((Nat.log2_lt hk).mpr h)
  have hlow : 2 ^ 52 ≤ k * 2 ^ (52 - k.log2) := by
    calc 2 ^ 52 = 2 ^ k.log2 * 2 ^ (52 - k.log2) := by rw [← Nat.pow_add]; congr 1; omega
      _ ≤ k * 2 ^ (52 - k.log2) := Nat.mul_le_mul_right _ (Nat.log2_self_le hk)
  have hhigh : k * 2 ^ (52 - k.log2) < 2 ^ 53 := by
    calc k * 2 ^ (52 - k.log2) < 2 ^ (k.log2 + 1) * 2 ^ (52 - k.log2) :=
          Nat.mul_lt_mul_of_pos_right Nat.lt_log2_self (Nat.two_pow_pos _)
      _ = 2 ^ 53 := by rw [← Nat.pow_add]; congr 1; omega
  have hcanonical : Canonical (k * 2 ^ (52 - k.log2)) ((k.log2 : Int) - 52) :=
    ⟨hhigh, by simp only [minExponent]; omega, .inl hlow⟩
  have hvalue : magnitude (k * 2 ^ (52 - k.log2)) ((k.log2 : Int) - 52) = (k : ℚ) / (1 : Nat) := by
    have hmoved := magnitude_eq_of_le (n := k) (show (k.log2 : Int) - 52 ≤ 0 by omega)
    rw [show (0 - ((k.log2 : Int) - 52)).toNat = 52 - k.log2 by omega] at hmoved
    rw [← hmoved]
    simp [magnitude]
  exact (ofRatio_roundsTo negative k one_ne_zero).unique
    (.finite (hvalue ▸ hcanonical.isNearest) (by simp only [maxExponent]; omega))

/-- An integer of at most 53 bits is one of the numbers; nothing is rounded. -/
theorem units?_ofInt {n : Int} (h : n.natAbs < 2 ^ 53) :
    (ofInt n).units? = some (n * 2 ^ 1074) := by
  by_cases hn : n = 0
  · rw [hn, Int.zero_mul]
    rfl
  have hk : n.natAbs ≠ 0 := by omega
  have hl : n.natAbs.log2 ≤ 52 := Nat.lt_succ_iff.mp ((Nat.log2_lt hk).mpr h)
  have hmagnitude : n.natAbs * 2 ^ (52 - n.natAbs.log2) *
      2 ^ ((n.natAbs.log2 : Int) - 52 - minExponent).toNat = n.natAbs * 2 ^ 1074 := by
    rw [Nat.mul_assoc, ← Nat.pow_add]
    congr 2
    simp only [minExponent]
    omega
  rw [ofInt, ofRatio_one _ hk h]
  simp only [units?, Nat.pow_eq, hmagnitude, decide_eq_true_eq, Nat.cast_mul, Nat.cast_pow,
    Nat.cast_ofNat]
  split
  · next hneg => rw [← Int.neg_mul, Int.ofNat_natAbs_of_nonpos (Int.le_of_lt hneg), Int.neg_neg]
  · next hneg => rw [Int.natAbs_of_nonneg (Int.not_lt.mp hneg)]

end Binary64
end BedrockCommand
