import BedrockCommand.Number.Binary64
import Mathlib.Algebra.Order.Field.Basic
import Mathlib.Algebra.Order.Field.Power
import Mathlib.Data.Rat.Cast.Order
import Mathlib.Tactic.Linarith
import Mathlib.Tactic.NormNum
import Mathlib.Tactic.Positivity
/-!
Rounding to 64-bit numbers. A rational becomes the nearest of all numbers, those with greater
exponents than a number can have among them, and of two that are as near the one with the even
significand; where the exponent is too great, it becomes an infinity. This determines what comes of
it, and every quotient and every decimal is rounded in this way.
-/
namespace BedrockCommand.Binary64

variable {num den k m n : Nat} {e f : Int} {x : ℚ} {negative : Bool} {y z : Binary64}

/-- The value of a significand and an exponent. -/
def magnitude (m : Nat) (e : Int) : ℚ :=
  m * 2 ^ e

/-- Whether a significand and an exponent are those of a number, but for a bound on the exponent
from above: at most 53 bits, and no fewer unless the exponent is the least. -/
structure Canonical (m : Nat) (e : Int) : Prop where
  lt : m < 2 ^ 53
  least : minExponent ≤ e
  full : 2 ^ 52 ≤ m ∨ e = minExponent

/-- Whether a rational has no nearer number than one, and none as near if its significand is odd. -/
structure IsNearest (x : ℚ) (m : Nat) (e : Int) : Prop where
  canonical : Canonical m e
  le : ∀ {n f}, Canonical n f → |x - magnitude m e| ≤ |x - magnitude n f|
  even : ∀ {n f}, Canonical n f → magnitude n f ≠ magnitude m e →
    |x - magnitude m e| = |x - magnitude n f| → m % 2 = 0

/-- What a rational without a sign becomes when it has one. -/
inductive RoundsTo (negative : Bool) (x : ℚ) : Binary64 → Prop where
  | finite {m : Nat} {e : Int} (h : IsNearest x m e) (he : e ≤ maxExponent) :
    RoundsTo negative x (.finite negative m e)
  | infinite {m : Nat} {e : Int} (h : IsNearest x m e) (he : maxExponent < e) :
    RoundsTo negative x (.infinite negative)

theorem zpow_eq_of_nonneg (b : ℚ) (h : 0 ≤ e) : b ^ e = b ^ e.toNat := by
  rw [← zpow_natCast, Int.toNat_of_nonneg h]

theorem zpow_eq_of_neg (b : ℚ) (h : ¬ 0 ≤ e) : b ^ e = (b ^ (-e).toNat)⁻¹ := by
  rw [← zpow_natCast, Int.toNat_of_nonneg (by omega), zpow_neg, inv_inv]

/-! ## Numbers of one exponent -/

theorem magnitude_le_iff : magnitude m e ≤ magnitude n e ↔ m ≤ n := by
  rw [magnitude, magnitude, mul_le_mul_iff_left₀ (zpow_pos two_pos e), Nat.cast_le]

/-- A number is a multiple of each power of two that its own is a multiple of. -/
theorem magnitude_eq_of_le (h : e ≤ f) : magnitude n f = magnitude (n * 2 ^ (f - e).toNat) e := by
  have hpow : (2 : ℚ) ^ f = 2 ^ (f - e).toNat * 2 ^ e := by
    rw [← zpow_eq_of_nonneg 2 (show 0 ≤ f - e by omega), ← zpow_add₀ two_ne_zero, sub_add_cancel]
  rw [magnitude, magnitude, hpow, Nat.cast_mul, mul_assoc]
  norm_cast

theorem magnitude_full (e : Int) : magnitude (2 ^ 52) e = 2 ^ (e + 52) := by
  rw [magnitude, zpow_add₀ two_ne_zero, mul_comm]
  norm_cast

/-- Numbers of a smaller exponent come before all full ones. -/
theorem magnitude_lt_full (hm : m < 2 ^ 53) (h : e < f) : magnitude m e < magnitude (2 ^ 52) f := by
  calc magnitude m e < 2 ^ 53 * 2 ^ e :=
        mul_lt_mul_of_pos_right (by exact_mod_cast hm) (zpow_pos two_pos e)
    _ = 2 ^ (e + 53) := by rw [zpow_add₀ two_ne_zero, mul_comm]; norm_cast
    _ ≤ 2 ^ (f + 52) := zpow_le_zpow_right₀ one_le_two (by omega)
    _ = magnitude (2 ^ 52) f := (magnitude_full f).symm

/-- Of two numbers, the one with the greater exponent is greater. -/
theorem Canonical.magnitude_lt (hm : Canonical m e) (hn : Canonical n f) (h : e < f) :
    magnitude m e < magnitude n f := by
  have hfull : 2 ^ 52 ≤ n := hn.full.resolve_right (by have := hm.least; omega)
  exact (magnitude_lt_full hm.lt h).trans_le (magnitude_le_iff.mpr hfull)

theorem canonical_full (he : minExponent ≤ e) : Canonical (2 ^ 52) e :=
  ⟨by decide, he, .inl le_rfl⟩

/-! ## The nearest number -/

/-- A number is nearest to itself. -/
theorem Canonical.isNearest (h : Canonical m e) : IsNearest (magnitude m e) m e where
  canonical := h
  le _ := by simp
  even _ hne heq := by
    rw [sub_self, abs_zero, eq_comm, abs_eq_zero, sub_eq_zero] at heq
    exact absurd heq.symm hne

/-- There is a number between two numbers with even significands. -/
theorem Canonical.exists_between (hm : Canonical m e) (hn : Canonical n f) (hme : m % 2 = 0)
    (hne : n % 2 = 0) (h : magnitude m e < magnitude n f) :
    Canonical (m + 1) e ∧ magnitude m e < magnitude (m + 1) e ∧
      magnitude (m + 1) e < magnitude n f := by
  have hlt := hm.lt
  refine ⟨⟨by omega, hm.least, hm.full.imp_left fun h => by omega⟩, ?_, ?_⟩
  · rw [← not_le, magnitude_le_iff]
    omega
  · have hef : e ≤ f := by
      by_contra hfe
      exact lt_asymm h (hn.magnitude_lt hm (not_le.mp hfe))
    rw [magnitude_eq_of_le hef, ← not_le, magnitude_le_iff] at h ⊢
    have heven : n * 2 ^ (f - e).toNat % 2 = 0 := by simp [Nat.mul_mod, hne]
    omega

theorem IsNearest.not_magnitude_lt (h : IsNearest x m e) (h' : IsNearest x n f) :
    ¬ magnitude m e < magnitude n f := by
  intro hlt
  have heq := le_antisymm (h.le h'.canonical) (h'.le h.canonical)
  obtain ⟨hc, hleft, hright⟩ := h.canonical.exists_between h'.canonical
    (h.even h'.canonical hlt.ne' heq) (h'.even h.canonical hlt.ne heq.symm) hlt
  -- The rational lies half way between the two, so that whatever is between them is nearer.
  have hle := h.le hc
  have hle' := h'.le hc
  rcases abs_cases (x - magnitude (m + 1) e) with ⟨ha, -⟩ | ⟨ha, -⟩ <;>
    rw [ha] at hle hle'
  · have := le_abs_self (x - magnitude m e)
    linarith
  · have := neg_abs_le (x - magnitude n f)
    linarith

/-- The nearest number is unique. -/
theorem IsNearest.unique (h : IsNearest x m e) (h' : IsNearest x n f) : m = n ∧ e = f := by
  have heq : magnitude m e = magnitude n f :=
    le_antisymm (not_lt.mp (h'.not_magnitude_lt h)) (not_lt.mp (h.not_magnitude_lt h'))
  have hexp {m n : Nat} {e f : Int} (hm : Canonical m e) (hn : Canonical n f)
      (heq : magnitude m e = magnitude n f) : f ≤ e := by
    by_contra hlt
    exact (hm.magnitude_lt hn (not_le.mp hlt)).ne heq
  obtain rfl := le_antisymm (hexp h'.canonical h.canonical heq.symm)
    (hexp h.canonical h'.canonical heq)
  exact ⟨le_antisymm (magnitude_le_iff.mp heq.le) (magnitude_le_iff.mp heq.ge), rfl⟩

/-- A rational becomes one thing only. -/
theorem RoundsTo.unique (h : RoundsTo negative x y) (h' : RoundsTo negative x z) : y = z := by
  cases h with
  | finite h he =>
    cases h' with
    | finite h' he' =>
      obtain ⟨rfl, rfl⟩ := h.unique h'
      rfl
    | infinite h' he' => exact absurd he (not_le.mpr ((h.unique h').2 ▸ he'))
  | infinite h he =>
    cases h' with
    | finite h' he' => exact absurd he' (not_le.mpr ((h.unique h').2 ▸ he))
    | infinite => rfl

/-! ## Rounding to integers -/

/-- Whether an integer is as near to a rational as any, and even if there is another. -/
structure IsNearestInt (x : ℚ) (m : Nat) : Prop where
  le : |x - m| ≤ 1 / 2
  even : |x - m| = 1 / 2 → m % 2 = 0

theorem isNearestInt_roundDiv (num : Nat) (hd : 0 < den) :
    IsNearestInt (num / den) (roundDiv num den) := by
  have hden : (0 : ℚ) < den := by exact_mod_cast hd
  have hdiv : (num : ℚ) / den = ↑(num / den) + ↑(num % den) / den := by
    have hnum : (num : ℚ) = den * ↑(num / den) + ↑(num % den) := by
      exact_mod_cast (Nat.div_add_mod num den).symm
    rw [div_eq_iff hden.ne', add_mul, div_mul_cancel₀ _ hden.ne', mul_comm _ (den : ℚ), ← hnum]
  have hlow : 2 * (num % den) < den ↔ (↑(num % den) : ℚ) / den < 1 / 2 := by
    rw [div_lt_div_iff₀ hden two_pos, one_mul, mul_comm]
    exact_mod_cast Iff.rfl
  have hhigh : den < 2 * (num % den) ↔ 1 / 2 < (↑(num % den) : ℚ) / den := by
    rw [div_lt_div_iff₀ two_pos hden, one_mul, mul_comm]
    exact_mod_cast Iff.rfl
  have hpos : (0 : ℚ) ≤ ↑(num % den) / den :=
    div_nonneg (Nat.cast_nonneg _) hden.le
  have hone : (↑(num % den) : ℚ) / den < 1 := by
    rw [div_lt_one hden]
    exact_mod_cast Nat.mod_lt num hd
  rw [hdiv]
  unfold roundDiv
  simp only [hlow, hhigh]
  generalize (↑(num % den) : ℚ) / den = t at *
  have hdown : |(↑(num / den) : ℚ) + t - ↑(num / den)| = t := by
    rw [add_sub_cancel_left, abs_of_nonneg hpos]
  have hup : |(↑(num / den) : ℚ) + t - ↑(num / den + 1)| = 1 - t := by
    rw [Nat.cast_add_one, add_sub_add_left_eq_sub, abs_sub_comm, abs_of_pos (by linarith)]
  split_ifs with h h' heven
  · exact ⟨by rw [hdown]; linarith, fun he => by rw [hdown] at he; linarith⟩
  · exact ⟨by rw [hup]; linarith, fun he => by rw [hup] at he; linarith⟩
  · exact ⟨by rw [hdown]; linarith, fun _ => heven⟩
  · exact ⟨by rw [hup]; linarith, fun _ => by omega⟩

/-- All other integers are half a unit away, or more. -/
theorem IsNearestInt.half_le (h : IsNearestInt x m) (hne : n ≠ m) : 1 / 2 ≤ |x - n| := by
  have hstep : (1 : ℚ) ≤ |(m : ℚ) - n| := by
    exact_mod_cast Int.one_le_abs (sub_ne_zero.mpr (Nat.cast_injective.ne hne.symm))
  have htriangle := abs_sub_le (m : ℚ) x n
  have hle := abs_sub_comm x m ▸ h.le
  linarith

/-! ## Rounding to numbers -/

theorem abs_sub_magnitude (x : ℚ) (m : Nat) (e : Int) :
    |x - magnitude m e| = |x / 2 ^ e - m| * 2 ^ e := by
  have hpos : (0 : ℚ) < 2 ^ e := zpow_pos two_pos e
  rw [magnitude, ← abs_of_pos hpos, ← abs_mul, abs_of_pos hpos, sub_mul, div_mul_cancel₀ _ hpos.ne']

/-- Whether an exponent leaves 53 bits of a rational before the point, or is the least one and
leaves no more. -/
structure LeavesBits (x : ℚ) (e : Int) : Prop where
  least : minExponent ≤ e
  lt : x < 2 ^ (e + 53)
  full : 2 ^ (e + 52) ≤ x ∨ e = minExponent

/-- The nearest multiple of the power of two that leaves 53 bits is the nearest number. -/
theorem LeavesBits.isNearest (hx : LeavesBits x e) (hk : IsNearestInt (x / 2 ^ e) k)
    (hm : Canonical m f) (hvalue : magnitude m f = magnitude k e) (heven : k % 2 = 0 → m % 2 = 0) :
    IsNearest x m f := by
  have hpos : (0 : ℚ) < 2 ^ e := zpow_pos two_pos e
  have hgrid (n : Nat) : |x - magnitude k e| ≤ |x - magnitude n e| := by
    rw [abs_sub_magnitude, abs_sub_magnitude, mul_le_mul_iff_left₀ hpos]
    by_cases hne : n = k
    · rw [hne]
    · exact hk.le.trans (hk.half_le hne)
  have htie (n : Nat) (hne : magnitude n e ≠ magnitude k e)
      (heq : |x - magnitude k e| = |x - magnitude n e|) : k % 2 = 0 := by
    rw [abs_sub_magnitude, abs_sub_magnitude, mul_left_inj' hpos.ne'] at heq
    refine hk.even (le_antisymm hk.le ?_)
    rw [heq]
    exact hk.half_le fun h => hne (by rw [h])
  -- Numbers of smaller exponents come before the first full one, which the rational does not.
  have hsmall {n : Nat} {g : Int} (hn : Canonical n g) (hg : g < e) :
      |x - magnitude k e| < |x - magnitude n g| := by
    have hfull : magnitude (2 ^ 52) e ≤ x := by
      rw [magnitude_full]
      exact hx.full.resolve_right (by have := hn.least; omega)
    have hlt := magnitude_lt_full hn.lt hg
    have hnear := hgrid (2 ^ 52)
    rw [abs_of_nonneg (sub_nonneg.mpr hfull)] at hnear
    rw [abs_of_pos (by linarith : (0 : ℚ) < x - magnitude n g)]
    linarith
  refine ⟨hm, fun {n g} hn => ?_, fun {n g} hn hne heq => heven ?_⟩ <;> rw [hvalue] at *
  · rcases le_or_gt e g with hg | hg
    · rw [magnitude_eq_of_le hg]
      exact hgrid _
    · exact (hsmall hn hg).le
  · rcases le_or_gt e g with hg | hg
    · rw [magnitude_eq_of_le hg] at hne heq
      exact htie _ hne heq
    · exact absurd heq (hsmall hn hg).ne

theorem LeavesBits.bounds (hx : LeavesBits x e) (hk : IsNearestInt (x / 2 ^ e) k) :
    k ≤ 2 ^ 53 ∧ (2 ^ 52 ≤ k ∨ e = minExponent) := by
  have hpos : (0 : ℚ) < 2 ^ e := zpow_pos two_pos e
  obtain ⟨hlow, hhigh⟩ := abs_le.mp hk.le
  constructor
  · have hlt : x / 2 ^ e < 2 ^ 53 := by
      rw [div_lt_iff₀ hpos]
      exact hx.lt.trans_eq (by rw [add_comm, zpow_add₀ two_ne_zero]; norm_cast)
    rw [← Nat.lt_succ_iff]
    have : (k : ℚ) < 2 ^ 53 + 1 := by linarith
    exact_mod_cast this
  · refine hx.full.imp_left fun hfull => ?_
    have hle : 2 ^ 52 ≤ x / 2 ^ e := by
      rw [le_div_iff₀ hpos]
      exact hfull.trans_eq' (by rw [add_comm e, zpow_add₀ two_ne_zero]; norm_cast)
    rw [← Nat.lt_succ_iff]
    have : (2 ^ 52 : ℚ) < k + 1 := by linarith
    exact_mod_cast this

/-- A significand that is rounded up to 54 bits goes with the next exponent. -/
theorem LeavesBits.isNearest_carry (hx : LeavesBits x e) (hk : IsNearestInt (x / 2 ^ e) k) :
    let p := if k = 2 ^ 53 then (2 ^ 52, e + 1) else (k, e)
    IsNearest x p.1 p.2 := by
  obtain ⟨hle, hfull⟩ := hx.bounds hk
  split_ifs with hcarry
  · refine hx.isNearest hk (canonical_full (hx.least.trans (by omega))) ?_ fun _ => by norm_num
    rw [magnitude_eq_of_le (show e ≤ e + 1 by omega), hcarry]
    congr 1
    simp
  · exact hx.isNearest hk ⟨lt_of_le_of_ne hle hcarry, hx.least, hfull⟩ rfl id

theorem IsNearest.roundsTo (h : IsNearest x m e) :
    RoundsTo negative x (if maxExponent < e then .infinite negative else .finite negative m e) := by
  split_ifs with he
  · exact .infinite h he
  · exact .finite h (not_lt.mp he)

/-! ## Quotients -/

theorem scaled_pos (num : Nat) (hd : 0 < den) (e : Int) : 0 < (scaled num den e).2 := by
  unfold scaled
  split
  · exact Nat.mul_pos hd (Nat.two_pow_pos _)
  · exact hd

theorem scaled_div (num den : Nat) (e : Int) :
    ((scaled num den e).1 : ℚ) / (scaled num den e).2 = num / den / 2 ^ e := by
  unfold scaled
  split
  · next he =>
    rw [zpow_eq_of_nonneg 2 he, div_div, Nat.cast_mul]
    norm_cast
  · next he =>
    rw [zpow_eq_of_neg 2 he, div_inv_eq_mul, Nat.cast_mul, mul_div_right_comm]
    norm_cast

/-- A quotient lies between the powers of two that the numbers of its bits suggest. -/
theorem div_bounds (hn : num ≠ 0) (hd : den ≠ 0) :
    (2 : ℚ) ^ ((num.log2 : Int) - den.log2 - 1) < num / den ∧
      (num : ℚ) / den < 2 ^ ((num.log2 : Int) - den.log2 + 1) := by
  have hden : (0 : ℚ) < den := by exact_mod_cast Nat.pos_of_ne_zero hd
  have hnum : (0 : ℚ) < num := by exact_mod_cast Nat.pos_of_ne_zero hn
  have hnlow : (2 : ℚ) ^ (num.log2 : Int) ≤ num := by exact_mod_cast Nat.log2_self_le hn
  have hnhigh : (num : ℚ) < 2 ^ ((num.log2 : Int) + 1) := by
    exact_mod_cast Nat.lt_log2_self (n := num)
  have hdlow : (2 : ℚ) ^ (den.log2 : Int) ≤ den := by exact_mod_cast Nat.log2_self_le hd
  have hdhigh : (den : ℚ) < 2 ^ ((den.log2 : Int) + 1) := by
    exact_mod_cast Nat.lt_log2_self (n := den)
  rw [lt_div_iff₀ hden, div_lt_iff₀ hden]
  constructor
  · calc (2 : ℚ) ^ ((num.log2 : Int) - den.log2 - 1) * den
        < 2 ^ ((num.log2 : Int) - den.log2 - 1) * 2 ^ ((den.log2 : Int) + 1) :=
          mul_lt_mul_of_pos_left hdhigh (zpow_pos two_pos _)
      _ = 2 ^ (num.log2 : Int) := by rw [← zpow_add₀ two_ne_zero]; congr 1; omega
      _ ≤ num := hnlow
  · calc (num : ℚ) < 2 ^ ((num.log2 : Int) + 1) := hnhigh
      _ = 2 ^ ((num.log2 : Int) - den.log2 + 1) * 2 ^ (den.log2 : Int) := by
          rw [← zpow_add₀ two_ne_zero]; congr 1; omega
      _ ≤ 2 ^ ((num.log2 : Int) - den.log2 + 1) * den :=
          mul_le_mul_of_nonneg_left hdlow (zpow_nonneg zero_le_two _)

theorem leavesBits_max (hlow : 2 ^ (e + 52) ≤ x) (hhigh : x < 2 ^ (e + 53)) :
    LeavesBits x (max e minExponent) where
  least := le_max_right ..
  lt := hhigh.trans_le (zpow_le_zpow_right₀ one_le_two (by omega))
  full := by
    rcases le_total e minExponent with h | h
    · exact .inr (max_eq_right h)
    · rw [max_eq_left h]
      exact .inl hlow

theorem leavesBits_exponentFor (hn : num ≠ 0) (hd : den ≠ 0) :
    LeavesBits (num / den) (exponentFor num den) := by
  obtain ⟨hlow, hhigh⟩ := div_bounds hn hd
  -- The quotient without its places has fewer than 53 bits just where the guess was one too great.
  have hbits (e : Int) : (scaled num den e).1 / (scaled num den e).2 < Nat.pow 2 52 ↔
      (num : ℚ) / den < 2 ^ (e + 52) := by
    have hpos := scaled_pos num (Nat.pos_of_ne_zero hd) e
    have hcast : (0 : ℚ) < (scaled num den e).2 := by exact_mod_cast hpos
    have hscale : (num : ℚ) / den < 2 ^ (e + 52) ↔
        ((scaled num den e).1 : ℚ) / (scaled num den e).2 < 2 ^ 52 := by
      rw [scaled_div, div_lt_iff₀ (zpow_pos two_pos e), add_comm e, zpow_add₀ two_ne_zero]
      norm_cast
    rw [hscale, div_lt_iff₀ hcast, Nat.div_lt_iff_lt_mul hpos]
    exact_mod_cast Iff.rfl
  unfold exponentFor
  simp only [hbits]
  generalize hguess : (num.log2 : Int) - den.log2 - 52 = guess
  have hbelow : (num : ℚ) / den < 2 ^ (guess + 53) := by
    rwa [show guess + 53 = (num.log2 : Int) - den.log2 + 1 by omega]
  split_ifs with h
  · refine leavesBits_max ?_ ?_
    · rw [show guess - 1 + 52 = (num.log2 : Int) - den.log2 - 1 by omega]
      exact hlow.le
    · rwa [show guess - 1 + 53 = guess + 52 by omega]
  · exact leavesBits_max (not_lt.mp h) hbelow

/-- What a quotient becomes is determined by the number nearest to it. -/
theorem ofRatio_roundsTo (negative : Bool) (num : Nat) (hd : den ≠ 0) :
    RoundsTo negative (num / den) (ofRatio negative num den) := by
  unfold ofRatio
  by_cases hn : num = 0
  · subst hn
    have hzero : Canonical 0 minExponent := ⟨by decide, le_rfl, .inr rfl⟩
    have hnearest : IsNearest ((0 : Nat) / den) 0 minExponent := by
      simpa [magnitude] using hzero.isNearest
    simpa using RoundsTo.finite hnearest (by decide)
  rw [if_neg (by simp [hn, hd])]
  have hleaves := leavesBits_exponentFor hn hd
  generalize exponentFor num den = e at *
  have hpos := scaled_pos num (Nat.pos_of_ne_zero hd) e
  have hround := isNearestInt_roundDiv (scaled num den e).1 hpos
  rw [scaled_div] at hround
  exact (hleaves.isNearest_carry hround).roundsTo

/-! ## Decimals -/

/-- A decimal lies between the powers of ten that the number of its digits suggests. -/
theorem decimal_bounds {digits : Nat} (h : digits ≠ 0) (exponent : Int) :
    let size : Int := (Nat.toDigits 10 digits).length + exponent
    (10 : ℚ) ^ (size - 1) ≤ digits * 10 ^ exponent ∧ (digits : ℚ) * 10 ^ exponent < 10 ^ size := by
  intro size
  have hpos : (0 : ℚ) < 10 ^ exponent := zpow_pos (by norm_num) exponent
  have hten : (10 : ℚ) ≠ 0 := by norm_num
  have hlength := Nat.length_toDigits_pos (b := 10) (n := digits)
  have hhigh := (Nat.length_toDigits_le_iff (by decide) hlength).mp le_rfl
  have hlow : 10 ^ ((Nat.toDigits 10 digits).length - 1) ≤ digits := by
    by_contra hlt
    by_cases hone : (Nat.toDigits 10 digits).length = 1
    · rw [hone] at hlt
      omega
    · have := (Nat.length_toDigits_le_iff (by decide) (by omega)).mpr (not_le.mp hlt)
      omega
  constructor
  · rw [show size - 1 = ((Nat.toDigits 10 digits).length - 1 : Nat) + exponent by omega,
      zpow_add₀ hten, zpow_natCast]
    exact mul_le_mul_of_nonneg_right (by exact_mod_cast hlow) hpos.le
  · rw [show size = (Nat.toDigits 10 digits).length + exponent from rfl, zpow_add₀ hten,
      zpow_natCast]
    exact mul_lt_mul_of_pos_right (by exact_mod_cast hhigh) hpos

theorem isNearest_zero (h : 0 ≤ x) (hx : x ≤ 2 ^ (minExponent - 1)) :
    IsNearest x 0 minExponent := by
  have hleaves : LeavesBits x minExponent :=
    ⟨le_rfl, hx.trans_lt (zpow_lt_zpow_right₀ one_lt_two (by omega)), .inr rfl⟩
  refine hleaves.isNearest ⟨?_, fun _ => rfl⟩ ⟨by decide, le_rfl, .inr rfl⟩ rfl id
  have hpos : (0 : ℚ) < 2 ^ minExponent := zpow_pos two_pos _
  rw [Nat.cast_zero, sub_zero, abs_of_nonneg (div_nonneg h hpos.le), div_le_iff₀ hpos]
  rwa [zpow_sub_one₀ two_ne_zero, mul_comm, ← one_div] at hx

theorem IsNearest.maxExponent_lt (h : IsNearest x m e) (hx : 2 ^ (maxExponent + 53) ≤ x) :
    maxExponent < e := by
  by_contra he
  have hlt := magnitude_lt_full h.canonical.lt (show e < maxExponent + 1 by omega)
  have hfull : magnitude (2 ^ 52) (maxExponent + 1) ≤ x := by
    rw [magnitude_full]
    exact hx
  have hle := h.le (canonical_full (show minExponent ≤ maxExponent + 1 by decide))
  rw [abs_of_nonneg (sub_nonneg.mpr hfull), abs_of_pos (sub_pos.mpr (hlt.trans_le hfull))] at hle
  linarith

theorem RoundsTo.exists_isNearest (h : RoundsTo negative x y) : ∃ m e, IsNearest x m e := by
  cases h with
  | finite h => exact ⟨_, _, h⟩
  | infinite h => exact ⟨_, _, h⟩

/-- A decimal is a quotient. -/
theorem roundsTo_of_decimal (negative : Bool) (digits : Nat) (exponent : Int) :
    RoundsTo negative (digits * 10 ^ exponent)
      (if 0 ≤ exponent then ofRatio negative (digits * Nat.pow 10 exponent.toNat) 1
        else ofRatio negative digits (Nat.pow 10 (-exponent).toNat)) := by
  split_ifs with he
  · have h := ofRatio_roundsTo negative (digits * Nat.pow 10 exponent.toNat) one_ne_zero
    rw [zpow_eq_of_nonneg 10 he]
    simpa using h
  · have h := ofRatio_roundsTo negative digits
      (show Nat.pow 10 (-exponent).toNat ≠ 0 by simp)
    rw [zpow_eq_of_neg 10 he, ← div_eq_mul_inv]
    simpa using h

/-- What a decimal becomes is determined by the number nearest to it, also where its size settles
the matter. -/
theorem ofDecimal_roundsTo (negative : Bool) (digits : Nat) (exponent : Int) :
    RoundsTo negative (digits * 10 ^ exponent) (ofDecimal negative digits exponent) := by
  have hratio := roundsTo_of_decimal negative digits exponent
  have hten : (1 : ℚ) ≤ 10 := by norm_num
  -- Eight, three doublings, is less than ten.
  have hpow : (2 : ℚ) ^ (1200 : Int) ≤ 10 ^ (400 : Int) := by
    rw [show (1200 : Int) = (3 : Int) * (400 : Nat) from rfl, zpow_mul, zpow_natCast]
    exact pow_le_pow_left₀ (by norm_num) (by norm_num) 400
  unfold ofDecimal
  simp only
  generalize hsize : ((Nat.toDigits 10 digits).length : Int) + exponent = size
  by_cases hzero : digits = 0
  · subst hzero
    simpa [magnitude] using
      RoundsTo.finite (isNearest_zero le_rfl (zpow_nonneg zero_le_two _)) (by decide)
  obtain ⟨hlow, hhigh⟩ := hsize ▸ decimal_bounds hzero exponent
  by_cases hsmall : size < -400
  · rw [if_pos (.inr hsmall)]
    refine .finite (isNearest_zero (by positivity) (hhigh.le.trans ?_)) (by decide)
    calc (10 : ℚ) ^ size ≤ 10 ^ (-400 : Int) := zpow_le_zpow_right₀ hten (by omega)
      _ ≤ 2 ^ (-1200 : Int) := by
          rw [zpow_neg, zpow_neg]
          exact inv_anti₀ (zpow_pos two_pos _) hpow
      _ ≤ 2 ^ (minExponent - 1) := zpow_le_zpow_right₀ one_le_two (by decide)
  rw [if_neg (by simp [hzero, hsmall])]
  by_cases hgreat : 400 < size
  · rw [if_pos hgreat]
    obtain ⟨m, e, hnearest⟩ := hratio.exists_isNearest
    refine .infinite hnearest (hnearest.maxExponent_lt ?_)
    calc (2 : ℚ) ^ (maxExponent + 53) ≤ 2 ^ (1200 : Int) :=
          zpow_le_zpow_right₀ one_le_two (by decide)
      _ ≤ 10 ^ (400 : Int) := hpow
      _ ≤ 10 ^ (size - 1) := zpow_le_zpow_right₀ hten (by omega)
      _ ≤ digits * 10 ^ exponent := hlow
  · rwa [if_neg hgreat]

theorem roundsTo_digits_iff {digits : Nat} :
    RoundsTo negative digits y ↔ y = ofDecimal negative digits 0 := by
  have h := ofDecimal_roundsTo negative digits 0
  rw [zpow_zero, mul_one] at h
  exact ⟨fun h' => h'.unique h, fun h' => h' ▸ h⟩

theorem roundsTo_places_iff {digits places : Nat} :
    RoundsTo negative (digits / 10 ^ places) y ↔ y = ofDecimal negative digits (-places) := by
  have h := ofDecimal_roundsTo negative digits (-places)
  rw [zpow_neg, zpow_natCast, ← div_eq_mul_inv] at h
  exact ⟨fun h' => h'.unique h, fun h' => h' ▸ h⟩

end BedrockCommand.Binary64
