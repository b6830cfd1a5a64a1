import BedrockCommand.Proofs.Number.Integer
import BedrockCommand.Proofs.Reader.Exact
import BedrockCommand.Proofs.Rule.Sound
/-!
Integers as arguments. What is read as an integer is a sign, if there is one, and all the digits
behind it, whatever their value. The value decides whether it is an integer of 32 bits, and then the
bounds and what follows decide whether the argument is one.
-/
namespace BedrockCommand

namespace Text

/-- The sign in front of a text, if there is one. -/
def leadingSign (cs : List Char) : List Char :=
  (cs.take 1).filter fun x => x = '-' ∨ x = '+'

/-- The digits in front of a text, all of them, behind a sign if there is one. -/
def leadingDigits (cs : List Char) : List Char :=
  (cs.drop (leadingSign cs).length).takeWhile Char.isDigit

end Text

open Text (leadingSign leadingDigits)

namespace Reader

theorem sign_eq (c : Cursor) : sign c =
    (.ok (leadingSign c.rest = ['-']), c.skip (leadingSign c.rest).length) := by
  obtain ⟨_ | ⟨x, cs⟩, p⟩ := c
  · rfl
  by_cases hm : x = '-'
  · subst hm
    rfl
  by_cases hp : x = '+'
  · subst hp
    rfl
  · simp [sign, leadingSign, hm, hp, Cursor.skip]

theorem digits_eq (e : SyntaxError) (c : Cursor) : digits e c =
    let ds := c.rest.takeWhile Char.isDigit
    (if ds = [] then .error e else .ok ds, c.skip ds.length) := by
  unfold digits
  simp only [bind_apply, takeWhile, Cursor.skipWhile, Cursor.ahead, List.isEmpty_iff]
  split <;> rfl

/-- What comes of reading an integer from a text, before the end of the argument is looked at. -/
def integerOf (cs : List Char) : Except SyntaxError Int :=
  let n := Numeral.denoted (leadingSign cs) (leadingDigits cs)
  if leadingDigits cs = [] then .error .expectedInteger
  else if -2 ^ 31 ≤ n ∧ n ≤ 2 ^ 31 - 1 then .ok n
  else .error .integerOverflow

/-- All of the sign and the digits is read, also where they are no integer of 32 bits. -/
theorem rawInteger_eq (c : Cursor) : rawInteger c =
    (integerOf c.rest, c.skip ((leadingSign c.rest).length + (leadingDigits c.rest).length)) := by
  have hdigits : digits .expectedInteger (c.skip (leadingSign c.rest).length) =
      (if leadingDigits c.rest = [] then .error .expectedInteger else .ok (leadingDigits c.rest),
        c.skip ((leadingSign c.rest).length + (leadingDigits c.rest).length)) := by
    rw [digits_eq, ← Cursor.skip_skip]
    rfl
  unfold rawInteger integerOf
  simp only [bind_apply, sign_eq, hdigits, Numeral.signed_eq_denoted, Numeral.fits_iff]
  by_cases hd : leadingDigits c.rest = []
  · simp only [if_pos hd]
  · simp only [if_neg hd]
    split <;> rfl

theorem integerOf_eq_ok {cs : List Char} {n : Int} : integerOf cs = .ok n ↔
    leadingDigits cs ≠ [] ∧ (-2 ^ 31 ≤ n ∧ n ≤ 2 ^ 31 - 1) ∧
      n = Numeral.denoted (leadingSign cs) (leadingDigits cs) := by
  unfold integerOf
  by_cases hd : leadingDigits cs = []
  · simp [hd]
  simp only [if_neg hd]
  constructor
  · intro h
    split at h
    · next hfits =>
      obtain rfl := Except.ok.inj h
      exact ⟨hd, hfits, rfl⟩
    · simp at h
  · rintro ⟨-, hfits, rfl⟩
    rw [if_pos hfits]

theorem integer_eq_ok {c e : Cursor} {n : Int} : integer c = (.ok n, e) ↔
    let d := c.skip ((leadingSign c.rest).length + (leadingDigits c.rest).length)
    integerOf c.rest = .ok n ∧ endsWord d.rest = true ∧ e = d.skipSpaces := by
  constructor
  · intro h
    obtain ⟨n, d, hn, h⟩ := bind_eq_ok.mp h
    obtain ⟨u, e, he, h⟩ := bind_eq_ok.mp h
    obtain ⟨rfl, rfl⟩ := ok_inj h
    obtain ⟨hvalue, rfl⟩ := Prod.mk.inj ((rawInteger_eq c).symm.trans hn)
    obtain ⟨hend, rfl⟩ := argumentEnd_eq_ok.mp he
    exact ⟨hvalue, hend, rfl⟩
  · rintro ⟨hn, hend, rfl⟩
    refine bind_eq_ok.mpr ⟨n, _, by rw [rawInteger_eq, hn], ?_⟩
    exact bind_eq_ok.mpr ⟨(), _, argumentEnd_eq_ok.mpr ⟨hend, rfl⟩, rfl⟩

end Reader

namespace Argument

variable {least : Int} {greatest : Option Int} {c e : Cursor} {n : Int}

theorem liesIn_iff : liesIn least greatest n = true ↔ least ≤ n ∧ ∀ m ∈ greatest, n ≤ m := by
  cases greatest <;> simp [liesIn]

theorem read_integer_of_ok (h : Reader.integer c = (.ok n, e)) (hn : liesIn least greatest n) :
    (integer least greatest).read c = .accept .number (integerValue n) n e := by
  rw [read, Reading.of, h]
  exact if_pos hn

/-- An integer that is wrong or lies elsewhere. -/
theorem kind_read_integer (h : ∀ n e, Reader.integer c = (.ok n, e) → ¬ liesIn least greatest n) :
    ((integer least greatest).read c).kind = some .error := by
  rw [read, Reading.of]
  split
  · next n e hr =>
    rw [Reading.acceptIf, if_neg (h n e hr)]
    rfl
  · rfl

end Argument

/-- The first thing that is reported of an argument is its token. -/
theorem Step.exists_events_argument {a : Argument} {c : Cursor} (ha : c.Ahead (a.read c).cursor)
    (next : a.Answer → Cursor → Step) : ∃ t more,
      (argument a c next).events = .token t :: more ∧ (a.read c).kind = some t.kind ∧
        t.value = (a.read c).value := by
  obtain ⟨kind, hk⟩ := a.exists_kind_read c
  unfold argument
  simp only [hk, token_ahead kind _ _ ha, andThen, List.cons_append]
  exact ⟨_, _, rfl, rfl, rfl⟩

/-- In front of every text, an integer is an optional sign and all the digits behind it. Without
digits, it is missing; else it has the value of the sign and the digits, unless this value has more
than 32 bits. As an argument between two bounds it becomes the token of a number, with this value
unrounded, just where the value lies between the bounds and the argument ends behind the digits, and
an error anywhere else. -/
theorem Argument.integer_near_limits (c : Cursor) :
    let digits := leadingDigits c.rest
    let n := Numeral.denoted (leadingSign c.rest) digits
    let d := c.skip ((leadingSign c.rest).length + digits.length)
    let fits := -2 ^ 31 ≤ n ∧ n ≤ 2 ^ 31 - 1
    Reader.rawInteger c = (if digits = [] then .error .expectedInteger
      else if fits then .ok n else .error .integerOverflow, d) ∧
    ∀ (least : Int) (greatest : Option Int) (next : Int → Cursor → Step), ∃ t more,
      (Step.argument (.integer least greatest) c next).events = .token t :: more ∧
      let accepted := digits ≠ [] ∧ fits ∧ least ≤ n ∧ (∀ m ∈ greatest, n ≤ m) ∧
        endsWord d.rest = true
      (accepted ∧ t.kind = .number ∧ t.value = .number (.ofInt n) ∧
          (Binary64.ofInt n).units? = some (n * 2 ^ 1074) ∨
        ¬ accepted ∧ t.kind = .error) := by
  intro digits n d fits
  refine ⟨Reader.rawInteger_eq c, fun least greatest next => ?_⟩
  have hfits : (integer least greatest).FitsAfter none := trivial
  have hahead := ahead_read _ hfits c (Look.known_none c)
  obtain ⟨t, more, hevents, hkind, hvalue⟩ := Step.exists_events_argument hahead next
  refine ⟨t, more, hevents, ?_⟩
  by_cases h : digits ≠ [] ∧ fits ∧ least ≤ n ∧ (∀ m ∈ greatest, n ≤ m) ∧ endsWord d.rest = true
  · obtain ⟨hdigits, hfits, hleast, hgreatest, hend⟩ := h
    have hread := read_integer_of_ok
      (Reader.integer_eq_ok.mpr ⟨Reader.integerOf_eq_ok.mpr ⟨hdigits, hfits, rfl⟩, hend, rfl⟩)
      (liesIn_iff.mpr ⟨hleast, hgreatest⟩)
    rw [hread] at hkind hvalue
    have hsmall : n.natAbs < 2 ^ 53 := by
      obtain ⟨hlow, hhigh⟩ := hfits
      omega
    exact .inl ⟨⟨hdigits, hfits, hleast, hgreatest, hend⟩, (Option.some.inj hkind).symm, hvalue,
      Binary64.units?_ofInt hsmall⟩
  · refine .inr ⟨h, ?_⟩
    have hread : ((integer least greatest).read c).kind = some .error := by
      refine kind_read_integer fun m e hm hlies => h ?_
      obtain ⟨hinteger, hend, -⟩ := Reader.integer_eq_ok.mp hm
      obtain ⟨hdigits, hfits, rfl⟩ := Reader.integerOf_eq_ok.mp hinteger
      obtain ⟨hleast, hgreatest⟩ := liesIn_iff.mp hlies
      exact ⟨hdigits, hfits, hleast, hgreatest, hend⟩
    exact Option.some.inj (hkind.symm.trans hread)

/-- The least integer of 32 bits has no counterpart without the minus, whatever zeros it has. -/
example : (Reader.rawInteger ⟨"-002147483648".toList, .origin⟩).1 = .ok (-2147483648) ∧
    (Reader.rawInteger ⟨"+002147483648".toList, .origin⟩).1 = .error .integerOverflow :=
  ⟨rfl, rfl⟩

end BedrockCommand
