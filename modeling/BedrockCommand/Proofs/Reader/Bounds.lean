import BedrockCommand.Proofs.Reader.Fails
import BedrockCommand.Proofs.Reader.Range
/-!
What is wrong with a range: its bounds are the wrong way round, or it has none. That is told where
the bounds end, whatever follows them.
-/
namespace BedrockCommand

namespace Form

/-- The bounds of a range on both sides of the points. -/
inductive twoBounds : Form (Option Int × Option Int) where
  | intro {cs ds es : List Char} {low high : Option Int} (hl : lowerBound cs low ds)
    (hh : upperBound ds high es) : twoBounds cs (low, high) es

/-- Two points between two integers, the smaller one last. Spaces may stand around the points, and
no digit follows the integers. -/
inductive reversed : Form Unit where
  | intro {cs ps qs ds rest : List Char} {m n : Int} (hm : IntegerText cs m)
    (hp : afterSpaces ps = '.' :: '.' :: qs) (hn : IntegerText ds n)
    (hq : afterSpaces qs = ds ++ rest) (hr : ∀ x ∈ rest.head?, x.isDigit = false) (hlt : n < m) :
    reversed (cs ++ ps) () rest

/-- No bound begins here, and no point stands behind spaces, or no bound begins on either side of
two points. A bound begins with a sign or a digit. -/
inductive boundless : Form Unit where
  | none {cs : List Char} (hn : beginsNumber cs = false)
    (hp : (afterSpaces cs).head? ≠ some '.') : boundless cs () cs
  | points {cs rest : List Char} (hn : beginsNumber cs = false)
    (hp : afterSpaces cs = '.' :: '.' :: rest) (hr : beginsNumber (afterSpaces rest) = false) :
    boundless cs () rest

end Form

/-- There is a digit in an integer. -/
theorem IntegerText.exists_isDigit {cs : List Char} {n : Int} (h : IntegerText cs n) :
    ∃ x ∈ cs, x.isDigit = true := by
  obtain @⟨s, ds, negative, -, hd, -⟩ := h
  obtain ⟨x, ds, rfl, hx⟩ := exists_cons_of_isDigits hd
  exact ⟨x, List.mem_append_right s List.mem_cons_self, hx⟩

/-- One place further along the line is told by what is left there. -/
theorem Cursor.Ahead.eq_of_rest_eq {c d e : Cursor} (h : c.Ahead d) (h' : c.Ahead e)
    (hr : d.rest = e.rest) : d = e := by
  obtain ⟨cs, -, hd, hp⟩ := h
  obtain ⟨ds, -, he, hp'⟩ := h'
  obtain rfl : cs = ds := by
    rw [hd, hr] at he
    exact List.append_cancel_right he
  obtain ⟨rest, p⟩ := d
  obtain ⟨rest', p'⟩ := e
  obtain rfl : rest = rest' := hr
  obtain rfl : p = p' := hp.trans hp'.symm
  rfl

namespace Reader

variable {c d : Cursor} {cs ds : List Char}

/-- A reader of a form along the line gives a value just where the form stands, and ends behind
it. -/
theorem Exact.eq_ok_iff {r : Reader α} {F : Form α} (h : r.Exact F) (hr : r.OnLine) {x : α} :
    r c = (.ok x, d) ↔ F c.rest x d.rest ∧ c.Ahead d := by
  constructor
  · intro hx
    have hahead := OnLine.ahead hr c
    rw [hx] at hahead
    exact ⟨h.sound hx, hahead⟩
  · rintro ⟨hF, hahead⟩
    obtain ⟨e, he, hrest⟩ := h.complete hF c.position
    have hahead' := OnLine.ahead hr c
    rw [he] at hahead'
    rw [he, hahead.eq_of_rest_eq hahead' hrest.symm]

theorem boundless_iff : Form.twoBounds cs (none, none) ds ↔ Form.boundless cs () ds := by
  constructor
  · rintro ⟨hl, hh⟩
    cases hl with
    | none hn =>
      cases hh with
      | none hp => exact .none hn hp
      | points hp h =>
        cases h with
        | above hr => exact .points hn hp hr
  · intro h
    cases h with
    | none hn hp => exact .intro (.none hn) (.none hp)
    | points hn hp hr => exact .intro (.none hn) (.points hp (.above hr))

theorem reversed_iff : (∃ m n, n < m ∧ Form.twoBounds cs (some m, some n) ds) ↔
    Form.reversed cs () ds := by
  constructor
  · rintro ⟨m, n, hlt, hl, hh⟩
    cases hl with
    | some hm hd =>
      cases hh with
      | points hp h =>
        cases h with
        | some hn hq hr => exact .intro hm hp hn hq hr hlt
  · rintro ⟨hm, hp, hn, hq, hr, hlt⟩
    exact ⟨_, _, hlt, .intro (.some hm (not_isDigit_of_points hp).1) (.points hp (.some hn hq hr))⟩

/-- Reads the bounds of a range on both sides of its points. -/
def twoBounds : Reader (Option Int × Option Int) := do
  let low ← bound?
  let high ← upperBound?
  return (low, high)

/-- What is wrong with the two bounds of a range, if they do not make one. -/
def boundsFault? : Option Int → Option Int → Option SyntaxError
  | none, none => some .expectedRange
  | some l, some h => if h < l then some .impossibleRange else none
  | _, _ => none

theorem boundsFault?_eq_expectedRange {low high : Option Int} :
    boundsFault? low high = some .expectedRange ↔ low = none ∧ high = none := by
  rcases low with _ | m <;> rcases high with _ | n <;> simp [boundsFault?]

theorem boundsFault?_eq_impossibleRange {low high : Option Int} :
    boundsFault? low high = some .impossibleRange ↔
      ∃ m n, low = some m ∧ high = some n ∧ n < m := by
  rcases low with _ | m <;> rcases high with _ | n <;> simp [boundsFault?]

/-- A range is its bounds and, if they make a range, the end of the argument. -/
theorem range_eq : range = (negation >>= fun _ => twoBounds) >>= fun p =>
    (boundsFault? p.1 p.2).elim argumentEnd fail := by
  unfold range twoBounds
  simp only [bind_assoc, pure_bind]
  refine bind_congr fun _ => bind_congr fun low => bind_congr fun high => ?_
  rcases low with _ | m <;> rcases high with _ | n
  case some.some =>
    simp only [boundsFault?]
    split <;> rfl
  all_goals rfl

theorem exact_twoBounds : twoBounds.Exact .twoBounds where
  sound {c x d} h := by
    obtain ⟨low, c', hlow, h⟩ := bind_eq_ok.mp h
    obtain ⟨high, c'', hhigh, h⟩ := bind_eq_ok.mp h
    obtain ⟨rfl, rfl⟩ := ok_inj h
    exact .intro (Exact.sound exact_lowerBound hlow) (Exact.sound exact_upperBound hhigh)
  complete := by
    rintro cs _ ds ⟨hl, hh⟩ p
    obtain ⟨c', hc', rfl⟩ := Exact.complete exact_lowerBound hl p
    obtain ⟨c'', hc'', hd⟩ := Exact.complete exact_upperBound hh c'.position
    exact ⟨c'', bind_eq_ok.mpr ⟨_, c', hc', bind_eq_ok.mpr ⟨_, c'', hc'', rfl⟩⟩, hd⟩

theorem onLine_twoBounds : OnLine (negation >>= fun _ => twoBounds) :=
  .bind onLine_negation fun _ => .bind onLine_bound? fun _ => .bind onLine_upperBound? fun _ =>
    onLine_pure _

/-- What is wrong with one bound, or with the points, is neither of the errors about both bounds. -/
theorem failsWith_twoBounds : FailsWith (fun e _ => e ≠ .expectedRange ∧ e ≠ .impossibleRange)
    (negation >>= fun _ => twoBounds) := by
  have hnegation : FailsWith (fun e _ => e ≠ .expectedRange ∧ e ≠ .impossibleRange) negation :=
    .bind (failsWith_look _) fun _ => .ite (.bind (.exactly (by simp)) fun _ => failsWith_spaces)
      (failsWith_pure _) _
  exact .bind hnegation fun _ => .bind (.bound? (by simp) (by simp)) fun _ =>
    .bind (.upperBound? (by simp) (by simp) (by simp)) fun _ => failsWith_pure _

/-- The errors about both bounds are told by the bounds, and right behind them. -/
theorem range_eq_error {e : SyntaxError} (he : e = .expectedRange ∨ e = .impossibleRange) :
    range c = (.error e, d) ↔ ∃ low high, boundsFault? low high = some e ∧
      (negation >>= fun _ => twoBounds) c = (.ok (low, high), d) := by
  have hbounds : (negation >>= fun _ => twoBounds) c ≠ (.error e, d) := by
    intro h
    obtain ⟨hrange, himpossible⟩ := failsWith_twoBounds _ _ _ h
    exact he.elim hrange himpossible
  have hend (c' : Cursor) : argumentEnd c' ≠ (.error e, d) := by
    intro h
    rw [argumentEnd_apply] at h
    split at h
    · simp at h
    · obtain rfl : SyntaxError.expectedTerminator = e := by simpa using congrArg Prod.fst h
      simp at he
  rw [range_eq, bind_eq_error, or_iff_right hbounds]
  constructor
  · rintro ⟨⟨low, high⟩, c', h, hclose⟩
    cases hfault : boundsFault? low high with
    | none =>
      rw [hfault] at hclose
      exact absurd hclose (hend c')
    | some fault =>
      rw [hfault] at hclose
      obtain ⟨hfail, rfl⟩ := Prod.mk.inj hclose
      obtain rfl : fault = e := by simpa using hfail
      exact ⟨low, high, hfault, h⟩
  · rintro ⟨low, high, hfault, h⟩
    exact ⟨(low, high), d, h, by rw [hfault]; rfl⟩

/-- A range is read just where one stands, with the spaces behind it. Two bounds the wrong way round
and no bound at all have errors of their own, told right behind the points. -/
theorem range_exact (c d : Cursor) :
    (range c = (.ok (), d) ↔ Form.negatable (.spaced .range) c.rest () d.rest ∧ c.Ahead d) ∧
    (range c = (.error .impossibleRange, d) ↔
      Form.negatable .reversed c.rest () d.rest ∧ c.Ahead d) ∧
    (range c = (.error .expectedRange, d) ↔
      Form.negatable .boundless c.rest () d.rest ∧ c.Ahead d) := by
  have hbounds {p : Option Int × Option Int} : (negation >>= fun _ => twoBounds) c = (.ok p, d) ↔
      Form.twoBounds (negation c).2.rest p d.rest ∧ c.Ahead d := by
    rw [Exact.eq_ok_iff (exact_negation exact_twoBounds) onLine_twoBounds, negatable_iff]
  refine ⟨Exact.eq_ok_iff exact_range onLine_range, ?_, ?_⟩
  · simp only [range_eq_error (.inr rfl), boundsFault?_eq_impossibleRange, hbounds, negatable_iff,
      ← reversed_iff]
    constructor
    · rintro ⟨low, high, ⟨m, n, rfl, rfl, hlt⟩, h, hahead⟩
      exact ⟨⟨m, n, hlt, h⟩, hahead⟩
    · rintro ⟨⟨m, n, hlt, h⟩, hahead⟩
      exact ⟨some m, some n, ⟨m, n, rfl, rfl, hlt⟩, h, hahead⟩
  · simp only [range_eq_error (.inl rfl), boundsFault?_eq_expectedRange, hbounds, negatable_iff,
      ← boundless_iff]
    constructor
    · rintro ⟨low, high, ⟨rfl, rfl⟩, h⟩
      exact h
    · intro h
      exact ⟨none, none, ⟨rfl, rfl⟩, h⟩

/-- A sign without digits is no integer, and still not reported as a missing range: what is wrong
with the bound it begins is told first. -/
theorem range_sign_differs : ¬ ∀ c : Cursor, c.rest.head? ≠ some '!' →
    (∀ cs n ds, c.rest = cs ++ ds → ¬ IntegerText cs n) →
    (afterSpaces c.rest).head? ≠ some '.' → ∃ d, range c = (.error .expectedRange, d) := by
  intro h
  have hsign (cs : List Char) (n : Int) (ds : List Char) (hcs : ['+'] = cs ++ ds) :
      ¬ IntegerText cs n := by
    intro hn
    obtain ⟨x, hx, hdigit⟩ := hn.exists_isDigit
    have hmem : x ∈ ['+'] := hcs ▸ List.mem_append_left ds hx
    obtain rfl := List.mem_singleton.mp hmem
    exact absurd hdigit (by decide)
  obtain ⟨d, hd⟩ := h ⟨['+'], .origin⟩ (by decide) hsign (by decide)
  have hinteger : (range ⟨['+'], .origin⟩).1 = .error .expectedInteger := rfl
  rw [hd] at hinteger
  simp at hinteger

end Reader
end BedrockCommand
