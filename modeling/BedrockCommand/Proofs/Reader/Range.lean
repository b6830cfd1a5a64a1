import BedrockCommand.Proofs.Reader.Exact
/-!
The reader of ranges reads ranges and nothing else. The bound in front of the points and the points
with the bound behind them are forms of their own.
-/
namespace BedrockCommand

namespace Form

/-- The bound in front of the points, if there is one. -/
inductive lowerBound : Form (Option Int) where
  | none {cs : List Char} (hn : beginsNumber cs = false) : lowerBound cs none cs
  | some {cs rest : List Char} {n : Int} (h : IntegerText cs n)
    (hr : ∀ x ∈ rest.head?, x.isDigit = false) : lowerBound (cs ++ rest) (some n) rest

/-- The second point and the bound behind it, if there is one. -/
inductive secondPoint : Form (Option Int) where
  | above {rest : List Char} (hn : beginsNumber (afterSpaces rest) = false) :
    secondPoint ('.' :: rest) none rest
  | some {qs ds rest : List Char} {n : Int} (h : IntegerText ds n)
    (hq : afterSpaces qs = ds ++ rest) (hr : ∀ x ∈ rest.head?, x.isDigit = false) :
    secondPoint ('.' :: qs) (some n) rest

/-- The points behind spaces, if there are any, and the bound behind them. -/
inductive upperBound : Form (Option Int) where
  | none {cs : List Char} (hp : (afterSpaces cs).head? ≠ some '.') : upperBound cs none cs
  | points {cs ds es : List Char} {high : Option Int} (hp : afterSpaces cs = '.' :: ds)
    (h : secondPoint ds high es) : upperBound cs high es

end Form

namespace Reader

variable {c d : Cursor} {cs ds rest : List Char} {low high : Option Int} {n : Int}

/-- Digits are taken as long as there are any. -/
theorem isDigit_digits {e : SyntaxError} (h : digits e c = (.ok ds, d)) :
    ∀ x ∈ d.rest.head?, x.isDigit = false := by
  obtain ⟨es, c', he, h⟩ := bind_eq_ok.mp h
  obtain ⟨rfl, rfl⟩ := ok_inj he
  split at h
  · simp at h
  · obtain ⟨rfl, rfl⟩ := ok_inj h
    rw [Cursor.skipWhile_eq]
    intro x hx
    have hhead := List.head?_dropWhile_not (p := Char.isDigit) (l := c.rest)
    rw [Option.mem_def.mp hx] at hhead
    exact hhead

theorem isDigit_rawInteger (h : rawInteger c = (.ok n, d)) :
    ∀ x ∈ d.rest.head?, x.isDigit = false := by
  obtain ⟨negative, c', -, h⟩ := bind_eq_ok.mp h
  obtain ⟨ds, c'', hd, h⟩ := bind_eq_ok.mp h
  split at h
  · obtain ⟨-, rfl⟩ := ok_inj h
    exact isDigit_digits hd
  · simp at h

theorem exact_lowerBound : bound?.Exact .lowerBound where
  sound {c low d} h := by
    rw [bound?, look_bind, startsNumber, ← beginsNumber] at h
    split at h
    · obtain ⟨n, d, hn, h⟩ := bind_eq_ok.mp h
      obtain ⟨rfl, rfl⟩ := ok_inj h
      obtain ⟨cs, hcs, hpast⟩ := rawInteger_sound hn
      rw [hpast.1]
      exact .some hcs (isDigit_rawInteger hn)
    · next hn =>
      obtain ⟨rfl, rfl⟩ := ok_inj h
      exact .none (by simpa using hn)
  complete := by
    rintro cs low rest h p
    cases h with
    | none hn =>
      refine ⟨⟨cs, p⟩, ?_, rfl⟩
      rw [bound?, look_bind, startsNumber, ← beginsNumber, hn]
      rfl
    | @some cs _ n h hr =>
      refine ⟨⟨rest, p.after cs⟩, ?_, rfl⟩
      rw [bound?, look_bind, startsNumber, ← beginsNumber, if_pos (beginsNumber_integer h rest)]
      exact bind_eq_ok.mpr ⟨n, _, rawInteger_complete h hr p, rfl⟩

theorem spacesBefore_bind (q : Char → Bool) (k : Bool → Reader α) (c : Cursor) :
    (spacesBefore q >>= k) c =
      if (afterSpaces c.rest).head?.any q then k true c.skipSpaces else k false c := by
  rw [bind_apply, spacesBefore_apply, c.rest_skipSpaces]
  cases (afterSpaces c.rest).head?.any q <;> rfl

/-- What is read behind the first point. -/
def secondPoint : Reader (Option Int) := do
  exactly '.'
  if ← spacesBefore isNumberStart then do
    let n ← rawInteger
    return some n
  else return none

theorem exact_secondPoint : secondPoint.Exact .secondPoint where
  sound {c high d} h := by
    obtain ⟨u, e, he, h⟩ := bind_eq_ok.mp h
    unfold exactly at he
    split at he
    · next hat =>
      obtain ⟨-, rfl⟩ := Prod.mk.inj he
      obtain ⟨qs, hc⟩ := Cursor.isAt_iff.mp hat
      rw [Cursor.advance_of_rest hc, spacesBefore_bind] at h
      rw [hc]
      split at h
      · obtain ⟨n, d, hn, h⟩ := bind_eq_ok.mp h
        obtain ⟨rfl, rfl⟩ := ok_inj h
        obtain ⟨ds, hds, hpast⟩ := rawInteger_sound hn
        have hq := hpast.1
        rw [Cursor.rest_skipSpaces] at hq
        exact .some hds hq (isDigit_rawInteger hn)
      · next hn =>
        obtain ⟨rfl, rfl⟩ := ok_inj h
        exact .above (Bool.eq_false_iff.mpr hn)
    · simp at he
  complete := by
    rintro _ high ds h p
    have hexactly (rest : List Char) :
        exactly '.' ⟨'.' :: rest, p⟩ = (.ok (), ⟨rest, p.next '.'⟩) := rfl
    cases h with
    | above hn =>
      refine ⟨⟨ds, p.next '.'⟩, ?_, rfl⟩
      rw [secondPoint, bind_apply, hexactly]
      simp only [spacesBefore_bind]
      rw [← beginsNumber, hn]
      rfl
    | @some qs es _ n h hq hr =>
      have hspaces : (Cursor.mk qs (p.next '.')).skipSpaces =
          ⟨es ++ ds, (Cursor.mk qs (p.next '.')).skipSpaces.position⟩ := by
        rw [← hq, ← Cursor.rest_skipSpaces ⟨qs, p.next '.'⟩]
      refine ⟨⟨ds, (Cursor.mk qs (p.next '.')).skipSpaces.position.after es⟩, ?_, rfl⟩
      rw [secondPoint, bind_apply, hexactly]
      simp only [spacesBefore_bind]
      rw [← beginsNumber, hq, if_pos (beginsNumber_integer h ds), hspaces]
      exact bind_eq_ok.mpr ⟨n, _, rawInteger_complete h hr _, rfl⟩

theorem upperBound?_apply (c : Cursor) : upperBound? c =
    if (afterSpaces c.rest).head? = some '.' then secondPoint c.skipSpaces.advance
    else (.ok none, c) := by
  have hpoint : (afterSpaces c.rest).head?.any (· = '.') =
      decide ((afterSpaces c.rest).head? = some '.') := by
    cases (afterSpaces c.rest).head? <;> simp
  rw [upperBound?, spacesBefore_bind, hpoint]
  by_cases hp : (afterSpaces c.rest).head? = some '.'
  · rw [if_pos (decide_eq_true hp), if_pos hp]
    rfl
  · rw [if_neg (by simpa using hp), if_neg hp]
    rfl

theorem exact_upperBound : upperBound?.Exact .upperBound where
  sound {c high d} h := by
    rw [upperBound?_apply] at h
    split at h
    · next hp =>
      obtain ⟨ds, hds⟩ := List.head?_eq_some_iff.mp hp
      have hsecond := Exact.sound exact_secondPoint h
      rw [Cursor.advance_of_rest (c.rest_skipSpaces.trans hds)] at hsecond
      exact .points hds hsecond
    · next hp =>
      obtain ⟨rfl, rfl⟩ := ok_inj h
      exact .none hp
  complete := by
    rintro cs high ds h p
    cases h with
    | none hp => exact ⟨⟨cs, p⟩, by rw [upperBound?_apply, if_neg hp], rfl⟩
    | points hp h =>
      obtain ⟨d, hr, hd⟩ := Exact.complete exact_secondPoint h _
      refine ⟨d, ?_, hd⟩
      rw [upperBound?_apply, if_pos (by rw [hp]; rfl),
        Cursor.advance_of_rest ((Cursor.rest_skipSpaces ⟨cs, p⟩).trans hp)]
      exact hr

/-! ## Ranges -/

/-- Whether two bounds make a range: at least one of them has to be there. -/
def MakesRange : Option Int → Option Int → Prop
  | none, none => False
  | some m, some n => m ≤ n
  | _, _ => True

/-- In front of points stand spaces or nothing. -/
theorem head?_of_points (h : afterSpaces cs = '.' :: ds) : ∀ x ∈ cs.head?, x = ' ' ∨ x = '.' := by
  cases cs with
  | nil => simp
  | cons y cs =>
    rintro x hx
    obtain rfl := Option.some.inj hx
    by_cases hy : y = ' '
    · exact .inl hy
    · rw [afterSpaces, List.dropWhile_cons_of_neg (by simpa using hy)] at h
      exact .inr (List.cons.inj h).1

/-- In front of points no number begins, and none goes on. -/
theorem not_isDigit_of_points (h : afterSpaces cs = '.' :: ds) :
    (∀ x ∈ cs.head?, x.isDigit = false) ∧ beginsNumber cs = false := by
  have hhead := head?_of_points h
  cases cs with
  | nil => exact ⟨by simp, rfl⟩
  | cons x cs => rcases hhead x rfl with rfl | rfl <;> exact ⟨by simp, rfl⟩

theorem range_iff : Form.range cs () rest ↔ ∃ low ds high, Form.lowerBound cs low ds ∧
    Form.upperBound ds high rest ∧ MakesRange low high ∧ endsWord rest = true := by
  constructor
  · have hstop {rest : List Char} (he : endsWord rest = true) :=
      (delimited_of_endsWord he).isDigit
    intro h
    cases h with
    | single h hp he => exact ⟨_, _, _, .some h (hstop he), .none hp, trivial, he⟩
    | above h hp hn he =>
      exact ⟨_, _, _, .some h (not_isDigit_of_points hp).1, .points hp (.above hn), trivial, he⟩
    | between hm hp hn hq hle he =>
      exact ⟨_, _, _, .some hm (not_isDigit_of_points hp).1, .points hp (.some hn hq (hstop he)),
        hle, he⟩
    | below hp hn hq he =>
      exact ⟨_, _, _, .none (not_isDigit_of_points hp).2, .points hp (.some hn hq (hstop he)),
        trivial, he⟩
  · rintro ⟨low, ds, high, hlow, hhigh, hr, he⟩
    cases hlow with
    | none hn =>
      cases hhigh with
      | none => exact hr.elim
      | points hp h =>
        cases h with
        | above => exact hr.elim
        | some h hq => exact .below hp h hq he
    | some h =>
      cases hhigh with
      | none hp => exact .single h hp he
      | points hp h' =>
        cases h' with
        | above hn => exact .above h hp hn he
        | some h' hq => exact .between h hp h' hq hr he

/-- What is read of a range behind the exclamation mark. -/
def bounds : Reader Unit := do
  let low ← bound?
  let high ← upperBound?
  match low, high with
  | none, none => fail .expectedRange
  | some l, some h => if h < l then fail .impossibleRange else argumentEnd
  | _, _ => argumentEnd

/-- What follows the bounds, if they make a range. -/
theorem bounds_bind_eq_ok {u : Unit} : bounds c = (.ok u, d) ↔ ∃ low c' high c'',
    bound? c = (.ok low, c') ∧ upperBound? c' = (.ok high, c'') ∧ MakesRange low high ∧
      endsWord c''.rest = true ∧ d = c''.skipSpaces := by
  have hmatch (low high : Option Int) (e : Cursor) : (match low, high with
      | none, none => (fail .expectedRange : Reader Unit)
      | some l, some h => if h < l then fail .impossibleRange else argumentEnd
      | _, _ => argumentEnd) e = (.ok u, d) ↔
      MakesRange low high ∧ endsWord e.rest = true ∧ d = e.skipSpaces := by
    rcases low with _ | l <;> rcases high with _ | h
    · simp [MakesRange]
    · simp [MakesRange, argumentEnd_eq_ok]
    · simp [MakesRange, argumentEnd_eq_ok]
    · by_cases hlt : h < l
      · simp [MakesRange, hlt]
      · simp [MakesRange, hlt, argumentEnd_eq_ok, Int.not_lt.mp hlt]
  unfold bounds
  constructor
  · intro h
    obtain ⟨low, c', hlow, h⟩ := bind_eq_ok.mp h
    obtain ⟨high, c'', hhigh, h⟩ := bind_eq_ok.mp h
    exact ⟨low, c', high, c'', hlow, hhigh, (hmatch low high c'').mp h⟩
  · rintro ⟨low, c', high, c'', hlow, hhigh, h⟩
    exact bind_eq_ok.mpr ⟨low, c', hlow,
      bind_eq_ok.mpr ⟨high, c'', hhigh, (hmatch low high c'').mpr h⟩⟩

theorem exact_bounds : bounds.Exact (.spaced .range) where
  sound {c u d} h := by
    obtain ⟨low, c', high, c'', hlow, hhigh, hr, he, rfl⟩ := bounds_bind_eq_ok.mp h
    rw [c''.rest_skipSpaces]
    exact .intro (range_iff.mpr ⟨_, _, _, Exact.sound exact_lowerBound hlow,
      Exact.sound exact_upperBound hhigh, hr, he⟩)
  complete := by
    rintro cs _ _ ⟨h⟩ p
    obtain ⟨low, ds, high, hlow, hhigh, hr, he⟩ := range_iff.mp h
    obtain ⟨c', hc', rfl⟩ := Exact.complete exact_lowerBound hlow p
    obtain ⟨c'', hc'', rfl⟩ := Exact.complete exact_upperBound hhigh c'.position
    exact ⟨c''.skipSpaces, bounds_bind_eq_ok.mpr ⟨_, _, _, _, hc', hc'', hr, he, rfl⟩,
      c''.rest_skipSpaces⟩

/-- Whether a form has an exclamation mark in front of it is told by the next character. -/
theorem negatable_iff {F : Form α} {x : α} (c : Cursor) :
    Form.negatable F c.rest x ds ↔ F (negation c).2.rest x ds := by
  rw [negation_apply]
  split
  · next hat =>
    obtain ⟨cs, hcs⟩ := Cursor.isAt_iff.mp hat
    rw [Cursor.rest_skipSpaces, Cursor.advance_of_rest hcs, hcs]
    refine ⟨fun h => ?_, fun h => .negated (.intro h)⟩
    cases h with
    | plain hn => exact absurd rfl hn
    | negated h =>
      obtain ⟨h⟩ := h
      exact h
  · next hat =>
    have hne : c.rest.head? ≠ some '!' := fun hn =>
      hat (Cursor.isAt_iff.mpr (List.head?_eq_some_iff.mp hn))
    refine ⟨fun h => ?_, .plain hne⟩
    generalize c.rest = cs at *
    cases h with
    | plain _ h => exact h
    | negated h =>
      obtain ⟨-⟩ := h
      exact absurd rfl hne

theorem exact_negation {r : Reader α} {F : Form α} (h : r.Exact F) :
    Exact (negation >>= fun _ => r) (.negatable F) where
  sound {c x d} hr := by
    obtain ⟨u, c', hu, hr⟩ := bind_eq_ok.mp hr
    obtain rfl : (negation c).2 = c' := congrArg Prod.snd hu
    exact (negatable_iff c).mpr (h.sound hr)
  complete {cs x ds} hF p := by
    have hok : negation ⟨cs, p⟩ = (.ok (), (negation ⟨cs, p⟩).2) := by
      unfold negation
      rw [look_bind]
      split
      · next hat =>
        rw [symbol_apply, if_pos hat]
      · rfl
    obtain ⟨d, hr, hd⟩ := h.complete ((negatable_iff ⟨cs, p⟩).mp hF) (negation ⟨cs, p⟩).2.position
    exact ⟨d, bind_eq_ok.mpr ⟨(), _, hok, hr⟩, hd⟩

theorem exact_range : range.Exact (.negatable (.spaced .range)) :=
  exact_negation exact_bounds

end Reader
end BedrockCommand
