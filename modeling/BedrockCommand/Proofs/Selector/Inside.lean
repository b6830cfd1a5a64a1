import BedrockCommand.Proofs.Rule.Agree
import BedrockCommand.Proofs.Selector.Closes
import BedrockCommand.Proofs.Source.Alike
/-!
Cursors inside an option that stands in two places. What is left of the option is the same in both
of them, but the selectors may go on differently behind it. Two readings of the option cannot tell
the places apart as long as all that they ask has the same answer in front of a comma and in front
of the closing bracket; only the list of options itself asks for more.
-/
namespace BedrockCommand

/-- Two places for an option: what follows it there, and how positions in the first place are taken
to the second one. -/
structure Places where
  move : Position → Position
  first : List Char
  second : List Char
  moves : Position.MovesLines move
  separates_first : Separates first
  separates_second : Separates second

variable {w : Places} {opened : List Brackets} {b : Brackets} {x : Char}
  {u tail tail' : List Char} {p : Position}

namespace Cursor

/-- Two cursors inside an option with some brackets open, one in each of two places. -/
structure Inside (w : Places) (opened : List Brackets) (c d : Cursor) : Prop where
  text : ∃ u, '\n' ∉ u ∧ closes opened false u = true ∧ c.rest = u ++ w.first ∧
    d.rest = u ++ w.second
  position : d.position = w.move c.position

variable {c d : Cursor}

theorem Inside.cases (h : Inside w opened c d) : ∃ u p, '\n' ∉ u ∧
    closes opened false u = true ∧ c = ⟨u ++ w.first, p⟩ ∧ d = ⟨u ++ w.second, w.move p⟩ := by
  obtain ⟨⟨u, hn, hc, hr, hr'⟩, hp⟩ := h
  exact ⟨u, c.position, hn, hc, by rw [← hr], by rw [← hr', ← hp]⟩

/-- Behind a part of an option. -/
theorem inside_after {v : List Char} (hv : '\n' ∉ v) (hn : '\n' ∉ u)
    (hc : closes opened false u = true) (p : Position) :
    Inside w opened ⟨u ++ w.first, p.after v⟩ ⟨u ++ w.second, (w.move p).after v⟩ :=
  ⟨⟨u, hn, hc, rfl, rfl⟩, (w.moves.after hv p).symm⟩

/-! ## What is seen from inside an option -/

/-- What says the same of a text inside an option, whatever follows the option. -/
def SeesInside (f : Cursor → α) : Prop :=
  ∀ u tail tail' p q, Separates tail → Separates tail' → f ⟨u ++ tail, p⟩ = f ⟨u ++ tail', q⟩

theorem Inside.sees (h : Inside w opened c d) {f : Cursor → α} (hf : SeesInside f) :
    f d = f c := by
  obtain ⟨u, p, -, -, rfl, rfl⟩ := h.cases
  exact hf _ _ _ _ _ w.separates_second w.separates_first

theorem SeesInside.map₂ {f : Cursor → α} {f' : Cursor → β} (hf : SeesInside f)
    (hf' : SeesInside f') (g : α → β → γ) : SeesInside fun c => g (f c) (f' c) :=
  fun u _ _ p q ht ht' => congr (congrArg g (hf u _ _ p q ht ht')) (hf' u _ _ p q ht ht')

/-- What the next character says, if it says the same of what may follow an option. -/
theorem seesInside_head? {g : Option Char → α} (hg : g (some ',') = g (some ']')) :
    SeesInside fun c => g c.rest.head? := by
  rintro u _ _ p q ⟨x, cs, rfl, hx⟩ ⟨y, ds, rfl, hy⟩
  cases u with
  | cons z u => rfl
  | nil => rcases hx with rfl | rfl <;> rcases hy with rfl | rfl <;> simp [hg]

theorem isAt_eq_head? (c : Cursor) (x : Char) : c.isAt x = decide (c.rest.head? = some x) := by
  unfold isAt
  cases c.rest <;> simp

theorem seesInside_isAt (hx : x ≠ ',') (hx' : x ≠ ']') : SeesInside (·.isAt x) := by
  simp only [isAt_eq_head?]
  exact seesInside_head? (g := fun o => decide (o = some x)) (by simp [hx.symm, hx'.symm])

/-- Only a mark tells what may follow an option apart. -/
theorem Inside.isAt_of_notMem (h : Inside w opened c d) (hx : x ∉ listMarks) :
    d.isAt x = c.isAt x := by
  refine h.sees (seesInside_isAt ?_ ?_)
  all_goals
    rintro rfl
    exact hx (by decide)

theorem seesInside_head?_any {q : Char → Bool} (hq : listMarks.any q = false) :
    SeesInside (·.rest.head?.any q) :=
  seesInside_head? (g := Option.any q) (by
    rw [Option.any_some, Option.any_some, eq_false_of_mem_listMarks hq (by decide),
      eq_false_of_mem_listMarks hq (by decide)])

theorem seesInside_terminated : SeesInside terminated := by
  have heq : terminated = fun c => c.rest.head?.all isTerminating := by
    funext c
    unfold terminated
    cases c.rest <;> rfl
  exact heq ▸ seesInside_head? (g := Option.all isTerminating) (by decide)

theorem Separates.takeWhile_append {q : Char → Bool} (hq : listMarks.any q = false)
    (ht : Separates tail) (u : List Char) : (u ++ tail).takeWhile q = u.takeWhile q ∧
      (u ++ tail).dropWhile q = u.dropWhile q ++ tail := by
  obtain ⟨x, cs, rfl, hx⟩ := ht
  have hfalse : q x = false := by
    rcases hx with rfl | rfl
    all_goals exact eq_false_of_mem_listMarks hq (by decide)
  induction u with
  | nil => simp [hfalse]
  | cons y u ih =>
    rw [List.cons_append, List.takeWhile_cons, List.dropWhile_cons, List.takeWhile_cons,
      List.dropWhile_cons]
    split
    · exact ⟨by rw [ih.1], ih.2⟩
    · exact ⟨rfl, rfl⟩

/-- Past a run of characters in front of what may follow an option. -/
theorem skipWhile_append {q : Char → Bool} (hq : listMarks.any q = false)
    (ht : Separates tail) (u : List Char) (p : Position) :
    (Cursor.mk (u ++ tail) p).skipWhile q =
      ⟨u.dropWhile q ++ tail, p.after (u.takeWhile q)⟩ := by
  rw [skipWhile_eq]
  simp only [Separates.takeWhile_append hq ht u]

theorem seesInside_ahead {q : Char → Bool} (hq : listMarks.any q = false) :
    SeesInside (·.ahead q) := by
  intro u tail tail' p p' ht ht'
  simp only [ahead]
  rw [(Separates.takeWhile_append hq ht u).1,
    (Separates.takeWhile_append hq ht' u).1]

/-! ## Moves inside an option -/

namespace Inside

theorem skipWhile (h : Inside w opened c d) {q : Char → Bool}
    (hq : listMarks.any q = false) : Inside w opened (c.skipWhile q) (d.skipWhile q) := by
  obtain ⟨u, p, hn, hc, rfl, rfl⟩ := h.cases
  rw [skipWhile_append hq w.separates_first, skipWhile_append hq w.separates_second]
  exact inside_after (fun hmem => hn ((List.takeWhile_prefix q).subset hmem))
    (fun hmem => hn ((List.dropWhile_suffix q).subset hmem)) (closes_dropWhile hq hc) p

theorem skipSpaces (h : Inside w opened c d) :
    Inside w opened c.skipSpaces d.skipSpaces :=
  h.skipWhile rfl

/-- Past a character of the option, if it is clear what is open behind it. -/
theorem advance {opened' : List Brackets} (h : Inside w opened c d)
    (hx : c.isAt x = true) (hmark : ∀ u, closes opened false (x :: u) = true →
      closes opened' false u = true) (hne : opened = [] → x ≠ ',' ∧ x ≠ ']') :
    Inside w opened' c.advance d.advance := by
  obtain ⟨u, p, hn, hc, rfl, rfl⟩ := h.cases
  cases u with
  | nil =>
    obtain ⟨y, cs, hfirst, hy⟩ := w.separates_first
    obtain rfl : y = x := by simpa [hfirst] using hx
    have hopened : opened = [] := by simpa [closes] using hc
    exact absurd hy (not_or.mpr (hne hopened))
  | cons y u =>
    obtain rfl : y = x := by simpa using hx
    rw [advance_of_rest rfl, advance_of_rest rfl]
    obtain ⟨hy, hn⟩ := not_or.mp (List.mem_cons.not.mp hn)
    exact inside_after (v := [y]) (by simpa using hy) hn (hmark u hc) p

theorem advance_neutral (h : Inside w opened c d) (hx : x ∉ listMarks)
    (hat : c.isAt x = true) : Inside w opened c.advance d.advance := by
  refine h.advance hat (fun u hu => closes_neutral hx ▸ hu) fun _ => ⟨?_, ?_⟩
  all_goals
    rintro rfl
    exact hx (by decide)

/-- At the place where the list around goes on. -/
theorem toSeparator (h : Inside w opened c d) :
    Inside w opened (c.toSeparator (innermost opened).closing)
      (d.toSeparator (innermost opened).closing) := by
  obtain ⟨u, p, hn, hc, rfl, rfl⟩ := h.cases
  have hinner : closes ([] ++ opened) false u = true := hc
  obtain ⟨hoff, hclosed⟩ := separatorOffset_closes hinner hn w.separates_first
  obtain ⟨hoff', -⟩ := separatorOffset_closes hinner hn w.separates_second
  have hle := separatorOffset_le (innermost opened).closing false 0 u
  rw [List.length_nil] at hoff hoff' hclosed
  simp only [Cursor.toSeparator, hoff, hoff', skip_append _ _ hle]
  exact inside_after (fun hmem => hn (List.mem_of_mem_take hmem))
    (fun hmem => hn (List.mem_of_mem_drop hmem)) hclosed p

theorem lineContinues_append (hn : '\n' ∉ u) (ht : Separates tail) (p : Position) :
    (Cursor.mk (u ++ tail) p).lineContinues = true := by
  obtain ⟨x, cs, rfl, hx⟩ := ht
  cases u with
  | nil => rcases hx with rfl | rfl <;> rfl
  | cons y u => simpa [Cursor.lineContinues] using fun e : y = '\n' => hn (by simp [e])

/-- The line goes on inside an option, if only with what follows the option. -/
theorem lineContinues (h : Inside w opened c d) :
    c.lineContinues = true ∧ d.lineContinues = true := by
  obtain ⟨u, p, hn, -, rfl, rfl⟩ := h.cases
  exact ⟨lineContinues_append hn w.separates_first p, lineContinues_append hn w.separates_second _⟩

/-- Where something is open, the option has not ended. -/
theorem head?_eq (h : Inside w (b :: opened) c d) : d.rest.head? = c.rest.head? := by
  obtain ⟨u, p, -, hc, rfl, rfl⟩ := h.cases
  cases u with
  | nil => simp [closes] at hc
  | cons y u => rfl

theorem isAt_eq (h : Inside w (b :: opened) c d) (x : Char) : d.isAt x = c.isAt x := by
  rw [isAt_eq_head?, isAt_eq_head?, h.head?_eq]

end Inside

/-- What is inside a list inside an option. -/
theorem nests_inside (b : Brackets) :
    Nests b (Inside w opened) (Inside w (b :: opened)) := by
  have hopening : b.opening ≠ ',' ∧ b.opening ≠ ']' := by cases b <;> decide
  exact {
    isAt_opening h := h.sees (seesInside_isAt hopening.1 hopening.2)
    opening h hat := h.advance hat (fun u hu => closes_opening b ▸ hu) fun _ => hopening
    spaces h := h.skipSpaces
    isAt_closing h := h.isAt_eq _
    isAt_comma h := h.isAt_eq _
    lineContinues h := h.lineContinues.2.trans h.lineContinues.1.symm
    comma h hat := h.advance hat
      (fun u hu => (Bool.and_eq_true_iff.mp (closes_comma ▸ hu)).2) (by simp)
    separator h := h.toSeparator
    closing h hat :=
      (h.advance hat (fun u hu => (Bool.and_eq_true_iff.mp (closes_closing b ▸ hu)).2)
        (by simp)).skipSpaces
    lineEnd h hl := absurd h.lineContinues.1 (by simp [hl]) }

end Cursor
end BedrockCommand
