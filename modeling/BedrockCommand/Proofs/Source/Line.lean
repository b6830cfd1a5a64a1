import BedrockCommand.Rule.Separator
import Mathlib.Data.List.TakeWhile
/-!
Moving along a line. The text from a cursor on is what is left of its line, and after it the end
of the text or a line break; what follows that cannot be seen from the line.
-/
namespace BedrockCommand

namespace Position

theorem le_refl (p : Position) : p ≤ p :=
  .inr ⟨rfl, Nat.le_refl _⟩

theorem le_of_lt {p q : Position} (h : p < q) : p ≤ q :=
  h.imp_right fun ⟨hl, hc⟩ => ⟨hl, Nat.le_of_lt hc⟩

theorem le_trans {p q r : Position} (h : p ≤ q) (h' : q ≤ r) : p ≤ r := by
  rcases h with h | ⟨h, hc⟩ <;> rcases h' with h' | ⟨h', hc'⟩
  · exact .inl (Nat.lt_trans h h')
  · exact .inl (h' ▸ h)
  · exact .inl (h ▸ h')
  · exact .inr ⟨h.trans h', Nat.le_trans hc hc'⟩

theorem le_total (p q : Position) : p ≤ q ∨ q ≤ p := by
  rcases Nat.lt_trichotomy p.line q.line with h | h | h
  · exact .inl (.inl h)
  · exact (Nat.le_total p.column q.column).imp (fun hc => .inr ⟨h, hc⟩) fun hc => .inr ⟨h.symm, hc⟩
  · exact .inr (.inl h)

theorem not_lt_of_le {p q : Position} (h : p ≤ q) : ¬ q < p := by
  rintro (h' | ⟨h', hc'⟩) <;> rcases h with h | ⟨h, hc⟩ <;> omega

theorem lt_of_lt_of_le {p q r : Position} (h : p < q) (h' : q ≤ r) : p < r := by
  rcases h with h | ⟨h, hc⟩ <;> rcases h' with h' | ⟨h', hc'⟩
  · exact .inl (Nat.lt_trans h h')
  · exact .inl (h' ▸ h)
  · exact .inl (h ▸ h')
  · exact .inr ⟨h.trans h', Nat.lt_of_lt_of_le hc hc'⟩

theorem not_le_of_lt {p q : Position} (h : p < q) : ¬ q ≤ p :=
  fun h' => not_lt_of_le h' h

theorem le_next (p : Position) (x : Char) : p ≤ p.next x := by
  unfold next
  split
  · exact .inl (Nat.lt_succ_self _)
  · exact .inr ⟨rfl, Nat.le_succ _⟩

theorem le_after (p : Position) (cs : List Char) : p ≤ p.after cs := by
  induction cs generalizing p with
  | nil => exact le_refl p
  | cons x cs ih => exact le_trans (le_next p x) (ih (p.next x))

/-- Along a line only the column grows. -/
theorem after_of_notMem {cs : List Char} (h : '\n' ∉ cs) (p : Position) :
    p.after cs = ⟨p.line, p.column + cs.length⟩ := by
  induction cs generalizing p with
  | nil => rfl
  | cons x cs ih =>
    obtain ⟨hx, hcs⟩ := not_or.mp (List.mem_cons.not.mp h)
    rw [after_cons, ih hcs, next, if_neg (Ne.symm hx)]
    simp only [List.length_cons]
    congr 1
    omega

end Position

/-- The end of a line: the end of the text, or a line break. -/
def LineEnd (tail : List Char) : Prop :=
  ∀ x ∈ tail.head?, x = '\n'

theorem lineEnd_nil : LineEnd [] := by
  simp [LineEnd]

theorem LineEnd.cases {tail : List Char} (h : LineEnd tail) :
    tail = [] ∨ ∃ cs, tail = '\n' :: cs := by
  cases tail with
  | nil => exact .inl rfl
  | cons x cs => exact .inr ⟨cs, by rw [h x rfl]⟩

/-- A backslash and a quote do not come together where a line meets its end. -/
theorem LineEnd.escape_append {tail : List Char} (h : LineEnd tail) {x : Char} {line : List Char}
    (hx : ∀ cs, x = '\\' → line = '"' :: cs → False) (cs : List Char) :
    x = '\\' → line ++ tail = '"' :: cs → False := by
  intro hb hq
  cases line with
  | nil => rcases h.cases with rfl | ⟨ds, rfl⟩ <;> simp at hq
  | cons y line => exact hx line hb (by simp [(List.cons.inj hq).1])

/-- A run of characters that does not take in the end of the line ends on the line. -/
theorem LineEnd.takeWhile_append {tail : List Char} (h : LineEnd tail) {p : Char → Bool}
    (hp : p '\n' = false) (line : List Char) :
    (line ++ tail).takeWhile p = line.takeWhile p := by
  induction line with
  | nil => rcases h.cases with rfl | ⟨cs, rfl⟩ <;> simp [hp]
  | cons x line ih => simp only [List.cons_append, List.takeWhile_cons, ih]

namespace Cursor

variable {line tail : List Char} {p : Position}

theorem line_append (h : LineEnd tail) (hl : '\n' ∉ line) :
    (Cursor.mk (line ++ tail) p).line = line := by
  unfold Cursor.line Cursor.ahead
  rw [h.takeWhile_append (by decide)]
  exact List.takeWhile_eq_self_iff.mpr fun x hx => by
    simpa using fun e : x = '\n' => hl (e ▸ hx)

theorem newline_notMem_line (c : Cursor) : '\n' ∉ c.line := by
  intro h
  simpa using List.mem_takeWhile_imp h

/-- Every cursor stands on a line. -/
theorem exists_line (c : Cursor) : ∃ tail, LineEnd tail ∧ c = ⟨c.line ++ tail, c.position⟩ := by
  refine ⟨c.rest.dropWhile (· ≠ '\n'), ?_, ?_⟩
  · intro x hx
    have := List.head?_dropWhile_not (p := (· ≠ '\n')) (l := c.rest)
    rw [Option.mem_def.mp hx] at this
    simpa using this
  · unfold Cursor.line Cursor.ahead
    rw [List.takeWhile_append_dropWhile]

/-- One cursor further along the line of another, or at the same place. -/
def Ahead (c d : Cursor) : Prop :=
  ∃ cs, '\n' ∉ cs ∧ c.rest = cs ++ d.rest ∧ d.position = c.position.after cs

namespace Ahead

theorem refl (c : Cursor) : c.Ahead c :=
  ⟨[], by simp, by simp, rfl⟩

theorem trans {c d e : Cursor} (h : c.Ahead d) (h' : d.Ahead e) : c.Ahead e := by
  obtain ⟨cs, hn, hr, hp⟩ := h
  obtain ⟨ds, hn', hr', hp'⟩ := h'
  refine ⟨cs ++ ds, by simp [hn, hn'], ?_, ?_⟩
  · rw [hr, hr', List.append_assoc]
  · rw [hp', hp, Position.after_append]

theorem position_le {c d : Cursor} (h : c.Ahead d) : c.position ≤ d.position := by
  obtain ⟨cs, _, _, hp⟩ := h
  exact hp ▸ c.position.le_after cs

/-- Along a line, a place with less text behind it comes later. -/
theorem position_lt {c d : Cursor} (h : c.Ahead d) (hl : d.rest.length < c.rest.length) :
    c.position < d.position := by
  obtain ⟨cs, hn, hr, hp⟩ := h
  rw [hp, Position.after_of_notMem hn]
  rw [hr, List.length_append] at hl
  exact .inr ⟨rfl, by simp only; omega⟩

theorem length_le {c d : Cursor} (h : c.Ahead d) : d.rest.length ≤ c.rest.length := by
  obtain ⟨cs, _, hr, _⟩ := h
  simp [hr]

/-- What is left of a text without line breaks has none either. -/
theorem notMem {c d : Cursor} (h : c.Ahead d) (hc : '\n' ∉ c.rest) : '\n' ∉ d.rest := by
  obtain ⟨cs, _, hr, _⟩ := h
  exact fun hd => hc (hr ▸ List.mem_append_right cs hd)

theorem line_eq {c d : Cursor} (h : c.Ahead d) : d.position.line = c.position.line := by
  obtain ⟨cs, hn, _, hp⟩ := h
  rw [hp, Position.after_of_notMem hn]

/-- The line gets shorter by as much as the text does. -/
theorem length_line {c d : Cursor} (h : c.Ahead d) :
    c.line.length + d.rest.length = d.line.length + c.rest.length := by
  obtain ⟨cs, hn, hr, _⟩ := h
  have hline : c.line = cs ++ d.line := by
    unfold Cursor.line Cursor.ahead
    rw [hr, List.takeWhile_append_of_pos]
    exact fun x hx => by simpa using fun e : x = '\n' => hn (e ▸ hx)
  rw [hline, hr, List.length_append, List.length_append]
  omega

theorem length_line_le {c d : Cursor} (h : c.Ahead d) : d.line.length ≤ c.line.length := by
  have := h.length_line
  have := h.length_le
  omega

theorem line_eq_nil {c d : Cursor} (h : c.Ahead d) (hc : c.line = []) : d.line = [] := by
  simpa [hc] using h.length_line_le

/-- At the end of the text everything has been passed over. -/
theorem eq_of_rest {c d : Cursor} (h : c.Ahead d) (hd : d.rest = []) :
    d = ⟨[], c.position.after c.rest⟩ := by
  obtain ⟨cs, _, hr, hp⟩ := h
  rw [hd, List.append_nil] at hr
  obtain ⟨rest, p⟩ := d
  obtain rfl : rest = [] := hd
  rw [hr, ← hp]

end Ahead

/-- A cursor on a line, after some characters of it. -/
theorem skip_append (tail : List Char) (p : Position) {n : Nat} (h : n ≤ line.length) :
    (Cursor.mk (line ++ tail) p).skip n = ⟨line.drop n ++ tail, p.after (line.take n)⟩ := by
  simp only [skip, List.drop_append_of_le_length h, List.take_append_of_le_length h]

/-- Past a text. -/
theorem skip_append_of_length (cs rest : List Char) (p : Position) {n : Nat}
    (hn : cs.length = n) : (Cursor.mk (cs ++ rest) p).skip n = ⟨rest, p.after cs⟩ := by
  rw [skip_append _ _ (Nat.le_of_eq hn.symm), ← hn]
  simp

theorem skip_skip (c : Cursor) (m n : Nat) : (c.skip m).skip n = c.skip (m + n) := by
  simp [skip, ← Position.after_append, List.take_add]

theorem skipWhile_eq (c : Cursor) (q : Char → Bool) : c.skipWhile q =
    ⟨c.rest.dropWhile q, c.position.after (c.rest.takeWhile q)⟩ := by
  have h := skip_append (c.rest.dropWhile q) c.position (Nat.le_refl (c.rest.takeWhile q).length)
  rw [List.takeWhile_append_dropWhile] at h
  simpa [skipWhile, ahead] using h

theorem ahead_append (tail : List Char) (p : Position) (hl : '\n' ∉ line) (n : Nat) :
    (Cursor.mk (line ++ tail) p).Ahead ⟨line.drop n ++ tail, p.after (line.take n)⟩ :=
  ⟨line.take n, fun h => hl (List.mem_of_mem_take h), by simp [← List.append_assoc], rfl⟩

theorem ahead_skip (c : Cursor) {n : Nat} (h : n ≤ c.line.length) : c.Ahead (c.skip n) := by
  obtain ⟨tail, _, hc⟩ := c.exists_line
  have := ahead_append tail c.position c.newline_notMem_line n
  rwa [← skip_append tail c.position h, ← hc] at this

theorem line_skip (c : Cursor) {n : Nat} (h : n ≤ c.line.length) :
    (c.skip n).line = c.line.drop n := by
  obtain ⟨tail, ht, hc⟩ := c.exists_line
  have hl := line_append (p := c.position.after (c.line.take n)) ht fun h' =>
    c.newline_notMem_line (List.mem_of_mem_drop (i := n) h')
  rwa [← skip_append tail c.position h, ← hc] at hl

theorem position_skip (c : Cursor) {n : Nat} (h : n ≤ c.line.length) :
    (c.skip n).position = c.position.after (c.line.take n) := by
  obtain ⟨tail, _, hc⟩ := c.exists_line
  have := congrArg position (skip_append tail c.position h)
  rwa [← hc] at this

theorem length_ahead_le (c : Cursor) {q : Char → Bool} (hq : q '\n' = false) :
    (c.ahead q).length ≤ c.line.length := by
  obtain ⟨tail, ht, hc⟩ := c.exists_line
  rw [Cursor.ahead, hc, ht.takeWhile_append hq, line_append ht c.newline_notMem_line]
  exact (List.takeWhile_prefix q).length_le

theorem ahead_skipWhile (c : Cursor) {q : Char → Bool} (hq : q '\n' = false) :
    c.Ahead (c.skipWhile q) :=
  c.ahead_skip (c.length_ahead_le hq)

theorem ahead_skipSpaces (c : Cursor) : c.Ahead c.skipSpaces :=
  c.ahead_skipWhile (by decide)

theorem head?_skipSpaces (c : Cursor) : c.skipSpaces.rest.head? ≠ some ' ' := by
  intro h
  rw [skipSpaces, skipWhile_eq] at h
  have := List.head?_dropWhile_not (p := (· = ' ')) (l := c.rest)
  simp [h] at this

theorem skipSpaces_space (rest : List Char) (p : Position) :
    (Cursor.mk (' ' :: rest) p).skipSpaces = (Cursor.mk rest (p.next ' ')).skipSpaces := by
  simp [skipSpaces, skipWhile_eq]

theorem skipSpaces_eq_self {c : Cursor} (h : c.rest.head? ≠ some ' ') : c.skipSpaces = c := by
  obtain ⟨_ | ⟨x, rest⟩, p⟩ := c
  · rfl
  · have hx : x ≠ ' ' := by simpa using h
    simp [skipSpaces, skipWhile_eq, hx]

theorem skipSpaces_skipSpaces (c : Cursor) : c.skipSpaces.skipSpaces = c.skipSpaces :=
  skipSpaces_eq_self c.head?_skipSpaces

theorem ahead_toLineEnd (c : Cursor) : c.Ahead c.toLineEnd :=
  c.ahead_skip (Nat.le_refl _)

@[simp] theorem isAt_nil (p : Position) (x : Char) : (Cursor.mk [] p).isAt x = false := rfl

@[simp] theorem isAt_cons (y : Char) (cs : List Char) (p : Position) (x : Char) :
    (Cursor.mk (y :: cs) p).isAt x = decide (y = x) := rfl

theorem isAt_iff {c : Cursor} {x : Char} : c.isAt x = true ↔ ∃ cs, c.rest = x :: cs := by
  unfold isAt
  cases c.rest <;> simp [eq_comm]

/-- At one character a cursor is at no other. -/
theorem isAt_eq_false {c : Cursor} {x y : Char} (h : c.isAt x = true) (hne : x ≠ y) :
    c.isAt y = false := by
  obtain ⟨cs, hr⟩ := isAt_iff.mp h
  simpa [isAt, hr] using hne

theorem lineContinues_iff {c : Cursor} : c.lineContinues = true ↔ c.line ≠ [] := by
  unfold lineContinues Cursor.line Cursor.ahead
  cases c.rest with
  | nil => simp
  | cons x cs => by_cases h : x = '\n' <;> simp [h]

theorem lineContinues_eq_false_iff {c : Cursor} : c.lineContinues = false ↔ c.line = [] := by
  rw [Bool.eq_false_iff, ne_eq, lineContinues_iff, not_not]

/-- A character that is no line break is left of its line. -/
theorem line_ne_nil_of_isAt {c : Cursor} {x : Char} (hx : x ≠ '\n') (h : c.isAt x = true) :
    c.line ≠ [] := by
  obtain ⟨cs, hr⟩ := isAt_iff.mp h
  exact lineContinues_iff.mp (by simpa [lineContinues, hr] using hx)

/-- Away from the ends of lines, something is left of the line. -/
theorem line_ne_nil {c : Cursor} (he : c.atEnd = false) (hn : c.isAt '\n' = false) :
    c.line ≠ [] := by
  obtain ⟨_ | ⟨x, cs⟩, p⟩ := c
  · simp [atEnd] at he
  · exact line_ne_nil_of_isAt (x := x) (by simpa using hn) (by simp)

theorem advance_of_rest {c : Cursor} {x : Char} {cs : List Char} (h : c.rest = x :: cs) :
    c.advance = ⟨cs, c.position.next x⟩ := by
  simp [advance, skip, h]

theorem ahead_advance {c : Cursor} {x : Char} (hx : x ≠ '\n') (h : c.isAt x = true) :
    c.Ahead c.advance := by
  obtain ⟨cs, hr⟩ := isAt_iff.mp h
  rw [advance_of_rest hr]
  exact ⟨[x], by simp [Ne.symm hx], by simp [hr], rfl⟩

theorem length_line_advance {c : Cursor} {x : Char} (hx : x ≠ '\n') (h : c.isAt x = true) :
    c.advance.line.length < c.line.length := by
  obtain ⟨cs, hr⟩ := isAt_iff.mp h
  have := (ahead_advance hx h).length_line
  simp only [advance_of_rest hr, hr, List.length_cons] at this ⊢
  omega

/-- A text without line breaks is all left of its line. -/
theorem line_eq_rest {c : Cursor} (h : '\n' ∉ c.rest) : c.line = c.rest :=
  List.takeWhile_eq_self_iff.mpr fun x hx => by simpa using fun e : x = '\n' => h (e ▸ hx)

theorem atEnd_iff {c : Cursor} : c.atEnd = true ↔ c.rest = [] := by
  simp [atEnd]

theorem toLineEnd_append (h : LineEnd tail) (hl : '\n' ∉ line) :
    (Cursor.mk (line ++ tail) p).toLineEnd = ⟨tail, p.after line⟩ := by
  rw [toLineEnd, line_append h hl, skip_append _ _ (Nat.le_refl _)]
  simp

theorem rest_toLineEnd {c : Cursor} (h : '\n' ∉ c.rest) : c.toLineEnd.rest = [] := by
  have := toLineEnd_append (p := c.position) lineEnd_nil h
  rw [List.append_nil] at this
  exact congrArg rest this

theorem lineEnd_of_line {c : Cursor} (h : c.line = []) : LineEnd c.rest := by
  obtain ⟨tail, ht, hc⟩ := c.exists_line
  rw [hc, h]
  exact ht

/-- There is one end of a line. -/
theorem Ahead.eq_toLineEnd {c d : Cursor} (h : c.Ahead d) (hd : d.line = []) :
    d = c.toLineEnd := by
  obtain ⟨cs, hn, hr, hp⟩ := h
  have := toLineEnd_append (p := c.position) (lineEnd_of_line hd) hn
  rw [← hr, ← hp] at this
  exact this.symm

theorem line_toLineEnd (c : Cursor) : c.toLineEnd.line = [] := by
  obtain ⟨tail, ht, hc⟩ := c.exists_line
  rw [hc, toLineEnd_append ht c.newline_notMem_line]
  have hnil : '\n' ∉ ([] : List Char) := by simp
  exact line_append ht hnil

/-- What lies ahead on a line has the same end. -/
theorem Ahead.toLineEnd_eq {c d : Cursor} (h : c.Ahead d) : d.toLineEnd = c.toLineEnd :=
  (h.trans d.ahead_toLineEnd).eq_toLineEnd d.line_toLineEnd

end Cursor
end BedrockCommand
