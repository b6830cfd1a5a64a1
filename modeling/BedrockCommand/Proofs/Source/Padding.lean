import BedrockCommand.Proofs.Reader.OnLine
/-!
Lines that are the same but for the number of spaces at their ends. What is asked about the
characters of such lines has the same answer, and moving along them keeps them the same. Whether
anything is left of them may differ, until the spaces are passed over.
-/
namespace BedrockCommand

namespace Text

/-- Texts that are the same but for the number of spaces at their ends. -/
def Padded (cs ds : List Char) : Prop :=
  ∃ text m n, cs = text ++ List.replicate m ' ' ∧ ds = text ++ List.replicate n ' '

namespace Padded

variable {cs ds : List Char}

theorem refl (cs : List Char) : Padded cs cs :=
  ⟨cs, 0, 0, by simp, by simp⟩

theorem symm (h : Padded cs ds) : Padded ds cs := by
  obtain ⟨text, m, n, hc, hd⟩ := h
  exact ⟨text, n, m, hd, hc⟩

theorem append_spaces (cs : List Char) (n : Nat) : Padded cs (cs ++ List.replicate n ' ') :=
  ⟨cs, 0, n, by simp, rfl⟩

theorem mem (h : Padded cs ds) {x : Char} (hx : x ≠ ' ') : x ∈ ds ↔ x ∈ cs := by
  obtain ⟨text, m, n, rfl, rfl⟩ := h
  simp [List.mem_replicate, hx]

/-- Some characters from the front may go, be they of the text or spaces. -/
theorem drop (h : Padded cs ds) (k : Nat) : Padded (cs.drop k) (ds.drop k) := by
  obtain ⟨text, m, n, rfl, rfl⟩ := h
  refine ⟨text.drop k, m - (k - text.length), n - (k - text.length), ?_, ?_⟩
  all_goals rw [List.drop_append, List.drop_replicate]

/-- A run of characters none of which is a space ends where the text does, or before. -/
theorem takeWhile (h : Padded cs ds) {p : Char → Bool} (hp : p ' ' = false) :
    ds.takeWhile p = cs.takeWhile p := by
  obtain ⟨text, m, n, rfl, rfl⟩ := h
  have hspaces (k : Nat) : (List.replicate k ' ').takeWhile p = [] := by
    cases k <;> simp [List.replicate_succ, hp]
  induction text with
  | nil => simp only [List.nil_append, hspaces]
  | cons x text ih => simp only [List.cons_append, List.takeWhile_cons, ih]

theorem head?_any (h : Padded cs ds) {p : Char → Bool} (hp : p ' ' = false) :
    ds.head?.any p = cs.head?.any p := by
  obtain ⟨text, m, n, rfl, rfl⟩ := h
  cases text with
  | nil => cases m <;> cases n <;> simp [List.replicate_succ, hp]
  | cons x text => rfl

/-- Past the spaces in front, nothing is left of both texts, or something of both. -/
theorem dropWhile_spaces (h : Padded cs ds) :
    Padded (cs.dropWhile (· = ' ')) (ds.dropWhile (· = ' ')) ∧
      (ds.dropWhile (· = ' ') = [] ↔ cs.dropWhile (· = ' ') = []) := by
  obtain ⟨text, m, n, rfl, rfl⟩ := h
  have hspaces (k : Nat) : (List.replicate k ' ').dropWhile (· = ' ') = [] := by
    simp
  induction text with
  | nil =>
    simp only [List.nil_append, hspaces]
    exact ⟨refl [], trivial⟩
  | cons x text ih =>
    simp only [List.cons_append, List.dropWhile_cons]
    split
    · exact ih
    · exact ⟨⟨x :: text, m, n, rfl, rfl⟩, by simp⟩

theorem trimEnd (h : Padded cs ds) : trimEnd ds = trimEnd cs := by
  obtain ⟨text, m, n, rfl, rfl⟩ := h
  have hspaces (k : Nat) : Text.trimEnd (List.replicate k ' ') = [] := by
    induction k with
    | zero => rfl
    | succ k ih => simp [List.replicate_succ, Text.trimEnd, ih, isBlank]
  induction text with
  | nil => simp only [List.nil_append, hspaces]
  | cons x text ih => simp only [List.cons_append, Text.trimEnd, ih]

theorem isPrefixOf (h : Padded cs ds) {w : List Char} (hw : ' ' ∉ w) :
    w.isPrefixOf ds = w.isPrefixOf cs := by
  obtain ⟨text, m, n, rfl, rfl⟩ := h
  induction w generalizing text with
  | nil => simp
  | cons y w ih =>
    obtain ⟨hy, hw⟩ := not_or.mp (List.mem_cons.not.mp hw)
    cases text with
    | nil =>
      have hy : (y == ' ') = false := by simpa using Ne.symm hy
      cases m <;> cases n <;> simp [List.replicate_succ, List.isPrefixOf, hy]
    | cons x text => simp [List.isPrefixOf, ih hw]

end Padded
end Text

namespace Cursor

/-- What is left of two texts without line breaks is the same but for the spaces at the ends. -/
structure Padded (c d : Cursor) : Prop where
  rest : Text.Padded c.rest d.rest
  newline : '\n' ∉ c.rest

/-- The same, and nothing is left of both texts or something of both. -/
structure Flush (c d : Cursor) : Prop where
  padded : Padded c d
  atEnd : d.atEnd = c.atEnd

namespace Padded

variable {c d : Cursor}

theorem newline' (h : Padded c d) : '\n' ∉ d.rest :=
  fun hd => h.newline ((h.rest.mem (by decide)).mp hd)

theorem symm (h : Padded c d) : Padded d c :=
  ⟨h.rest.symm, h.newline'⟩

theorem head?_any (h : Padded c d) {p : Char → Bool} (hp : p ' ' = false) :
    d.rest.head?.any p = c.rest.head?.any p :=
  h.rest.head?_any hp

theorem isAt (h : Padded c d) {x : Char} (hx : x ≠ ' ') : d.isAt x = c.isAt x := by
  have hany (e : Cursor) : e.isAt x = e.rest.head?.any (fun y => decide (y = x)) := by
    unfold Cursor.isAt
    cases e.rest <;> rfl
  rw [hany, hany]
  exact h.head?_any (by simpa using Ne.symm hx)

theorem ahead (h : Padded c d) {p : Char → Bool} (hp : p ' ' = false) : d.ahead p = c.ahead p :=
  h.rest.takeWhile hp

/-- A space ends a word as the end of the text does. -/
theorem terminated (h : Padded c d) : d.terminated = c.terminated := by
  have hany (e : Cursor) : e.terminated = !e.rest.head?.any (fun y => !isTerminating y) := by
    unfold Cursor.terminated
    cases e.rest <;> simp
  rw [hany, hany, h.head?_any (by decide)]

theorem skip (h : Padded c d) (n : Nat) : Padded (c.skip n) (d.skip n) :=
  ⟨h.rest.drop n, fun hn => h.newline (List.mem_of_mem_drop hn)⟩

theorem advance (h : Padded c d) : Padded c.advance d.advance :=
  h.skip 1

theorem skipWhile (h : Padded c d) {p : Char → Bool} (hp : p ' ' = false) :
    Padded (c.skipWhile p) (d.skipWhile p) := by
  rw [Cursor.skipWhile, Cursor.skipWhile, h.ahead hp]
  exact h.skip _

theorem skipSpaces (h : Padded c d) : Flush c.skipSpaces d.skipSpaces := by
  obtain ⟨hrest, hend⟩ := h.rest.dropWhile_spaces
  have hnewline := c.ahead_skipSpaces.notMem h.newline
  simp only [Cursor.skipSpaces, skipWhile_eq] at hnewline ⊢
  refine ⟨⟨hrest, hnewline⟩, ?_⟩
  rw [Bool.eq_iff_iff, atEnd_iff, atEnd_iff]
  exact hend

theorem toLineEnd (h : Padded c d) : Flush c.toLineEnd d.toLineEnd := by
  have hc := rest_toLineEnd h.newline
  have hd := rest_toLineEnd h.newline'
  exact ⟨⟨by rw [hc, hd]; exact .refl [], by simp [hc]⟩, by simp [Cursor.atEnd, hc, hd]⟩

theorem trimEnd_line (h : Padded c d) : Text.trimEnd d.line = Text.trimEnd c.line := by
  rw [line_eq_rest h.newline, line_eq_rest h.newline']
  exact h.rest.trimEnd

theorem negation (h : Padded c d) : Padded (Reader.negation c).2 (Reader.negation d).2 := by
  rw [Reader.negation_apply, Reader.negation_apply, h.isAt (by decide)]
  split
  · exact h.advance.skipSpaces.padded
  · exact h

end Padded

namespace Flush

variable {c d : Cursor}

theorem lineContinues (h : Flush c d) : d.lineContinues = c.lineContinues := by
  have hend {e : Cursor} (he : '\n' ∉ e.rest) : e.lineContinues = !e.atEnd := by
    obtain ⟨_ | ⟨x, rest⟩, p⟩ := e
    · rfl
    · have hx : x ≠ '\n' := fun e => he (by simp [e])
      simpa [Cursor.lineContinues, Cursor.atEnd] using hx
  rw [hend h.padded.newline, hend h.padded.newline', h.atEnd]

theorem negation (h : Flush c d) : Flush (Reader.negation c).2 (Reader.negation d).2 := by
  rw [Reader.negation_apply, Reader.negation_apply, h.padded.isAt (by decide)]
  split
  · exact h.padded.advance.skipSpaces
  · exact h

end Flush
end Cursor
end BedrockCommand
