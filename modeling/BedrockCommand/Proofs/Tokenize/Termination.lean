import BedrockCommand.Proofs.Command
import BedrockCommand.Tokenize
/-!
Reading a text comes to its end, whatever the text: every round reads something, no round fails,
and the events lie along the text from its first character to its last.
-/
namespace BedrockCommand

/-- Whether a character of a text may stand between tokens. -/
def isSeparating (x : Char) : Prop :=
  isStructural x ∨ x = '\n'

variable {version : Version}

theorem readComment_eq (c : Cursor) : readComment c =
    ⟨[.token ⟨.comment, .none, ⟨c.position, c.toLineEnd.position⟩⟩], [], .done, c.toLineEnd⟩ :=
  Step.token_ahead _ _ _ c.ahead_toLineEnd

theorem sound_readComment {c : Cursor} (h : c.isAt '#' = true) :
    (readComment c).Sound version c :=
  .token (.comment h) c.ahead_toLineEnd

/-- What one round finds after the spaces: the end of the text, the end of a line, or a comment or
a command, which it reads up to the end of its line. -/
theorem readLine_cases (version : Version) (c : Cursor) :
    (c.skipSpaces.rest = [] ∧ readLine version c = .done c.skipSpaces) ∨
    (c.skipSpaces.isAt '\n' = true ∧ readLine version c = .done c.skipSpaces.advance) ∨
    (c.skipSpaces.line ≠ [] ∧ (readLine version c).Sound version c.skipSpaces ∧
      (readLine version c).outcome = .done ∧ (readLine version c).cursor.line = []) := by
  unfold readLine
  generalize c.skipSpaces = d
  simp only
  split
  · next he => exact .inl ⟨Cursor.atEnd_iff.mp he, rfl⟩
  split
  · next hc =>
    refine .inr (.inr ⟨Cursor.line_ne_nil_of_isAt (by decide) hc, sound_readComment hc, ?_⟩)
    rw [readComment_eq]
    exact ⟨rfl, d.line_toLineEnd⟩
  split
  · next hn => exact .inr (.inl ⟨hn, rfl⟩)
  · next he _ hn =>
    have hl := Cursor.line_ne_nil (by simpa using he) (by simpa using hn)
    exact .inr (.inr ⟨hl, Command.sound_read maxNesting d, Command.read_ends maxNesting d⟩)

/-- Where something is left of the line after the spaces, a round reads a comment or a command. -/
theorem readLine_of_line {c : Cursor} (h : c.skipSpaces.line ≠ []) : readLine version c =
    if c.skipSpaces.isAt '#' then readComment c.skipSpaces
    else Command.read version maxNesting c.skipSpaces := by
  unfold readLine
  generalize c.skipSpaces = d at h ⊢
  obtain ⟨_ | ⟨x, cs⟩, p⟩ := d
  · simp [Cursor.line, Cursor.ahead] at h
  · have hx : x ≠ '\n' := fun e => h (by simp [Cursor.line, Cursor.ahead, e])
    simp [Cursor.atEnd, hx]

/-- Away from the end of the text, a round is done, and it has read something. -/
theorem readLine_progress (version : Version) {c : Cursor} (h : c.atEnd = false) :
    (readLine version c).outcome = .done ∧
      (readLine version c).cursor.rest.length < c.rest.length := by
  have hle := c.ahead_skipSpaces.length_le
  have hpos : c.rest ≠ [] := fun hr => by simp [Cursor.atEnd, hr] at h
  rcases readLine_cases version c with ⟨he, hs⟩ | ⟨hn, hs⟩ | ⟨hl, hs, ho, hend⟩
  · rw [hs]
    exact ⟨rfl, by simpa [Step.done, he] using List.length_pos_iff.mpr hpos⟩
  · rw [hs]
    obtain ⟨cs, hr⟩ := Cursor.isAt_iff.mp hn
    refine ⟨rfl, ?_⟩
    simp only [Step.done, Cursor.advance_of_rest hr, hr, List.length_cons] at hle ⊢
    omega
  · -- All that was left of the line is gone, and that was something.
    have hlen := hs.ahead.length_line
    have := List.length_pos_iff.mpr hl
    rw [hend] at hlen
    exact ⟨ho, by simp only [List.length_nil] at hlen; omega⟩

/-- A round goes along the text. -/
theorem trace_readLine (c : Cursor) :
    Trace version isSeparating c (readLine version c).events (readLine version c).cursor := by
  have hspaces : Trace version isSeparating c [] c.skipSpaces :=
    .skipSpaces (.inl isStructural_space) c
  rcases readLine_cases version c with ⟨-, hs⟩ | ⟨hn, hs⟩ | ⟨-, hs, -⟩
  · rw [hs]
    exact hspaces
  · rw [hs]
    exact hspaces.append (.advance (.inr rfl) hn)
  · exact hspaces.append (hs.trace.mono fun _ => .inl)

/-- Any fuel beyond the length of the text is enough to read it to its end. -/
theorem readLines_ends (version : Version) {fuel : Nat} {c : Cursor}
    (h : c.rest.length < fuel) :
    (readLines version fuel c).outcome = .done ∧ (readLines version fuel c).cursor.rest = [] ∧
      Trace version isSeparating c (readLines version fuel c).events
        (readLines version fuel c).cursor := by
  induction fuel generalizing c with
  | zero => omega
  | succ fuel ih =>
    unfold readLines
    split
    · next he => exact ⟨rfl, Cursor.atEnd_iff.mp he, .nil c⟩
    · next he =>
      obtain ⟨ho, hlt⟩ := readLine_progress version (by simpa using he)
      obtain ⟨ho', hr, ht⟩ := ih (c := (readLine version c).cursor) (by omega)
      simp only [Step.andThen, ho]
      exact ⟨ho', hr, (trace_readLine c).append ht⟩

/-- More fuel than is enough changes nothing. -/
theorem readLines_fuel {fuel : Nat} {c : Cursor} (h : c.rest.length < fuel) (more : Nat) :
    readLines version (fuel + more) c = readLines version fuel c := by
  induction fuel generalizing c with
  | zero => omega
  | succ fuel ih =>
    rw [Nat.succ_add, readLines, readLines]
    split
    · rfl
    · next he =>
      obtain ⟨ho, hlt⟩ := readLine_progress version (by simpa using he)
      simp only [Step.andThen, ho]
      rw [ih (by omega)]

theorem length_ofText_lt (text : String) (start : Position) :
    (Cursor.ofText text start).rest.length < text.length + 1 := by
  rw [Cursor.ofText, String.length_toList]
  exact Nat.lt_succ_self _

theorem trace_readText (text : String) (start : Position) (version : Version) :
    Trace version isSeparating (.ofText text start) (readText text start version).events
      (readText text start version).cursor :=
  (readLines_ends version (length_ofText_lt text start)).2.2

theorem tokenize_eq (text : String) (start : Position) (version : Version) :
    tokenize text start version = .ok (.ofEvents (readText text start version).events) := by
  have ho : (readText text start version).outcome = .done :=
    (readLines_ends version (length_ofText_lt text start)).1
  simp only [tokenize, ho]

/-- Every text is tokenized. No defect of the grammar ever shows, whatever the text, and the length
of the text bounds the rounds: with so many of them, or with more, it is read to its end. -/
theorem tokenize_terminates (text : String) (start : Position) (version : Version) (more : Nat) :
    let s := readLines version (text.length + 1 + more) (.ofText text start)
    s.outcome = .done ∧ s.cursor.atEnd = true ∧
      tokenize text start version = .ok (.ofEvents s.events) := by
  intro s
  have hs : s = readText text start version := readLines_fuel (length_ofText_lt text start) more
  obtain ⟨ho, hr, -⟩ := readLines_ends version (length_ofText_lt text start)
  rw [hs]
  exact ⟨ho, Cursor.atEnd_iff.mpr hr, tokenize_eq text start version⟩

end BedrockCommand
