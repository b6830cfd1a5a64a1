import BedrockCommand.Proofs.Tokenize.Spans
/-!
The lines of a text are read one by one: what is reported about a line depends on nothing but the
line and its place, so that the events of a text are those of its lines in their order.
-/
namespace BedrockCommand

variable {version : Version}

theorem splitLines_ne_nil (cs : List Char) : splitLines cs ≠ [] := by
  cases cs with
  | nil => simp [splitLines]
  | cons x cs =>
    unfold splitLines
    split
    · simp
    · split <;> simp

theorem splitLines_newline (cs : List Char) : splitLines ('\n' :: cs) = [] :: splitLines cs := by
  simp [splitLines]

/-- The first line, and the lines below it. -/
theorem splitLines_append {line rest : List Char} (hl : '\n' ∉ line) (hr : LineEnd rest) :
    splitLines (line ++ rest) = line :: (splitLines rest).tail := by
  induction line with
  | nil =>
    rcases hr.cases with rfl | ⟨cs, rfl⟩
    · rfl
    · rw [List.nil_append, splitLines_newline, List.tail_cons]
  | cons x line ih =>
    obtain ⟨hx, hl⟩ := not_or.mp (List.mem_cons.not.mp hl)
    rw [List.cons_append, splitLines, if_neg (Ne.symm hx), ih hl]

/-- A line break between two texts keeps their lines apart. -/
theorem splitLines_append_newline (cs ds : List Char) :
    splitLines (cs ++ '\n' :: ds) = splitLines cs ++ splitLines ds := by
  induction cs with
  | nil => exact splitLines_newline ds
  | cons x cs ih =>
    rw [List.cons_append, splitLines, splitLines, ih]
    split
    · rfl
    · cases h : splitLines cs with
      | nil => exact absurd h (splitLines_ne_nil cs)
      | cons line lines => rfl

theorem length_splitLines (cs : List Char) :
    (splitLines cs).length = cs.count '\n' + 1 := by
  induction cs with
  | nil => rfl
  | cons x cs ih =>
    rw [splitLines]
    split
    · next h => rw [h, List.length_cons, ih, List.count_cons_self]
    · next h =>
      rw [List.count_cons_of_ne h, ← ih]
      cases hs : splitLines cs with
      | nil => exact absurd hs (splitLines_ne_nil cs)
      | cons line lines => rfl

/-- Nothing is reported about an empty line, or one of spaces. -/
theorem events_readLine_of_line_eq_nil {c : Cursor} (h : c.skipSpaces.line = []) :
    (readLine version c).events = [] := by
  rcases readLine_cases version c with ⟨-, hs⟩ | ⟨-, hs⟩ | ⟨hl, -⟩
  · rw [hs]
    rfl
  · rw [hs]
    rfl
  · exact absurd h hl

/-- Reading a line reports the same wherever the line stands and whatever is below it. -/
theorem events_readLine {m : Position → Position} (hm : Position.MovesLines m) {c d : Cursor}
    (h : Cursor.Alike m c d) :
    (readLine version d).events = (readLine version c).events.map (Event.moved m) := by
  have hs := h.skipSpaces hm
  by_cases hl : c.skipSpaces.line = []
  · rw [events_readLine_of_line_eq_nil hl, events_readLine_of_line_eq_nil (hs.line.trans hl)]
    rfl
  · rw [readLine_of_line hl, readLine_of_line (fun hd => hl (hs.line ▸ hd)), hs.isAt (by decide)]
    split
    · exact (Step.Agree.token Cursor.follow_alike _ _ _ hs (hs.toLineEnd hm)
        (Cursor.ahead_toLineEnd _) (Cursor.ahead_toLineEnd _)).events
    · exact (Command.alike_read hm maxNesting hs).events

/-- The events of lines by themselves, one line below the other. -/
def linesEvents (version : Version) : List (List Char) → Position → List Event
  | [], _ => []
  | line :: lines, p =>
    (readLine version ⟨line, p⟩).events ++ linesEvents version lines ⟨p.line + 1, 0⟩

theorem linesEvents_append {lines : List (List Char)} (h : lines ≠ []) (below : List (List Char))
    (p : Position) : linesEvents version (lines ++ below) p =
      linesEvents version lines p ++ linesEvents version below ⟨p.line + lines.length, 0⟩ := by
  induction lines generalizing p with
  | nil => exact absurd rfl h
  | cons line lines ih =>
    cases lines with
    | nil => simp [linesEvents]
    | cons next lines =>
      have hline : p.line + 1 + (next :: lines).length =
          p.line + (line :: next :: lines).length := by
        simp only [List.length_cons]
        omega
      rw [List.cons_append, linesEvents, ih (by simp), hline, ← List.append_assoc]
      rfl

/-- Of the lines of a text, the first one is read where the text starts. -/
theorem linesEvents_splitLines (c : Cursor) : linesEvents version (splitLines c.rest) c.position =
    (readLine version c).events ++ linesEvents version (splitLines c.toLineEnd.rest).tail
      ⟨c.position.line + 1, 0⟩ := by
  obtain ⟨tail, ht, hc⟩ := c.exists_line
  have hl := c.newline_notMem_line
  have hrest : c.rest = c.line ++ tail := congrArg Cursor.rest hc
  have hend : c.toLineEnd.rest = tail := by
    rw [hc, Cursor.toLineEnd_append ht hl]
  have halike : Cursor.Alike id ⟨c.line, c.position⟩ c := by
    refine ⟨?_, rfl⟩
    rw [Cursor.line_eq_rest (c := ⟨c.line, c.position⟩) hl]
  -- The first line by itself and the text from it on are lines with the same text.
  rw [hend, events_readLine .id halike]
  conv_lhs => rw [hrest]
  rw [splitLines_append hl ht, linesEvents]
  simp

/-- A round that has read something of a line goes on with the lines below it. -/
theorem linesEvents_readLine (c : Cursor) :
    linesEvents version (splitLines (readLine version c).cursor.rest)
        (readLine version c).cursor.position =
      linesEvents version (splitLines c.toLineEnd.rest).tail ⟨c.position.line + 1, 0⟩ := by
  -- From the end of the line the next round reports nothing before it is on the line below.
  have hend (d : Cursor) (hd : c.Ahead d) (hl : d.line = []) :
      linesEvents version (splitLines d.rest) d.position =
        linesEvents version (splitLines c.toLineEnd.rest).tail ⟨c.position.line + 1, 0⟩ := by
    rw [linesEvents_splitLines, ← hd.eq_toLineEnd hl, ← (Cursor.Ahead.refl d).eq_toLineEnd hl,
      hd.line_eq, events_readLine_of_line_eq_nil (d.ahead_skipSpaces.line_eq_nil hl),
      List.nil_append]
  have hspaces := c.ahead_skipSpaces
  rcases readLine_cases version c with ⟨hr, hs⟩ | ⟨hn, hs⟩ | ⟨-, hs, -, hl⟩
  · have hl : c.skipSpaces.line = [] := by simp [Cursor.line, Cursor.ahead, hr]
    rw [hs]
    exact hend _ hspaces hl
  · -- Here alone the line break itself is read, and the next line is already the one to read.
    rw [hs]
    obtain ⟨cs, hr⟩ := Cursor.isAt_iff.mp hn
    have hl : c.skipSpaces.line = [] := by simp [Cursor.line, Cursor.ahead, hr]
    rw [Step.done, Cursor.advance_of_rest hr, ← hspaces.eq_toLineEnd hl, hr, splitLines_newline,
      List.tail_cons, Position.next, if_pos rfl, hspaces.line_eq]
  · exact hend _ (hspaces.trans hs.ahead) hl

theorem events_readLines {fuel : Nat} {c : Cursor} (h : c.rest.length < fuel) :
    (readLines version fuel c).events = linesEvents version (splitLines c.rest) c.position := by
  induction fuel generalizing c with
  | zero => omega
  | succ fuel ih =>
    rw [linesEvents_splitLines]
    unfold readLines
    split
    · next he =>
      have hr := Cursor.atEnd_iff.mp he
      have hl : c.line = [] := by simp [Cursor.line, Cursor.ahead, hr]
      rw [events_readLine_of_line_eq_nil (c.ahead_skipSpaces.line_eq_nil hl),
        ← (Cursor.Ahead.refl c).eq_toLineEnd hl, hr]
      rfl
    · next he =>
      obtain ⟨ho, hlt⟩ := readLine_progress version (by simpa using he)
      simp only [Step.andThen, ho]
      rw [ih (by omega), linesEvents_readLine]

theorem events_readText (text : String) (start : Position) (version : Version) :
    (readText text start version).events =
      linesEvents version (splitLines text.toList) start :=
  events_readLines (length_ofText_lt text start)

/-- Lines do not influence each other. A text in two parts, with a line break between them, has the
tokens, the warnings and the notices of the first part, and behind them those of the second part,
as if that were a text by itself that starts at the line below. -/
theorem tokenize_append_newline (a b : String) (start : Position) (version : Version) :
    ∃ above below, tokenize a start version = .ok above ∧
      tokenize b ⟨start.line + a.toList.count '\n' + 1, 0⟩ version = .ok below ∧
      tokenize (a ++ "\n" ++ b) start version = .ok
        ⟨above.tokens ++ below.tokens, above.warnings ++ below.warnings,
          above.notices ++ below.notices⟩ := by
  refine ⟨_, _, tokenize_eq .., tokenize_eq .., ?_⟩
  have htext : (a ++ "\n" ++ b).toList = a.toList ++ '\n' :: b.toList := by simp
  rw [tokenize_eq, events_readText, events_readText, events_readText, htext,
    splitLines_append_newline, linesEvents_append (splitLines_ne_nil _), length_splitLines,
    ← Nat.add_assoc]
  simp only [Tokenized.ofEvents, List.filterMap_append]

end BedrockCommand
