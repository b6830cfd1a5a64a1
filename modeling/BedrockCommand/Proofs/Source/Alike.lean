import BedrockCommand.Proofs.Reader.OnLine
import BedrockCommand.Proofs.Source.Separator
/-!
Lines with the same text, which may stand in different places and before different texts. What is
asked about such lines has the same answer, and moving along them leads to the same place of both.
-/
namespace BedrockCommand

/-- Whether a map of positions takes a line to a line, each column as far from the next one as
before. -/
def Position.MovesLines (m : Position → Position) : Prop :=
  ∀ p x, x ≠ '\n' → m (p.next x) = (m p).next x

namespace Position.MovesLines

variable {m : Position → Position}

theorem id : MovesLines id := fun _ _ _ => rfl

theorem after (hm : MovesLines m) {cs : List Char} (hn : '\n' ∉ cs) (p : Position) :
    m (p.after cs) = (m p).after cs := by
  induction cs generalizing p with
  | nil => rfl
  | cons x cs ih =>
    obtain ⟨hx, hcs⟩ := not_or.mp (List.mem_cons.not.mp hn)
    rw [after_cons, after_cons, ih hcs, hm p x (Ne.symm hx)]

end Position.MovesLines

namespace Cursor

/-- Two cursors with the same text left of their lines, one where a map takes the other. -/
structure Alike (m : Position → Position) (c d : Cursor) : Prop where
  line : d.line = c.line
  position : d.position = m c.position

theorem alike_drop {m : Position → Position} (hm : Position.MovesLines m)
    {line tail tail' : List Char} (hl : '\n' ∉ line) (n : Nat) (ht : LineEnd tail)
    (ht' : LineEnd tail') (p : Position) :
    Alike m ⟨line.drop n ++ tail, p.after (line.take n)⟩
      ⟨line.drop n ++ tail', (m p).after (line.take n)⟩ where
  line := by
    have hd : '\n' ∉ line.drop n := fun h => hl (List.mem_of_mem_drop h)
    rw [line_append ht hd, line_append ht' hd]
  position := (hm.after (fun h => hl (List.mem_of_mem_take h)) p).symm

namespace Alike

variable {m : Position → Position} {c d : Cursor}

theorem sees {f : Cursor → α} (h : Alike m c d) (hf : SeesLine f) : f d = f c := by
  rw [hf.eq_line d, hf.eq_line c, h.line]

theorem isAt (h : Alike m c d) {x : Char} (hx : x ≠ '\n') : d.isAt x = c.isAt x :=
  h.sees (seesLine_isAt hx)

theorem lineContinues (h : Alike m c d) : d.lineContinues = c.lineContinues :=
  h.sees seesLine_lineContinues

/-- On texts without line breaks, where the line ends the text ends. -/
theorem atEnd (h : Alike m c d) (hc : '\n' ∉ c.rest) (hd : '\n' ∉ d.rest) :
    d.atEnd = c.atEnd := by
  rw [Cursor.atEnd, Cursor.atEnd, ← line_eq_rest hc, ← line_eq_rest hd, h.line]

theorem skip (h : Alike m c d) (hm : Position.MovesLines m) {n : Nat} (hn : n ≤ c.line.length) :
    Alike m (c.skip n) (d.skip n) := by
  have hn' : n ≤ d.line.length := h.line ▸ hn
  refine ⟨by rw [line_skip _ hn, line_skip _ hn', h.line], ?_⟩
  rw [position_skip _ hn, position_skip _ hn', h.line, h.position]
  exact (hm.after (fun h => c.newline_notMem_line (List.mem_of_mem_take h)) c.position).symm

theorem advance (h : Alike m c d) (hm : Position.MovesLines m) {x : Char} (hx : x ≠ '\n')
    (hc : c.isAt x = true) : Alike m c.advance d.advance :=
  h.skip hm (List.length_pos_iff.mpr (line_ne_nil_of_isAt hx hc))

theorem skipWhile (h : Alike m c d) (hm : Position.MovesLines m) {q : Char → Bool}
    (hq : q '\n' = false) : Alike m (c.skipWhile q) (d.skipWhile q) := by
  rw [Cursor.skipWhile, Cursor.skipWhile, h.sees (seesLine_ahead hq)]
  exact h.skip hm (c.length_ahead_le hq)

theorem skipSpaces (h : Alike m c d) (hm : Position.MovesLines m) :
    Alike m c.skipSpaces d.skipSpaces :=
  h.skipWhile hm (by decide)

theorem toLineEnd (h : Alike m c d) (hm : Position.MovesLines m) :
    Alike m c.toLineEnd d.toLineEnd := by
  rw [Cursor.toLineEnd, Cursor.toLineEnd, h.line]
  exact h.skip hm (Nat.le_refl _)

theorem negation (h : Alike m c d) (hm : Position.MovesLines m) :
    Alike m (Reader.negation c).2 (Reader.negation d).2 := by
  have hx : '!' ≠ '\n' := by decide
  rw [Reader.negation_apply, Reader.negation_apply, h.isAt hx]
  split
  · next hat => exact (h.advance hm hx hat).skipSpaces hm
  · exact h

theorem toSeparator (h : Alike m c d) (hm : Position.MovesLines m) (close : Char) :
    Alike m (c.toSeparator close) (d.toSeparator close) := by
  have hsees : SeesLine fun c => separatorOffset close false 0 c.rest :=
    fun _ _ _ hl ht => separatorOffset_append ht hl close false 0
  rw [Cursor.toSeparator, Cursor.toSeparator, h.sees hsees]
  refine h.skip hm ?_
  rw [hsees.eq_line c]
  exact separatorOffset_le close false 0 c.line

end Alike
end Cursor

/-- A reader that keeps to its line gives the same on lines with the same text. -/
theorem Reader.OnLine.alike {r : Reader α} (hr : r.OnLine) {m : Position → Position}
    (hm : Position.MovesLines m) {c d : Cursor} (h : Cursor.Alike m c d) :
    (r d).1 = (r c).1 ∧ Cursor.Alike m (r c).2 (r d).2 := by
  have hl := c.newline_notMem_line
  obtain ⟨v, n, -, hf⟩ := hr c.line hl
  obtain ⟨tail, ht, hc⟩ := c.exists_line
  obtain ⟨tail', ht', hd⟩ := d.exists_line
  rw [h.line, h.position] at hd
  rw [hc, hd, hf tail _ ht, hf tail' _ ht']
  exact ⟨rfl, Cursor.alike_drop hm hl n ht ht' _⟩
end BedrockCommand
