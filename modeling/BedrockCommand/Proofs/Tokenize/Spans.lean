import BedrockCommand.Proofs.Tokenize.Events
import BedrockCommand.Proofs.Tokenize.Termination
/-!
Where the tokens of a text lie: each within one line of it, one after another.
-/
namespace BedrockCommand

/-- A stretch of one line of a text that starts at a position. -/
def Span.Within (cs : List Char) (p : Position) (s : Span) : Prop :=
  ∃ before covered rest, cs = before ++ covered ++ rest ∧ '\n' ∉ covered ∧
    s = ⟨p.after before, p.after (before ++ covered)⟩

namespace Span.Within

variable {cs ds : List Char} {p : Position} {s : Span}

theorem ordered (h : s.Within cs p) : s.start ≤ s.stop := by
  obtain ⟨before, covered, rest, -, -, rfl⟩ := h
  rw [Position.after_append]
  exact Position.le_after _ covered

theorem line_eq (h : s.Within cs p) : s.start.line = s.stop.line := by
  obtain ⟨before, covered, rest, -, hn, rfl⟩ := h
  rw [Position.after_append, Position.after_of_notMem hn]

theorem le_start (h : s.Within cs p) : p ≤ s.start := by
  obtain ⟨before, covered, rest, -, -, rfl⟩ := h
  exact p.le_after before

theorem stop_le (h : s.Within cs p) : s.stop ≤ p.after cs := by
  obtain ⟨before, covered, rest, rfl, -, rfl⟩ := h
  rw [Position.after_append p (before ++ covered)]
  exact Position.le_after _ rest

theorem append_left (h : s.Within cs (p.after ds)) : s.Within (ds ++ cs) p := by
  obtain ⟨before, covered, rest, rfl, hn, rfl⟩ := h
  refine ⟨ds ++ before, covered, rest, by simp, hn, ?_⟩
  simp only [Position.after_append]

theorem append_right (h : s.Within cs p) : s.Within (cs ++ ds) p := by
  obtain ⟨before, covered, rest, rfl, hn, rfl⟩ := h
  exact ⟨before, covered, rest ++ ds, by simp, hn, rfl⟩

end Span.Within

/-- Tokens that lie within a text, each behind those before it. -/
structure LaidOut (cs : List Char) (p : Position) (ts : List Token) : Prop where
  within : ∀ t ∈ ts, t.span.Within cs p
  ordered : ts.Pairwise fun s t => s.span.stop ≤ t.span.start

namespace LaidOut

theorem nil (cs : List Char) (p : Position) : LaidOut cs p [] :=
  ⟨by simp, .nil⟩

theorem singleton {cs : List Char} {p : Position} {t : Token} (hn : '\n' ∉ cs)
    (ht : t.span = ⟨p, p.after cs⟩) : LaidOut cs p [t] :=
  ⟨by simpa using ⟨[], cs, [], by simp, hn, ht⟩, List.pairwise_singleton ..⟩

theorem append {cs ds : List Char} {p : Position} {ts us : List Token} (h : LaidOut cs p ts)
    (h' : LaidOut ds (p.after cs) us) : LaidOut (cs ++ ds) p (ts ++ us) where
  within t ht := by
    rcases List.mem_append.mp ht with ht | ht
    · exact (h.within t ht).append_right
    · exact (h'.within t ht).append_left
  ordered := List.pairwise_append.mpr ⟨h.ordered, h'.ordered, fun s hs t ht =>
    Position.le_trans (h.within s hs).stop_le (h'.within t ht).le_start⟩

end LaidOut

/-- A trace covers a piece of the text, and its tokens are laid out within that piece. -/
theorem Trace.laidOut {version : Version} {free : Char → Prop} {c d : Cursor} {es : List Event}
    (h : Trace version free c es d) : ∃ cs, c.rest = cs ++ d.rest ∧
      d.position = c.position.after cs ∧
      LaidOut cs c.position (Tokenized.ofEvents es).tokens := by
  induction h with
  | nil c => exact ⟨[], rfl, rfl, .nil [] _⟩
  | @skip x rest p es d hx _ ih =>
    obtain ⟨cs, hr, hp, hl⟩ := ih
    exact ⟨x :: cs, by simp [← hr], hp, (LaidOut.nil [x] p).append hl⟩
  | @token c c' d t w es ht ha _ ih =>
    obtain ⟨cs, hr, hp, hl⟩ := ih
    obtain ⟨ds, hn, hr', hp'⟩ := ha
    rw [hp'] at hp hl
    refine ⟨ds ++ cs, by rw [hr', hr, List.append_assoc], by rw [hp, Position.after_append], ?_⟩
    have hsingle : LaidOut ds c.position [t] := .singleton hn (by rw [ht.span, hp'])
    simpa using hsingle.append hl
  | notice n _ ih => exact ih
  | @json text blanks rest p es fs d _ _ _ _ _ ihi ih =>
    obtain ⟨cs, hr, hp, hl⟩ := ih
    obtain ⟨ds, hr', -, hl'⟩ := ihi
    -- The inner tokens lie in the JSON text, and none lies in the blanks behind it.
    obtain rfl : text = ds := by simpa using hr'
    refine ⟨text ++ blanks ++ cs, by simp [← hr], by rw [hp, ← Position.after_append], ?_⟩
    simpa using (hl'.append (.nil blanks _)).append hl

/-- Every token lies on one line of the text, from one of the places that the cursor takes to the
same or a later one, and the tokens do not overlap: each ends before the next ones start. -/
theorem tokenize_spans (text : String) (start : Position) (version : Version) :
    ∃ result, tokenize text start version = .ok result ∧
      (∀ token ∈ result.tokens,
        token.span.start ≤ token.span.stop ∧ token.span.start.line = token.span.stop.line ∧
        ∃ i j, i ≤ j ∧ j ≤ text.length ∧
          token.span.start = ((Cursor.ofText text start).skip i).position ∧
          token.span.stop = ((Cursor.ofText text start).skip j).position) ∧
      result.tokens.Pairwise fun s t => s.span.stop ≤ t.span.start := by
  refine ⟨_, tokenize_eq text start version, ?_⟩
  obtain ⟨cs, hr, -, hl⟩ := (trace_readText text start version).laidOut
  refine ⟨fun token htoken => ?_, hl.ordered⟩
  have hw := hl.within token htoken
  refine ⟨hw.ordered, hw.line_eq, ?_⟩
  obtain ⟨before, covered, rest, rfl, -, hs⟩ := hw
  have hlength : (before ++ covered).length ≤ text.length := by
    rw [← String.length_toList, show text.toList = _ from hr]
    simp
  refine ⟨before.length, (before ++ covered).length, by simp, hlength, ?_, ?_⟩
  · simp only [hs, Cursor.skip, hr, List.append_assoc, List.take_left]
  · simp only [hs, Cursor.skip, hr, List.append_assoc (before ++ covered), List.take_left]

end BedrockCommand
