import BedrockCommand.Proofs.Tokenize.Spans
/-!
No text is lost: every character of a text lies in a token, unless it is of a kind that may stand
between tokens or it is one of the blanks after a JSON text that ends its line.
-/
namespace BedrockCommand

/-- Whether the character at a position lies in a span. -/
def Span.Covers (s : Span) (p : Position) : Prop :=
  s.start ≤ p ∧ p < s.stop

/-- The line of a position ends in a JSON text. -/
def EndsInJson (es : List Event) (p : Position) : Prop :=
  ∃ q, Event.json q ∈ es ∧ q.line = p.line

/-- A blank at the end of a line, before some text of which what is left of the line is blank. -/
def IsTrailingBlank (x : Char) (after : List Char) : Prop :=
  Text.isBlank x = true ∧ ∀ y ∈ after.takeWhile (· ≠ '\n'), Text.isBlank y = true

namespace IsTrailingBlank

variable {x : Char} {after rest : List Char}

/-- On a text of one line, all that follows is blank. -/
theorem isBlank (h : IsTrailingBlank x after) (hn : '\n' ∉ after) :
    ∀ y ∈ after, Text.isBlank y = true := by
  intro y hy
  refine h.2 y ?_
  have hline : after.takeWhile (· ≠ '\n') = after :=
    Cursor.line_eq_rest (c := ⟨after, .origin⟩) hn
  rwa [hline]

theorem append (hx : Text.isBlank x = true) (hn : '\n' ∉ after) (hr : LineEnd rest)
    (h : ∀ y ∈ after, Text.isBlank y = true) : IsTrailingBlank x (after ++ rest) := by
  refine ⟨hx, fun y hy => h y ?_⟩
  have hline : (after ++ rest).takeWhile (· ≠ '\n') = after :=
    Cursor.line_append (p := .origin) hr hn
  rwa [hline] at hy

end IsTrailingBlank

/-- What became of a character at a position, before some text. -/
inductive Accounted (free : Char → Prop) (es : List Event) (p : Position) (x : Char)
    (after : List Char) : Prop where
  | covered {t : Token} (ht : .token t ∈ es) (hp : t.span.Covers p)
  | free (hx : free x)
  | trailing (hx : IsTrailingBlank x after) (hj : EndsInJson es p)

namespace Accounted

variable {free : Char → Prop} {es fs : List Event} {p : Position} {x : Char} {after : List Char}

theorem mono (h : Accounted free es p x after) (hs : es ⊆ fs) : Accounted free fs p x after := by
  cases h with
  | covered ht hp => exact .covered (hs ht) hp
  | free hx => exact .free hx
  | trailing hx hj =>
    obtain ⟨q, hq, hl⟩ := hj
    exact .trailing hx ⟨q, hs hq, hl⟩

end Accounted

/-- A stretch of a line covers each of its characters. -/
theorem Span.covers_of_notMem {before after : List Char} {x : Char} {p : Position}
    (hn : '\n' ∉ before ++ x :: after) :
    Span.Covers ⟨p, p.after (before ++ x :: after)⟩ (p.after before) := by
  have hx : '\n' ∉ x :: after := fun h => hn (List.mem_append_right _ h)
  refine ⟨p.le_after before, ?_⟩
  rw [Position.after_append, Position.after_of_notMem hx]
  exact .inr ⟨rfl, by simp⟩

/-- A character of two texts in a row lies in the first one or in the second one. -/
theorem cons_eq_append_cases {before after xs ys : List Char} {x : Char}
    (h : xs ++ ys = before ++ x :: after) :
    (∃ between, xs = before ++ x :: between ∧ after = between ++ ys) ∨
      ∃ between, before = xs ++ between ∧ ys = between ++ x :: after := by
  rcases List.append_eq_append_iff.mp h with ⟨between, hb, hy⟩ | ⟨_ | ⟨y, between⟩, hx, hy⟩
  · exact .inr ⟨between, hb, hy⟩
  · exact .inr ⟨[], by simpa using hx.symm, hy.symm⟩
  · obtain ⟨rfl, ha⟩ := List.cons.inj hy
    exact .inl ⟨between, hx, ha⟩

/-- Every character that a trace passes is accounted for. -/
theorem Trace.accounted {version : Version} {free : Char → Prop} {c d : Cursor} {es : List Event}
    (h : Trace version free c es d) {before after : List Char} {x : Char}
    (hc : c.rest = before ++ x :: after) (hd : d.rest.length ≤ after.length) :
    Accounted free es (c.position.after before) x after := by
  induction h generalizing before after with
  | nil c =>
    rw [hc] at hd
    simp at hd
    omega
  | @skip y rest p es d hy _ ih =>
    cases before with
    | nil =>
      obtain ⟨rfl, -⟩ := List.cons.inj hc
      exact .free hy
    | cons z before =>
      obtain ⟨rfl, hr⟩ := List.cons.inj hc
      exact ih hr hd
  | @token c c' d t w es ht ha _ ih =>
    obtain ⟨ds, hn, hr, hp⟩ := ha
    rcases cons_eq_append_cases (hr.symm.trans hc) with ⟨between, rfl, -⟩ | ⟨between, rfl, hc'⟩
    · refine .covered (List.mem_cons_self ..) ?_
      rw [ht.span, hp]
      exact Span.covers_of_notMem hn
    · rw [Position.after_append, ← hp]
      exact (ih hc' hd).mono fun e he => by simp [he]
  | notice n _ ih => exact (ih hc hd).mono (by simp)
  | @json text blanks rest p es fs d hn hb hr hi h ihi ih =>
    rcases cons_eq_append_cases hc with ⟨between, hl, rfl⟩ | ⟨between, rfl, hc'⟩
    · -- The character is on the line of the JSON text: in that text or in the blanks behind it.
      have hline : '\n' ∉ between := fun h => hn (hl ▸ by simp [h])
      have hjson : EndsInJson (es ++ .json p :: fs) (p.after before) := by
        refine ⟨p, by simp, ?_⟩
        rw [Position.after_of_notMem fun h => hn (hl ▸ List.mem_append_left _ h)]
      rcases cons_eq_append_cases hl with ⟨inner, htext, rfl⟩ | ⟨_, rfl, hblanks⟩
      · rcases ihi htext (by simp) with ⟨ht, hp⟩ | hx | ⟨hx, -⟩
        · exact .covered (by simp [ht]) hp
        · exact .free hx
        · have hinner := hx.isBlank fun h => hline (List.mem_append_left _ h)
          refine .trailing (.append hx.1 hline hr fun y hy => ?_) hjson
          exact (List.mem_append.mp hy).elim (hinner y) (hb y)
      · refine .trailing (.append (hb x (by simp [hblanks])) hline hr fun y hy => ?_) hjson
        exact hb y (by simp [hblanks, hy])
    · rw [Position.after_append]
      exact (ih hc' hd).mono fun e he => by simp [he]

/-- No text is dropped. Every character but the line breaks lies in a token, or it is a space or a
punctuation character, or it is a blank among the blanks that end a line of which the last argument
is JSON. So an at sign always lies in a token, and so do a tab and a carriage return on every other
line. -/
theorem tokenize_covers (text : String) (start : Position) (version : Version) :
    ∃ result, tokenize text start version = .ok result ∧
      ∀ before x after, text.toList = before ++ x :: after → x ≠ '\n' →
        let place := start.after before
        let covered := ∃ token ∈ result.tokens, token.span.Covers place
        let json := EndsInJson (readText text start version).events place
        (covered ∨ x = ' ' ∨ x ∈ punctuation ∨ (IsTrailingBlank x after ∧ json)) ∧
          (x = '@' → covered) ∧ (x = '\t' ∨ x = '\r' → json ∨ covered) := by
  refine ⟨_, tokenize_eq text start version, ?_⟩
  intro before x after htext hx place covered json
  have hrest : (readText text start version).cursor.rest = [] :=
    (readLines_ends version (length_ofText_lt text start)).2.1
  have h := (trace_readText text start version).accounted htext (by simp [hrest])
  have hcases : covered ∨ x = ' ' ∨ x ∈ punctuation ∨ (IsTrailingBlank x after ∧ json) := by
    rcases h with ⟨ht, hp⟩ | ((hx' | hx') | hx') | ⟨hx', hj⟩
    · exact .inl ⟨_, Tokenized.mem_tokens.mpr ht, hp⟩
    · exact .inr (.inl hx')
    · exact .inr (.inr (.inl hx'))
    · exact absurd hx' hx
    · exact .inr (.inr (.inr ⟨hx', hj⟩))
  refine ⟨hcases, fun hat => ?_, fun htab => ?_⟩
  · subst hat
    simpa [punctuation, IsTrailingBlank, show Text.isBlank '@' = false by decide] using hcases
  · rcases hcases with h | rfl | h | ⟨-, h⟩
    · exact .inr h
    · simp at htab
    · rcases htab with rfl | rfl <;> simp [punctuation] at h
    · exact .inl h

end BedrockCommand
