import BedrockCommand.Grammar.Table
import BedrockCommand.Proofs.Argument.Reading
/-!
How the events of a run lie along the text. A trace goes from one cursor to another and says of
every stretch between them what became of it: it was passed over in no token, or it became a token
of a known origin, or it is blank and ends a line whose last argument is JSON.
-/
namespace BedrockCommand

/-- The punctuation that may stand between tokens. -/
def punctuation : List Char :=
  ['=', ',', '[', ']', '\x7b', '\x7d', ':', '!']

/-- Whether a character may stand between the tokens of a line. -/
def isStructural (x : Char) : Prop :=
  x = ' ' ∨ x ∈ punctuation

/-- Where a token comes from: what the text between two cursors becomes, by the grammar of a
version. -/
inductive Reported (version : Version) : Cursor → Token → Option WarningKind → Cursor → Prop where
  /-- An argument. -/
  | argument (a : Argument) (c : Cursor) {kind : TokenKind} (h : (a.read c).kind = some kind) :
    Reported version c ⟨kind, (a.read c).value, ⟨c.position, (a.read c).cursor.position⟩⟩
      (a.read c).warning (a.read c).cursor
  /-- Text that is not accepted. -/
  | error (e : SyntaxError) (c d : Cursor) :
    Reported version c ⟨.error, .error e, ⟨c.position, d.position⟩⟩ none d
  /-- The keyword of a command. -/
  | keyword {typed : String} {c d : Cursor} {rule : Rule} (hw : Reader.word c = (.ok typed, d))
    (hr : Grammar.command? (Grammar.canonicalName typed) version = some rule) :
    Reported version c
      ⟨.command, .command (Grammar.canonicalName typed), ⟨c.position, d.position⟩⟩
      (if Grammar.canonicalName typed ∈ Grammar.restricted then some (.noPermission typed)
        else none) d
  /-- A comment, which is the whole line. -/
  | comment {c : Cursor} (h : c.isAt '#' = true) :
    Reported version c ⟨.comment, .none, ⟨c.position, c.toLineEnd.position⟩⟩ none c.toLineEnd

/-- A token with a warning is not empty. -/
theorem Reported.position_lt {version : Version} {c d : Cursor} {t : Token} {w : WarningKind}
    (h : Reported version c t (some w) d) (ha : c.Ahead d) : c.position < d.position := by
  generalize hw : some w = w' at h
  cases h with
  | argument a =>
    exact ha.position_lt ((a.proper_read c).warned.resolve_left fun h => by simp [← hw] at h)
  | error | comment => simp at hw
  | keyword hword => exact ha.position_lt (Reader.movesOn_word _ _ _ hword)

/-- An event about a place between two others. What is warned about ends before the second one. -/
def Event.Between (p q : Position) : Event → Prop
  | .token t => p ≤ t.span.start ∧ t.span.start ≤ q
  | .warning w => p ≤ w.span.start ∧ w.span.start < q
  | .notice _ => True
  | .json _ => True

theorem Event.Between.mono {p p' q q' : Position} {e : Event} (h : e.Between p q) (hp : p' ≤ p)
    (hq : q ≤ q') : e.Between p' q' := by
  cases e with
  | token t => exact ⟨Position.le_trans hp h.1, Position.le_trans h.2 hq⟩
  | warning w => exact ⟨Position.le_trans hp h.1, Position.lt_of_lt_of_le h.2 hq⟩
  | notice | json => trivial

theorem Reported.span {version : Version} {c d : Cursor} {t : Token} {w : Option WarningKind}
    (h : Reported version c t w d) : t.span = ⟨c.position, d.position⟩ := by
  cases h <;> rfl

/-- The way from one cursor to another, with everything that is reported on it. Between tokens,
only characters of one sort are passed over. -/
inductive Trace (version : Version) (free : Char → Prop) :
    Cursor → List Event → Cursor → Prop where
  | nil (c : Cursor) : Trace version free c [] c
  /-- A character in no token. -/
  | skip {x : Char} {rest : List Char} {p : Position} {es : List Event} {d : Cursor}
    (hx : free x) (h : Trace version free ⟨rest, p.next x⟩ es d) :
    Trace version free ⟨x :: rest, p⟩ es d
  /-- A token, and the warning about it if there is one. -/
  | token {c c' d : Cursor} {t : Token} {w : Option WarningKind} {es : List Event}
    (ht : Reported version c t w c') (ha : c.Ahead c') (h : Trace version free c' es d) :
    Trace version free c (.token t :: (Step.warningEvents w t.span ++ es)) d
  | notice (n : Notice) {c d : Cursor} {es : List Event} (h : Trace version free c es d) :
    Trace version free c (.notice n :: es) d
  /-- A JSON text and the blanks that end its line. -/
  | json {text blanks rest : List Char} {p : Position} {es fs : List Event} {d : Cursor}
    (hn : '\n' ∉ text ++ blanks) (hb : ∀ x ∈ blanks, Text.isBlank x = true) (hr : LineEnd rest)
    (hi : Trace version free ⟨text, p⟩ es ⟨[], p.after text⟩)
    (h : Trace version free ⟨rest, p.after (text ++ blanks)⟩ fs d) :
    Trace version free ⟨text ++ blanks ++ rest, p⟩ (es ++ .json p :: fs) d

namespace Trace

variable {version : Version} {free free' : Char → Prop} {c d e : Cursor} {es fs : List Event}

theorem append (h : Trace version free c es d) (h' : Trace version free d fs e) :
    Trace version free c (es ++ fs) e := by
  induction h with
  | nil c => exact h'
  | skip hx _ ih => exact .skip hx (ih h')
  | token ht ha _ ih =>
    rw [List.cons_append, List.append_assoc]
    exact .token ht ha (ih h')
  | notice n _ ih => exact .notice n (ih h')
  | @json text blanks rest p es' fs' d hn hb hr hi _ _ ih =>
    rw [List.append_assoc es', List.cons_append]
    exact .json hn hb hr hi (ih h')

theorem mono (hf : ∀ x, free x → free' x) (h : Trace version free c es d) :
    Trace version free' c es d := by
  induction h with
  | nil c => exact .nil c
  | skip hx _ ih => exact .skip (hf _ hx) ih
  | token ht ha _ ih => exact .token ht ha ih
  | notice n _ ih => exact .notice n ih
  | json hn hb hr _ _ ihi ih => exact .json hn hb hr ihi ih

/-- A trace that passes over no line break goes along a line. -/
theorem ahead (hf : ¬ free '\n') (h : Trace version free c es d) : c.Ahead d := by
  induction h with
  | nil c => exact .refl c
  | @skip x rest p _ _ hx _ ih =>
    have hne : '\n' ≠ x := fun h => hf (h ▸ hx)
    exact Cursor.Ahead.trans (d := ⟨rest, p.next x⟩) ⟨[x], by simpa using hne, rfl, rfl⟩ ih
  | token _ ha _ ih => exact ha.trans ih
  | notice _ _ ih => exact ih
  | @json text blanks rest p _ _ _ hn _ _ _ _ _ ih =>
    exact Cursor.Ahead.trans (d := ⟨rest, p.after (text ++ blanks)⟩) ⟨_, hn, rfl, rfl⟩ ih

/-- Characters that may be passed over, one after another. -/
theorem skips {cs : List Char} (h : ∀ x ∈ cs, free x) (rest : List Char) (p : Position) :
    Trace version free ⟨cs ++ rest, p⟩ [] ⟨rest, p.after cs⟩ := by
  induction cs generalizing p with
  | nil => exact .nil _
  | cons x cs ih =>
    exact .skip (h x (by simp)) (ih (fun y hy => h y (by simp [hy])) (p.next x))

theorem skipSpaces (hf : free ' ') (c : Cursor) : Trace version free c [] c.skipSpaces := by
  have hs : ∀ x ∈ c.rest.takeWhile (· = ' '), free x := fun x hx => by
    have hx : x = ' ' := by simpa using List.mem_takeWhile_imp hx
    exact hx ▸ hf
  have h : Trace version free ⟨c.rest.takeWhile (· = ' ') ++ c.rest.dropWhile (· = ' '), _⟩ [] _ :=
    skips hs _ c.position
  rw [List.takeWhile_append_dropWhile] at h
  rw [Cursor.skipSpaces, Cursor.skipWhile_eq]
  exact h

theorem advance {x : Char} (hx : free x) (h : c.isAt x = true) :
    Trace version free c [] c.advance := by
  obtain ⟨cs, hr⟩ := Cursor.isAt_iff.mp h
  obtain ⟨rest, p⟩ := c
  obtain rfl : rest = x :: cs := hr
  rw [Cursor.advance_of_rest rfl]
  exact .skip hx (.nil _)

theorem position_le (h : Trace version free c es d) : c.position ≤ d.position := by
  induction h with
  | nil c => exact Position.le_refl _
  | skip _ _ ih => exact Position.le_trans (Position.le_next _ _) ih
  | token _ ha _ ih => exact Position.le_trans ha.position_le ih
  | notice _ _ ih => exact ih
  | json _ _ _ _ _ _ ih => exact Position.le_trans (Position.le_after _ _) ih

/-- All events of a trace are about places on its way. -/
theorem between (h : Trace version free c es d) :
    ∀ e ∈ es, e.Between c.position d.position := by
  induction h with
  | nil c => exact List.forall_mem_nil _
  | skip _ _ ih => exact fun e he => (ih e he).mono (Position.le_next _ _) (Position.le_refl _)
  | @token c c' d t w es ht ha htail ih =>
    have hspan : t.span.start = c.position := congrArg Span.start ht.span
    intro e he
    rcases List.mem_cons.mp he with rfl | he
    · rw [Event.Between, hspan]
      exact ⟨Position.le_refl _, Position.le_trans ha.position_le htail.position_le⟩
    rcases List.mem_append.mp he with he | he
    · cases w with
      | none => simp [Step.warningEvents] at he
      | some w =>
        obtain rfl := List.mem_singleton.mp he
        rw [Event.Between, hspan]
        exact ⟨Position.le_refl _,
          Position.lt_of_lt_of_le (ht.position_lt ha) htail.position_le⟩
    · exact (ih e he).mono ha.position_le (Position.le_refl _)
  | notice n _ ih => exact List.forall_mem_cons.mpr ⟨trivial, ih⟩
  | @json text blanks rest p es fs d _ _ _ _ htail ihi ih =>
    have hmiddle : p.after text ≤ p.after (text ++ blanks) := by
      rw [Position.after_append]
      exact Position.le_after _ _
    intro e he
    rcases List.mem_append.mp he with he | he
    · exact (ihi e he).mono (Position.le_refl _)
        (Position.le_trans hmiddle htail.position_le)
    rcases List.mem_cons.mp he with rfl | he
    · trivial
    · exact (ih e he).mono (Position.le_after _ _) (Position.le_refl _)

theorem negation (c : Cursor) : Trace version isStructural c [] (Reader.negation c).2 := by
  rw [Reader.negation_apply]
  split
  · next h =>
    exact (advance (by simp [isStructural, punctuation]) h).append (skipSpaces (.inl rfl) _)
  · exact .nil c

end Trace
end BedrockCommand
