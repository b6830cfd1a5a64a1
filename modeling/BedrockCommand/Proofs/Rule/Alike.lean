import BedrockCommand.Proofs.Rule.Agree
import BedrockCommand.Proofs.Rule.Run
import BedrockCommand.Proofs.Source.Alike
/-!
Rules keep to their line: on lines with the same text a well-formed rule reports the same, each
event in its place on the line, and ends in the same way at the same place.
-/
namespace BedrockCommand

open Look (known_none known_of_holds)

/-- An argument is read in the same way on lines with the same text. -/
theorem Argument.alike_read {m : Position → Position} {c d : Cursor} {a : Argument}
    {known : Option Look} (ha : a.FitsAfter known)
    (hq : ∀ l ∈ known, l.holds ⟨c.line, .origin⟩ = true) (hm : Position.MovesLines m)
    (h : Cursor.Alike m c d) : a.read d = (a.read c).endAt (a.read d).cursor ∧
      Cursor.Alike m (a.read c).cursor (a.read d).cursor := by
  have hl := c.newline_notMem_line
  obtain ⟨r, n, hn, hr⟩ := a.onLineAt ha hl hq
  obtain ⟨tail, ht, hc⟩ := c.exists_line
  obtain ⟨tail', ht', hd⟩ := d.exists_line
  rw [h.line, h.position] at hd
  rw [hc, hd, hr tail _ ht, hr tail' _ ht']
  exact ⟨rfl, Cursor.alike_drop hm hl n ht ht' _⟩

/-- Two steps that report the same, and end on lines with the same text. -/
abbrev Step.Alike (m : Position → Position) : Step → Step → Prop :=
  Step.Agree (Cursor.Alike m) m

theorem Cursor.follow_alike {m : Position → Position} : Cursor.Follow (Cursor.Alike m) m :=
  Alike.position

/-- Lines with the same text go on having the same text where a list goes on. -/
theorem Cursor.nests_alike {m : Position → Position} (hm : Position.MovesLines m) (b : Brackets) :
    Nests b (Alike m) (Alike m) := by
  have hopening := ne_newline_of_isStructural (isStructural_opening b)
  have hclosing := ne_newline_of_isStructural (isStructural_closing b)
  have hcomma := ne_newline_of_isStructural isStructural_comma
  exact {
    isAt_opening h := h.isAt hopening
    opening h := h.advance hm hopening
    spaces h := h.skipSpaces hm
    isAt_closing h := h.isAt hclosing
    isAt_comma h := h.isAt hcomma
    lineContinues := Alike.lineContinues
    comma h := h.advance hm hcomma
    separator h := h.toSeparator hm b.closing
    closing h hc := (h.advance hm hclosing hc).skipSpaces hm
    lineEnd h _ := h }

namespace Step.Alike

open Cursor (follow_alike)

variable {m : Position → Position} {c c' d d' : Cursor} {s t : Step}

section

variable (hm : Position.MovesLines m)
include hm

theorem sweep (e : SyntaxError) (h : Cursor.Alike m c d) :
    Alike m (Step.sweep e c) (Step.sweep e d) :=
  Agree.error follow_alike e h (h.toLineEnd hm) c.ahead_toLineEnd d.ahead_toLineEnd

theorem expect {x : Char} (hx : isStructural x) (h : Cursor.Alike m c d) :
    Alike m (Step.expect x c) (Step.expect x d) := by
  have hx := ne_newline_of_isStructural hx
  exact Agree.expect follow_alike (h.isAt hx) h fun hat => (h.advance hm hx hat).skipSpaces hm

theorem argument {a : Argument} {known : Option Look} (ha : a.FitsAfter known)
    (hq : ∀ l ∈ known, l.holds ⟨c.line, .origin⟩ = true) {next next' : a.Answer → Cursor → Step}
    (h : Cursor.Alike m c d)
    (hn : ∀ x, (a.read c).answer = some x →
      Cursor.Alike m (a.read c).cursor (a.read d).cursor →
      Alike m (next x (a.read c).cursor) (next' x (a.read d).cursor)) :
    Alike m (Step.argument a c next) (Step.argument a d next') := by
  obtain ⟨hr, hcursor⟩ := Argument.alike_read ha hq hm h
  exact Agree.argument follow_alike h hr hcursor (a.ahead_read ha c hq)
    (a.ahead_read ha d (h.line ▸ hq)) fun x hx => hn x hx hcursor

theorem clauses {keywords : List String} {clause : String → Cursor → Step}
    {finish : Option String → Cursor → Step}
    (hc : ∀ w {c d}, Cursor.Alike m c d → Alike m (clause w c) (clause w d))
    (hf : ∀ w {c d}, Cursor.Alike m c d → Alike m (finish w c) (finish w d)) (fuel : Nat)
    (last : Option String) (h : Cursor.Alike m c d) :
    Alike m (Step.clauses keywords clause finish fuel last c)
      (Step.clauses keywords clause finish fuel last d) := by
  induction fuel generalizing c d last with
  | zero => exact Agree.fail _ h
  | succ fuel ih =>
    unfold Step.clauses
    rw [h.lineContinues]
    split
    · exact hf last h
    · exact argument hm (Argument.fitsAfter_keyword keywords) (known_none c) h
        fun w _ h' => (hc w h').andThen (ih (some w))

end

theorem whole (hm : Position.MovesLines m) (h : Alike m s t)
    (he : t.cursor.atEnd = s.cursor.atEnd) : Alike m s.whole t.whole := by
  refine h.settle.andThen fun h' => ?_
  rw [cursor_settle, cursor_settle] at h' ⊢
  rw [he]
  split
  · exact Agree.done h'
  · exact sweep hm _ h'

/-- The JSON text that ends a line is read alike, whatever is below the line. -/
theorem embedded (hm : Position.MovesLines m) (h : Cursor.Alike m c d) (hi : Alike m s t)
    (hs : '\n' ∉ s.cursor.rest) (ht : '\n' ∉ t.cursor.rest) :
    Alike m
      (Step.andThen { s.whole with cursor := c.toLineEnd } (Step.report (.json c.position)))
      (Step.andThen { t.whole with cursor := d.toLineEnd } (Step.report (.json d.position))) := by
  have hwhole := hi.whole hm (hi.cursor.atEnd hs ht)
  have hend : Alike m { s.whole with cursor := c.toLineEnd }
      { t.whole with cursor := d.toLineEnd } :=
    ⟨hwhole.events, hwhole.marks, hwhole.outcome, h.toLineEnd hm⟩
  exact hend.andThen (Agree.report (congrArg Event.json h.position))

end Step.Alike

/-- A rule runs alike on lines with the same text. -/
theorem Rule.alike_run {version : Version} {env : Env} {m : Position → Position}
    (hm : Position.MovesLines m) (hsound : ∀ c, (env.nested c).Sound version c)
    (hn : ∀ {c d}, Cursor.Alike m c d → Step.Alike m (env.nested c) (env.nested d)) {r : Rule}
    {known : Option Look} (hr : r.WellFormed env.dialect known) {c d : Cursor}
    (hq : ∀ l ∈ known, l.holds ⟨c.line, .origin⟩ = true) (h : Cursor.Alike m c d) :
    Step.Alike m (r.run env c) (r.run env d) := by
  induction r generalizing known c d with
  | done => exact .done h
  | read a next ih =>
    exact .argument hm hr.1 hq h fun x hx =>
      ih x (hr.2 x (Argument.answers_of_read hx)) (known_none _)
  | expect x next ih => exact (Step.Alike.expect hm hr.1 h).andThen (ih hr.2 (known_none _))
  | spaces next ih => exact ih hr (known_none _) (h.skipSpaces hm)
  | negation next ih => exact ih hr (known_none _) (h.negation hm)
  | look q yes no ihy ihn =>
    have hsees := Look.seesLine_holds hr.1
    unfold run
    rw [h.sees hsees]
    split
    · next hyes => exact ihy hr.2.1 (known_of_holds hr.1 hyes) h
    · exact ihn hr.2.2 (known_none c) h
  | complain e next ih =>
    exact (Step.Agree.complain Cursor.follow_alike e h).andThen (ih hr (known_none _))
  | refuse e => exact .refuse Cursor.follow_alike e h
  | refuseLine e => exact (Step.Alike.sweep hm e h).andThen .halt
  | list b mayBeEmpty element next ihe ih =>
    have hlist : Step.Alike m (Step.list b mayBeEmpty _ c) (Step.list b mayBeEmpty _ d) :=
      .list Cursor.follow_alike Cursor.follow_alike (Cursor.nests_alike hm b)
        (ihe hr.1 (known_none _)) (fun d => sound_run hsound hr.1 (known_none d))
        (fun d => sound_run hsound hr.1 (known_none d)) h
    unfold run
    simp only [hlist.marks]
    exact hlist.unmarked.andThen (ih _ (hr.2 _) (known_none _))
  | mark name next ih =>
    have hmark : Step.Alike m ⟨[], [name], .done, c⟩ ⟨[], [name], .done, d⟩ := ⟨rfl, rfl, rfl, h⟩
    exact hmark.andThen (ih hr (known_none _))
  | clauses keywords clause next ihc ih =>
    unfold run
    rw [h.line]
    exact .clauses hm (fun w _ _ => ihc w (hr.1 w) (known_none _))
      (fun w _ _ => ih w (hr.2 w) (known_none _)) _ none h
  | nested next ih => exact (hn h).andThen (ih hr (known_none _))
  | embedded inner next ihi ih =>
    have hinner : Cursor.Alike m ⟨Text.trimEnd c.line, c.position⟩
        ⟨Text.trimEnd d.line, d.position⟩ := by
      rw [h.line, h.position]
      exact ⟨rfl, rfl⟩
    -- Without line breaks in the inner texts, both of them end where their lines do.
    have hrest (e : Cursor) :
        '\n' ∉ (inner.run env ⟨Text.trimEnd e.line, e.position⟩).cursor.rest :=
      (sound_run hsound hr.1 (known_none _)).ahead.notMem fun he =>
        e.newline_notMem_line (Text.mem_of_mem_trimEnd he)
    exact (Step.Alike.embedded hm h (ihi hr.1 (known_none _) hinner) (hrest c) (hrest d)).andThen
      (ih hr.2 (known_none _))
  | noteTooDeep next ih =>
    have hnotice : Event.notice (.jsonTooDeep d.position maxNesting) =
        (Event.notice (.jsonTooDeep c.position maxNesting)).moved m := by
      rw [h.position]
      rfl
    exact (Step.Agree.report hnotice h).andThen (ih hr (known_none _))
  | ask next ih => exact ih env.dialect hr hq h
  | fault f => exact absurd hr (by simp [WellFormed])

end BedrockCommand
