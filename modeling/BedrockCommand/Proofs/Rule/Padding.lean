import BedrockCommand.Proofs.Rule.Accepts
import BedrockCommand.Proofs.Rule.Orderly
/-!
Orderly rules and the spaces at the end of a line. What an orderly rule reads without an error is
read without an error from the same line with more spaces or fewer, with the same reports.
-/
namespace BedrockCommand

open Cursor (Padded Flush)
open Look (known_none known_of_holds)

theorem Brackets.opening_ne_space (b : Brackets) : b.opening ≠ ' ' := by
  cases b <;> decide

theorem Brackets.closing_ne_space (b : Brackets) : b.closing ≠ ' ' := by
  cases b <;> decide

/-- What an event says, wherever it is said. -/
def Event.placeless : Event → Event :=
  Event.moved fun _ => .origin

namespace Step

/-- Two steps that are both done and report the same, apart from the places, and end at cursors in
a relation. -/
structure Matches (R : Cursor → Cursor → Prop) (s t : Step) : Prop where
  events : t.events.map Event.placeless = s.events.map Event.placeless
  marks : t.marks = s.marks
  outcome : s.outcome = .done
  outcome' : t.outcome = .done
  cursor : R s.cursor t.cursor

/-- A step that is read without an error from the first of two cursors is read in the same way from
the second one, which leaves the lines flush. -/
def Pads (R : Cursor → Cursor → Prop) (f : Cursor → Step) : Prop :=
  ∀ c d, R c d → (f c).Clean → (f c).Matches Flush (f d)

variable {R R' : Cursor → Cursor → Prop} {s t : Step} {f g : Cursor → Step} {c d : Cursor}

namespace Matches

theorem done (h : R c d) : (Step.done c).Matches R (Step.done d) :=
  ⟨rfl, rfl, rfl, rfl, h⟩

theorem andThen (h : s.Matches R t) (hf : (f s.cursor).Matches R' (g t.cursor)) :
    (s.andThen f).Matches R' (t.andThen g) := by
  simp only [Step.andThen, h.outcome, h.outcome']
  exact ⟨by simp [h.events, hf.events], by simp [h.marks, hf.marks], hf.outcome, hf.outcome',
    hf.cursor⟩

/-- What goes on without an error from where a step is done. -/
theorem andThen_clean (h : s.Matches R t) (hc : (s.andThen f).Clean)
    (hf : R s.cursor t.cursor → (f s.cursor).Clean → (f s.cursor).Matches R' (g t.cursor)) :
    (s.andThen f).Matches R' (t.andThen g) :=
  h.andThen (hf h.cursor (hc.right h.outcome))

theorem settle (h : s.Matches R t) : s.settle.Matches R t.settle := by
  rwa [settle_of_done h.outcome, settle_of_done h.outcome']

theorem unmarked (h : s.Matches R t) : s.unmarked.Matches R t.unmarked :=
  ⟨h.events, rfl, h.outcome, h.outcome', h.cursor⟩

theorem report {e e' : Event} (he : e'.placeless = e.placeless) (h : R c d) :
    (Step.report e c).Matches R (Step.report e' d) :=
  ⟨by simp [Step.report, he], rfl, rfl, rfl, h⟩

theorem token {c' d' : Cursor} (kind : TokenKind) (value : TokenValue) (w : Option WarningKind)
    (hc : c.Ahead c') (hd : d.Ahead d') (h : R c' d') :
    (Step.token (some kind) value w c c').Matches R (Step.token (some kind) value w d d') := by
  rw [token_ahead _ _ _ hc, token_ahead _ _ _ hd]
  refine ⟨?_, rfl, rfl, rfl, h⟩
  simp [Event.placeless, map_warningEvents, Event.moved, Span.moved]

/-- Two readings of an argument that differ in nothing but where they end. -/
theorem argument {a : Argument} {next next' : a.Answer → Cursor → Step}
    (hclean : (Step.argument a c next).Clean)
    (hr : a.read d = (a.read c).endAt (a.read d).cursor) (hc : c.Ahead (a.read c).cursor)
    (hd : d.Ahead (a.read d).cursor)
    (hn : ∀ x, (a.read c).answer = some x → (next x (a.read c).cursor).Clean →
      (next x (a.read c).cursor).Matches R (next' x (a.read d).cursor)) :
    (Step.argument a c next).Matches R (Step.argument a d next') := by
  have hanswer : (a.read d).answer = (a.read c).answer :=
    (congrArg Reading.answer hr).trans rfl
  obtain ⟨x, hx⟩ : ∃ x, (a.read c).answer = some x :=
    Option.ne_none_iff_exists'.mp fun h => by
      obtain ⟨_, hk, -⟩ := a.outspoken_read c h
      exact clean_argument hclean hk
  obtain ⟨kind, hk, heq⟩ := argument_eq next hc hx
  obtain ⟨kind', hk', heq'⟩ := argument_eq next' hd (hanswer.trans hx)
  have hkind : (a.read d).kind = (a.read c).kind := (congrArg Reading.kind hr).trans rfl
  have hvalue : (a.read d).value = (a.read c).value := (congrArg Reading.value hr).trans rfl
  have hwarning : (a.read d).warning = (a.read c).warning :=
    (congrArg Reading.warning hr).trans rfl
  obtain rfl : kind' = kind := Option.some.inj (hk'.symm.trans (hkind.trans hk))
  rw [heq, heq', hvalue, hwarning]
  exact (token kind' _ _ hc hd (R := fun _ _ => True) trivial).andThen
    (hn x hx (hclean.of_argument hc hx))

end Matches

theorem pads_expect {x : Char} (hx : x ≠ ' ') : Pads Padded (expect x) := by
  intro c d h hc
  simp only [expect, Reader.symbol_apply, h.isAt hx] at hc ⊢
  cases hat : c.isAt x with
  | true => exact .done h.advance.skipSpaces
  | false =>
    rw [hat] at hc
    exact absurd hc.left (not_clean_error _ _ _)

/-! ## Lists -/

section

variable {b : Brackets} {fuel fuel' : Nat}

theorem pads_close : Pads Padded close :=
  fun _ _ h _ => .done h.advance.skipSpaces

theorem matches_afterElement (h : Padded c d) (hc : (afterElement b f (fuel + 1) c).Clean)
    (hf : c.isAt ',' = true → (f c.advance).Clean → (f c.advance).Matches Flush (g d.advance)) :
    (afterElement b f (fuel + 1) c).Matches Flush (afterElement b g (fuel' + 1) d) := by
  have htrailing : isTrailing b.closing d = isTrailing b.closing c :=
    h.advance.skipSpaces.padded.isAt b.closing_ne_space
  unfold afterElement at hc ⊢
  rw [h.isAt b.closing_ne_space, h.isAt (by decide : ',' ≠ ' '), htrailing]
  split
  · exact pads_close c d h (clean_done _)
  · next hclosing =>
    rw [if_neg hclosing] at hc
    split
    · next hcomma =>
      rw [if_pos hcomma] at hc
      split
      · next ht =>
        rw [if_pos ht] at hc
        exact absurd hc.left (not_clean_error _ _ _)
      · next ht =>
        rw [if_neg ht] at hc
        exact hf hcomma hc
    · next hcomma =>
      rw [if_neg hcomma] at hc
      split at hc
      · exact absurd hc.left (not_clean_error _ _ _)
      · exact absurd hc.left (not_clean_error _ _ _)

/-- The spaces at the end of the line are part of what bounds the number of elements. -/
theorem matches_elements {version : Version} (hs : ∀ d, (f d).Sound version d)
    (hf : Pads Flush f) (h : Padded c d) (hc : (elements b f fuel c).Clean)
    (hd : d.line.length < fuel') :
    (elements b f fuel c).Matches Flush (elements b f fuel' d) := by
  induction fuel generalizing c d fuel' with
  | zero => exact absurd hc (not_clean_fail _ _)
  | succ fuel ih =>
    obtain _ | fuel' := fuel'
    · omega
    unfold elements at hc ⊢
    simp only at hc ⊢
    have hclean : (f c.skipSpaces).Clean := by
      split at hc
      · exact hc
      · exact hc.left.of_settle
    have helement := hf _ _ h.skipSpaces hclean
    rw [if_neg (by simp [helement.outcome])] at hc ⊢
    rw [if_neg (by simp [helement.outcome'])]
    refine helement.settle.andThen_clean hc fun hflush hafter => ?_
    refine matches_afterElement hflush.padded hafter fun hcomma hnext => ?_
    refine ih hflush.padded.advance hnext ?_
    -- The comma has taken a character from the line.
    have hcomma' := (hflush.padded.isAt (by decide)).trans hcomma
    have hlt := Cursor.length_line_advance (by decide) hcomma'
    have := (hs d.skipSpaces).settle.ahead.length_line_le
    have := d.ahead_skipSpaces.length_line_le
    omega

theorem pads_list {version : Version} {mayBeEmpty : Bool} (hs : ∀ d, (f d).Sound version d)
    (hf : Pads Flush f) : Pads Padded (list b mayBeEmpty f) := by
  intro c d h hc
  have hinside := h.advance.skipSpaces.padded
  unfold list at hc ⊢
  rw [h.isAt b.opening_ne_space]
  split
  · next ho =>
    rw [if_pos ho] at hc
    exact absurd hc.left (not_clean_error _ _ _)
  · next ho =>
    rw [if_neg ho] at hc
    simp only [hinside.isAt b.closing_ne_space] at hc ⊢
    split
    · next hclosing =>
      rw [if_pos hclosing] at hc
      split
      · exact pads_close _ _ hinside (clean_done _)
      · next hm =>
        rw [if_neg hm] at hc
        exact absurd hc.left (not_clean_error _ _ _)
    · next hclosing =>
      rw [if_neg hclosing] at hc
      exact matches_elements hs hf hinside hc (Nat.lt_succ_self _)

end

/-! ## Clauses and texts up to the end of the line -/

theorem matches_clauses {version : Version} {keywords : List String}
    {clause : String → Cursor → Step} {finish : Option String → Cursor → Step}
    (hs : ∀ w d, (clause w d).Sound version d) (hclause : ∀ w, Pads Flush (clause w))
    (hfinish : ∀ w, Pads Flush (finish w)) {fuel fuel' : Nat} {last : Option String}
    (h : Flush c d) (hc : (clauses keywords clause finish fuel last c).Clean)
    (hd : d.line.length < fuel') :
    (clauses keywords clause finish fuel last c).Matches Flush
      (clauses keywords clause finish fuel' last d) := by
  induction fuel generalizing c d fuel' last with
  | zero => exact absurd hc (not_clean_fail _ _)
  | succ fuel ih =>
    obtain _ | fuel' := fuel'
    · omega
    unfold clauses at hc ⊢
    rw [h.lineContinues]
    split
    · next hl =>
      rw [if_pos hl] at hc
      exact hfinish last c d h hc
    · next hl =>
      rw [if_neg hl] at hc
      obtain ⟨hr, hflush⟩ := Argument.pads_read (a := .keyword keywords) rfl c d h.padded
        (clean_argument hc)
      have hahead := Argument.ahead_keyword keywords
      refine .argument hc hr (hahead c) (hahead d) fun w hw hnext => ?_
      refine (hclause w _ _ hflush hnext.left).andThen_clean hnext fun h' hrest => ih h' hrest ?_
      have hanswer : ((Argument.keyword keywords).read d).answer = some w := by
        rw [hr]
        exact hw
      have := Argument.length_line_lt_of_keyword hanswer (hs w _).ahead
      omega

/-- What has to be read to the end. -/
theorem matches_whole (hs : s.Clean → s.Matches Flush t) (hc : s.whole.Clean) :
    s.whole.Matches Flush t.whole := by
  refine (hs hc.left.of_settle).settle.andThen_clean hc fun h hend => ?_
  simp only [h.atEnd] at hend ⊢
  split
  · exact .done h
  · next he =>
    rw [if_neg he] at hend
    exact absurd hend (not_clean_error _ _ _)

/-- A text that ends a line is the same on both lines, without the blanks behind it. -/
theorem matches_embedded (h : Padded c d) (hs : s.Clean → s.Matches Flush t)
    (hc : (Step.andThen { s.whole with cursor := c.toLineEnd }
      (Step.report (.json c.position))).Clean) :
    (Step.andThen { s.whole with cursor := c.toLineEnd }
      (Step.report (.json c.position))).Matches Flush
      (Step.andThen { t.whole with cursor := d.toLineEnd } (Step.report (.json d.position))) := by
  obtain ⟨hfaultless, honly⟩ := hc.left
  have hwhole := matches_whole hs ⟨hfaultless, honly⟩
  have hmoved : Step.Matches Flush { s.whole with cursor := c.toLineEnd }
      { t.whole with cursor := d.toLineEnd } :=
    ⟨hwhole.events, hwhole.marks, hwhole.outcome, hwhole.outcome', h.toLineEnd⟩
  exact hmoved.andThen (.report rfl h.toLineEnd)

end Step

/-- A question has the same answer on both lines. Only what is left of a line depends on the spaces
at its end. -/
theorem Look.holds_padded {q : Look} {c d : Cursor} (hq : q ≠ .char ' ') (h : Padded c d)
    (hl : q = .line → Flush c d) : q.holds d = q.holds c := by
  have hnumber : Reader.startsNumber d = Reader.startsNumber c := h.head?_any (by decide)
  have htilde : d.isAt '~' = c.isAt '~' := h.isAt (by decide)
  cases q with
  | line => exact (hl rfl).lineContinues
  | char x => exact h.isAt fun hx => hq (hx ▸ rfl)
  | number => exact hnumber
  | coordinate => simp only [holds, hnumber, htilde, h.isAt (by decide : '^' ≠ ' ')]
  | angle => simp only [holds, hnumber, htilde]
  | text => simp only [holds, h.terminated, h.isAt (by decide : '"' ≠ ' ')]
  | comparison =>
    simp only [holds, h.isAt (by decide : '<' ≠ ' '), h.isAt (by decide : '>' ≠ ' '),
      h.isAt (by decide : '=' ≠ ' ')]
  | word w =>
    have hword : (d.ahead fun x => !isTerminating x) = c.ahead fun x => !isTerminating x :=
      h.ahead (by decide)
    simp only [holds, hword]
  | jsonNumber =>
    have hdigit : d.rest.head?.any Char.isDigit = c.rest.head?.any Char.isDigit :=
      h.head?_any (by decide)
    simp only [holds, h.isAt (by decide : '-' ≠ ' '), hdigit]
  | jsonConstant w =>
    have hword : d.ahead Char.isAlphanum = c.ahead Char.isAlphanum := h.ahead (by decide)
    simp only [holds, hword]

namespace Rule

/-- Apart from the spaces at the end of a line, an orderly rule that runs without an error runs in
the same way on the line, if the commands inside it do. -/
theorem pads_run {version : Version} {env : Env} {allowed : Argument → Bool} {nests : Prop}
    (hs : ∀ c, (env.nested c).Sound version c) (hn : Step.Pads Padded env.nested) {r : Rule}
    {known : Option Look} {flush : Bool} (hw : r.WellFormed env.dialect known)
    (ho : r.Orderly allowed nests flush) {c d : Cursor} (h : Padded c d)
    (he : flush = true → Flush c d)
    (hq : ∀ l ∈ known, l.holds ⟨c.line, .origin⟩ = true)
    (hq' : ∀ l ∈ known, l.holds ⟨d.line, .origin⟩ = true) (hc : (r.run env c).Clean) :
    (r.run env c).Matches Flush (r.run env d) := by
  induction r generalizing known allowed nests flush c d with
  | done => exact .done (he ho)
  | read a next ih =>
    have hk := Step.clean_argument hc
    obtain ⟨hr, h'⟩ := a.padded_read c d h hk
    refine .argument hc hr (a.ahead_read hw.1 c hq) (a.ahead_read hw.1 d hq') fun x hx hnext => ?_
    exact ih x (hw.2 x (Argument.answers_of_read hx)) (ho.2 x) h'
      (fun ha => (Argument.pads_read ha c d h hk).2) (known_none _) (known_none _) hnext
  | expect x next ih =>
    refine (Step.pads_expect ho.1 c d h hc.left).andThen_clean hc fun h' hnext => ?_
    exact ih hw.2 ho.2 h'.padded (fun _ => h') (known_none _) (known_none _) hnext
  | spaces next ih =>
    exact ih hw ho h.skipSpaces.padded (fun _ => h.skipSpaces) (known_none _) (known_none _) hc
  | negation next ih =>
    exact ih hw ho h.negation (fun hf => (he hf).negation) (known_none _) (known_none _) hc
  | look q yes no ihy ihn =>
    obtain ⟨hline, hspace, hyes, hno⟩ := ho
    rw [run_look] at hc
    rw [run_look, run_look, Look.holds_padded hspace h fun hl => he (hline hl)]
    split
    · next hholds =>
      rw [if_pos hholds] at hc
      have hholds' := (Look.holds_padded hspace h fun hl => he (hline hl)).trans hholds
      exact ihy hw.2.1 hyes h he (known_of_holds hw.1 hholds)
        (known_of_holds hw.1 hholds') hc
    · next hholds =>
      rw [if_neg hholds] at hc
      exact ihn hw.2.2 hno h he (known_none c) (known_none d) hc
  | complain e next ih => exact absurd hc.left (Step.not_clean_error _ _ _)
  | refuse e => exact absurd hc.left (Step.not_clean_error _ _ _)
  | refuseLine e => exact absurd hc.left (Step.not_clean_error _ _ _)
  | list b mayBeEmpty element next ihe ih =>
    have helement : Step.Pads Flush (element.run env) := fun c d h hc =>
      ihe hw.1 ho.1 h.padded (fun _ => h) (known_none c) (known_none d) hc
    have hclean : (Step.list b mayBeEmpty (element.run env) c).Clean :=
      ⟨hc.left.faultless, hc.left.only⟩
    have hlist := Step.pads_list (fun d => sound_run hs hw.1 (known_none d)) helement c d h hclean
    simp only [run, hlist.marks] at hc ⊢
    refine hlist.unmarked.andThen_clean hc fun h' hnext => ?_
    exact ih _ (hw.2 _) (ho.2 _) h'.padded (fun _ => h') (known_none _) (known_none _) hnext
  | mark name next ih =>
    have hmark : Step.Matches (fun _ _ => True) ⟨[], [name], .done, c⟩ ⟨[], [name], .done, d⟩ :=
      ⟨rfl, rfl, rfl, rfl, trivial⟩
    exact hmark.andThen_clean hc fun _ hnext => ih hw ho h he (known_none c) (known_none d) hnext
  | clauses keywords clause next ihc ih =>
    have hclause (w : String) : Step.Pads Flush ((clause w).run env) := fun c d h hc =>
      ihc w (hw.1 w) (ho.2.2.1 w) h.padded (fun _ => h) (known_none c) (known_none d) hc
    have hnext (w : Option String) : Step.Pads Flush ((next w).run env) := fun c d h hc =>
      ih w (hw.2 w) (ho.2.2.2 w) h.padded (fun _ => h) (known_none c) (known_none d) hc
    exact Step.matches_clauses (fun w d => sound_run hs (hw.1 w) (known_none d)) hclause hnext
      (he ho.1) hc (Nat.lt_succ_self _)
  | nested next ih =>
    refine (hn c d h hc.left).andThen_clean hc fun h' hnext => ?_
    exact ih hw ho.2 h'.padded (fun _ => h') (known_none _) (known_none _) hnext
  | embedded inner next ihi ih =>
    have hinner : Flush ⟨Text.trimEnd c.line, c.position⟩ ⟨Text.trimEnd d.line, d.position⟩ := by
      rw [h.trimEnd_line]
      exact ⟨⟨.refl _, fun hx => c.newline_notMem_line (Text.mem_of_mem_trimEnd hx)⟩, rfl⟩
    refine (Step.matches_embedded h (fun hc => ?_) hc.left).andThen_clean hc fun h' hnext => ?_
    · exact ihi hw.1 ho.1 hinner.padded (fun _ => hinner) (known_none _) (known_none _) hc
    · exact ih hw.2 ho.2 h'.padded (fun _ => h') (known_none _) (known_none _) hnext
  | noteTooDeep next ih =>
    refine Step.Matches.andThen_clean (.report rfl h) hc fun _ hnext => ?_
    exact ih hw ho h he (known_none c) (known_none d) hnext
  | ask next ih => exact ih env.dialect hw (ho _) h he hq hq' hc
  | fault f => exact absurd hc (Step.not_clean_fail _ _)

end Rule
end BedrockCommand
