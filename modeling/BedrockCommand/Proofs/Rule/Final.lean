import BedrockCommand.Proofs.Argument.Final
import BedrockCommand.Proofs.Tokenize.Events
/-!
Steps that give up on their line. Such an error is the last token of the step, and nothing is left
of the line behind it. A rule inside a list also gives up itself, so that the list does not go on;
what comes last on a line need not.
-/
namespace BedrockCommand

namespace Step

variable {s : Step} {f : Cursor → Step} {c d : Cursor} {halts : Prop}

/-- A step that does not give up on its line. -/
def Quiet (s : Step) : Prop :=
  ∀ t ∈ s.tokens, t.isFinal = false

/-- A step that gives up on its line with its last token or not at all. Where it gives up, nothing
is left of the line, and if it has to, it does not go on. -/
def Concludes (halts : Prop) (s : Step) : Prop :=
  s.Quiet ∨ (∃ before t, s.tokens = before ++ [t] ∧ ∀ u ∈ before, u.isFinal = false) ∧
    s.cursor.line = [] ∧ (halts → s.outcome = .halted)

theorem tokens_andThen_of_done (h : s.outcome = .done) :
    (s.andThen f).tokens = s.tokens ++ (f s.cursor).tokens := by
  rw [tokens, events_andThen_of_done h, Tokenized.tokens_append]
  rfl

@[simp] theorem tokens_settle (s : Step) : s.settle.tokens = s.tokens := by
  rw [tokens, events_settle]
  rfl

namespace Quiet

theorem of_events (h : s.events = []) : s.Quiet := by
  simp [Quiet, tokens, h]

theorem andThen (hs : s.Quiet) (hf : (f s.cursor).Concludes halts) :
    (s.andThen f).Concludes halts := by
  by_cases hd : s.outcome = .done
  · rcases hf with hf | ⟨⟨before, t, ht, hb⟩, hl, hh⟩
    · left
      intro t ht
      rw [tokens_andThen_of_done hd] at ht
      exact (List.mem_append.mp ht).elim (hs t) (hf t)
    · refine .inr ⟨⟨s.tokens ++ before, t, ?_, fun u hu => ?_⟩, ?_, fun h => ?_⟩
      · rw [tokens_andThen_of_done hd, ht, List.append_assoc]
      · exact (List.mem_append.mp hu).elim (hs u) (hb u)
      · rwa [cursor_andThen_of_done hd]
      · rw [outcome_andThen_of_done hd, hh h]
  · rw [andThen_of_ne_done hd]
    exact .inl hs

theorem token {kind : Option TokenKind} {value : TokenValue} {w : Option WarningKind}
    (hv : ∀ e, value = .error e → e.isFinal = false) : (Step.token kind value w c d).Quiet := by
  unfold Step.token
  split
  · exact .of_events rfl
  · exact .of_events rfl
  · intro t ht
    obtain rfl : t = ⟨_, value, _⟩ := by simpa [tokens] using ht
    cases value with
    | error e => exact hv e rfl
    | _ => rfl

theorem error {e : SyntaxError} (he : e.isFinal = false) (c d : Cursor) :
    (Step.error e c d).Quiet :=
  token fun _ h => TokenValue.error.inj h ▸ he

end Quiet

namespace Concludes

theorem mono (h : s.Concludes True) : s.Concludes halts :=
  h.imp_right fun ⟨ht, hl, hh⟩ => ⟨ht, hl, fun _ => hh trivial⟩

theorem andThen (hs : s.Concludes True) (hf : ∀ d, (f d).Concludes halts) :
    (s.andThen f).Concludes halts := by
  rcases id hs with hq | ⟨-, -, hh⟩
  · exact hq.andThen (hf _)
  · rw [andThen_of_ne_done (by simp [hh trivial])]
    exact hs.mono

/-- Behind a step that may have given up on its line, nothing may be reported. -/
theorem andThen_silent (hs : s.Concludes False) (ht : (f s.cursor).tokens = [])
    (hc : (f s.cursor).cursor = s.cursor) : (s.andThen f).Concludes False := by
  by_cases hd : s.outcome = .done
  · have htokens : (s.andThen f).tokens = s.tokens := by
      rw [tokens_andThen_of_done hd, ht, List.append_nil]
    rcases hs with hq | ⟨hlast, hl, -⟩
    · exact .inl (by rwa [Quiet, htokens])
    · exact .inr ⟨by rwa [htokens], by rwa [cursor_andThen_of_done hd, hc], False.elim⟩
  · rwa [andThen_of_ne_done hd]

theorem settle (hs : s.Concludes halts) : s.settle.Concludes False := by
  rcases hs with hq | ⟨ht, hl, -⟩
  · exact .inl (by rwa [Quiet, tokens_settle])
  · exact .inr ⟨by rwa [tokens_settle], by rwa [cursor_settle], False.elim⟩

theorem done (c : Cursor) : (Step.done c).Concludes halts := .inl (.of_events rfl)

theorem halt (c : Cursor) : (Step.halt c).Concludes halts := .inl (.of_events rfl)

theorem fail (e : Fault) (c : Cursor) : (Step.fail e c).Concludes halts := .inl (.of_events rfl)

theorem unmarked (h : s.Concludes halts) : s.unmarked.Concludes halts := h

/-- A step that ends at the end of the line, with a token or without one. -/
theorem of_line (ht : s.tokens.length ≤ 1) (hl : s.cursor.line = []) : s.Concludes False := by
  cases h : s.tokens with
  | nil => exact .inl (by simp [Quiet, h])
  | cons t ts =>
    obtain rfl : ts = [] := by simpa [h] using ht
    exact .inr ⟨⟨[], t, h, by simp⟩, hl, False.elim⟩

theorem complain (e : SyntaxError) (hl : c.line = []) : (Step.complain e c).Concludes False := by
  rw [Step.complain, error_ahead e (.refl c)]
  exact of_line (by simp [tokens]) hl

theorem sweep (e : SyntaxError) (c : Cursor) : (Step.sweep e c).Concludes False := by
  rw [sweep_eq]
  exact of_line (by simp [tokens]) c.line_toLineEnd

theorem sweepHalt (e : SyntaxError) (c : Cursor) :
    ((Step.sweep e c).andThen Step.halt).Concludes True := by
  rw [sweep_eq]
  exact .inr ⟨⟨[], _, rfl, by simp⟩, c.line_toLineEnd, fun _ => rfl⟩

theorem refuse {e : SyntaxError} (h : Reader.FinalAtEnd e c) :
    (Step.refuse e c).Concludes True := by
  unfold Step.refuse Step.complain
  by_cases he : e.isFinal = true
  · rw [error_ahead e (.refl c)]
    exact .inr ⟨⟨[], _, rfl, by simp⟩, h he, fun _ => rfl⟩
  · exact (Quiet.error (by simpa using he) c c).andThen (halt _)

/-- Behind an argument, a rule goes on only if the argument has not given up on the line. -/
theorem argument {a : Argument} (ha : a.isLine = false) {next : a.Answer → Cursor → Step}
    (hn : ∀ x d, (next x d).Concludes halts) : (Step.argument a c next).Concludes halts := by
  have hread := Argument.concludes_read ha c
  unfold Step.argument
  simp only
  by_cases hf : ∃ e, (a.read c).value = .error e ∧ e.isFinal = true
  · obtain ⟨e, hv, he⟩ := hf
    obtain ⟨hanswer, hline⟩ := hread e hv he
    unfold Step.token
    rw [hanswer]
    split
    · exact fail _ _
    · exact fail _ _
    · next kind span _ _ =>
      exact .inr ⟨⟨[], ⟨kind, (a.read c).value, span⟩,
        by simp [tokens, Step.andThen, Step.halt], by simp⟩, hline, fun _ => rfl⟩
  · refine (Quiet.token fun e hv => by simpa using fun he => hf ⟨e, hv, he⟩).andThen ?_
    split
    · exact hn _ _
    · exact halt _

theorem expect (x : Char) (c : Cursor) : (Step.expect x c).Concludes True := by
  unfold Step.expect
  rw [Reader.symbol_apply]
  by_cases hx : c.isAt x = true
  · rw [if_pos hx]
    exact done _
  · rw [if_neg hx]
    exact refuse (Reader.finalAtEnd_of_not c rfl)

/-! ## Lists -/

variable {b : Brackets}

theorem afterElement (hf : ∀ d, (f d).Concludes True) (fuel : Nat) (c : Cursor) :
    (Step.afterElement b f fuel c).Concludes True := by
  induction fuel generalizing c with
  | zero => exact fail _ c
  | succ fuel ih =>
    unfold Step.afterElement
    split
    · exact done _
    split
    · split
      · exact (Quiet.error rfl _ _).andThen (done _)
      · exact hf _
    split
    · next hl =>
      exact refuse fun _ => Cursor.lineContinues_eq_false_iff.mp (by simpa using hl)
    · exact (Quiet.error rfl _ _).andThen (ih _)

/-- An element that gives up on the line gives up itself, and there the list ends with it. -/
theorem elements (hf : ∀ d, (f d).Concludes True) (fuel : Nat) (c : Cursor) :
    (Step.elements b f fuel c).Concludes True := by
  induction fuel generalizing c with
  | zero => exact fail _ c
  | succ fuel ih =>
    unfold Step.elements
    simp only
    split
    · exact hf _
    · next hgo =>
      rcases hf c.skipSpaces with hq | ⟨-, hl, hh⟩
      · have hsettle : (f c.skipSpaces).settle.Quiet := by rwa [Quiet, tokens_settle]
        exact hsettle.andThen (afterElement ih _ _)
      · exact absurd ⟨hh trivial, Cursor.lineContinues_eq_false_iff.mpr hl⟩ hgo

theorem list {mayBeEmpty : Bool} (hf : ∀ d, (f d).Concludes True) (c : Cursor) :
    (Step.list b mayBeEmpty f c).Concludes True := by
  unfold Step.list
  split
  · exact refuse (Reader.finalAtEnd_of_not c rfl)
  simp only
  split
  · split
    · exact done _
    · exact (Quiet.error rfl _ _).andThen (done _)
  · exact elements hf _ _

end Concludes
end Step

/-- A rule that gives up itself wherever it gives up on the line. It reads no text up to the end of
the line, and no other command. -/
def Rule.Halting : Rule → Prop
  | done => True
  | read a next => a.isLine = false ∧ ∀ x, (next x).Halting
  | expect _ next => next.Halting
  | spaces next => next.Halting
  | negation next => next.Halting
  | look _ yes no => yes.Halting ∧ no.Halting
  | complain e next => e.isFinal = false ∧ next.Halting
  | refuse e => e.isFinal = false
  | refuseLine _ => True
  | list _ _ element next => element.Halting ∧ ∀ entries, (next entries).Halting
  | mark _ next => next.Halting
  | clauses _ _ _ => False
  | nested _ => False
  | embedded _ _ => False
  | noteTooDeep next => next.Halting
  | ask next => ∀ d, (next d).Halting
  | fault _ => True

namespace Rule.Halting

variable {r s : Rule}

theorem append (hr : r.Halting) (hs : s.Halting) : (r ++ s).Halting := by
  change (r.andThen s).Halting
  induction r with
  | done => exact hs
  | refuse | refuseLine | fault => exact hr
  | read a next ih => exact ⟨hr.1, fun x => ih x (hr.2 x)⟩
  | look q yes no ihy ihn => exact ⟨ihy hr.1, ihn hr.2⟩
  | complain e next ih => exact ⟨hr.1, ih hr.2⟩
  | expect x next ih | spaces next ih | negation next ih | mark name next ih
  | noteTooDeep next ih => exact ih hr
  | list b mayBeEmpty element next _ ih => exact ⟨hr.1, fun entries => ih entries (hr.2 entries)⟩
  | clauses | nested | embedded => exact hr.elim
  | ask next ih => exact fun d => ih d (hr d)

theorem run (h : r.Halting) (env : Env) (c : Cursor) : (r.run env c).Concludes True := by
  induction r generalizing c with
  | done => exact .done c
  | read a next ih => exact .argument h.1 fun x d => ih x (h.2 x) d
  | expect x next ih => exact .andThen (.expect x c) (ih h)
  | spaces next ih | negation next ih => exact ih h _
  | look q yes no ihy ihn =>
    unfold Rule.run
    split
    · exact ihy h.1 c
    · exact ihn h.2 c
  | complain e next ih => exact (Step.Quiet.error h.1 c c).andThen (ih h.2 _)
  | refuse e => exact .refuse (Reader.finalAtEnd_of_not c h)
  | refuseLine e => exact .sweepHalt e c
  | list b mayBeEmpty element next ihe ih =>
    exact .andThen (Step.Concludes.list (ihe h.1) c).unmarked fun d => ih _ (h.2 _) d
  | mark name next ih =>
    have hmark : (Step.mk [] [name] .done c).Quiet := .of_events rfl
    exact hmark.andThen (ih h c)
  | clauses | nested | embedded => exact h.elim
  | noteTooDeep next ih =>
    have hnotice : (Step.report (.notice (.jsonTooDeep c.position maxNesting)) c).Quiet := by
      simp [Step.Quiet, Step.tokens, Step.report]
    exact hnotice.andThen (ih h c)
  | ask next ih => exact ih _ (h _) c
  | fault f => exact .fail f c

end Rule.Halting
end BedrockCommand
