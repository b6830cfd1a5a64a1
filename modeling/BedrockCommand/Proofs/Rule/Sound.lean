import BedrockCommand.Proofs.Rule.Trace
import BedrockCommand.Rule.Run
/-!
Sound steps. A step is sound if it does not fail for a reason that lies in the grammar, and if its
events lie along the line from where it starts to where it ends. Steps made of sound steps are
sound; the fuel of a repetition does not run out, since each round moves on.
-/
namespace BedrockCommand

theorem not_isStructural_newline : ¬ isStructural '\n' := by
  simp [isStructural, punctuation]

theorem ne_newline_of_isStructural {x : Char} (h : isStructural x) : x ≠ '\n' :=
  fun e => not_isStructural_newline (e ▸ h)

theorem isStructural_space : isStructural ' ' := .inl rfl

theorem isStructural_comma : isStructural ',' := by
  simp [isStructural, punctuation]

theorem isStructural_opening (b : Brackets) : isStructural b.opening := by
  cases b <;> simp [isStructural, punctuation, Brackets.opening]

theorem isStructural_closing (b : Brackets) : isStructural b.closing := by
  cases b <;> simp [isStructural, punctuation, Brackets.closing]

theorem Span.between_ahead {c d : Cursor} (h : c.Ahead d) :
    Span.between c.position d.position = .ok ⟨c.position, d.position⟩ := by
  rw [Span.between, if_neg (Position.not_lt_of_le h.position_le)]

namespace Step

variable {c d : Cursor}

/-- A token that has a kind and ends further along the line. -/
theorem token_ahead (kind : TokenKind) (value : TokenValue) (w : Option WarningKind)
    (h : c.Ahead d) : token (some kind) value w c d =
      ⟨.token ⟨kind, value, ⟨c.position, d.position⟩⟩ ::
        warningEvents w ⟨c.position, d.position⟩, [], .done, d⟩ := by
  simp only [token, Span.between_ahead h]

theorem error_ahead (e : SyntaxError) (h : c.Ahead d) : error e c d =
    ⟨[.token ⟨.error, .error e, ⟨c.position, d.position⟩⟩], [], .done, d⟩ :=
  token_ahead _ _ _ h

theorem sweep_eq (e : SyntaxError) (c : Cursor) : sweep e c =
    ⟨[.token ⟨.error, .error e, ⟨c.position, c.toLineEnd.position⟩⟩], [], .done, c.toLineEnd⟩ :=
  error_ahead e c.ahead_toLineEnd

/-- What does not fail is done once it is settled. -/
theorem outcome_settle_of_faultless {s : Step} (h : ∀ f, s.outcome ≠ .failed f) :
    s.settle.outcome = .done := by
  unfold settle
  cases ho : s.outcome with
  | done | halted => simp [ho]
  | failed f => exact absurd ho (h f)

end Step

/-- A step from a cursor that does not fail, with its events along the line. -/
structure Step.Sound (version : Version) (c : Cursor) (s : Step) : Prop where
  faultless : ∀ f, s.outcome ≠ .failed f
  trace : Trace version isStructural c s.events s.cursor

namespace Step.Sound

variable {version : Version} {c d : Cursor} {s : Step}

theorem ahead (h : s.Sound version c) : c.Ahead s.cursor :=
  h.trace.ahead not_isStructural_newline

/-- Characters between tokens may be passed over in front of a step. -/
theorem after (ht : Trace version isStructural c [] d) (h : s.Sound version d) :
    s.Sound version c :=
  ⟨h.faultless, ht.append h.trace⟩

theorem done (c : Cursor) : (Step.done c).Sound version c :=
  ⟨by simp [Step.done], .nil c⟩

theorem halt (c : Cursor) : (Step.halt c).Sound version c :=
  ⟨by simp [Step.halt], .nil c⟩

theorem notice (n : Notice) (c : Cursor) : (Step.report (.notice n) c).Sound version c :=
  ⟨by simp [Step.report], .notice n (.nil c)⟩

/-- What goes on from where the first step is done. -/
theorem andThen {next : Cursor → Step} (hs : s.Sound version c)
    (hn : s.outcome = .done → (next s.cursor).Sound version s.cursor) :
    (s.andThen next).Sound version c := by
  unfold Step.andThen
  split
  · next h => exact ⟨(hn h).faultless, hs.trace.append (hn h).trace⟩
  · exact hs

theorem settle (h : s.Sound version c) : s.settle.Sound version c := by
  unfold Step.settle
  split
  · exact ⟨by simp, h.trace⟩
  · exact h

theorem unmarked (h : s.Sound version c) : s.unmarked.Sound version c :=
  ⟨h.faultless, h.trace⟩

/-- A token of a known kind, made of a stretch of the line. -/
theorem token {t : Token} {w : Option WarningKind} (ht : Reported version c t w d)
    (ha : c.Ahead d) : (Step.token (some t.kind) t.value w c d).Sound version c := by
  rw [token_ahead _ _ _ ha, ← ht.span]
  refine ⟨by simp, ?_⟩
  simpa using Trace.token ht ha (.nil d)

theorem error (e : SyntaxError) (ha : c.Ahead d) : (Step.error e c d).Sound version c :=
  token (.error e c d) ha

/-- What goes on behind an error. -/
theorem errorThen {e : SyntaxError} {next : Cursor → Step} (ha : c.Ahead d)
    (hn : (next d).Sound version d) : ((Step.error e c d).andThen next).Sound version c := by
  refine (error e ha).andThen fun _ => ?_
  rw [error_ahead e ha]
  exact hn

theorem complain (e : SyntaxError) (c : Cursor) : (Step.complain e c).Sound version c :=
  error e (.refl c)

theorem refuse (e : SyntaxError) (c : Cursor) : (Step.refuse e c).Sound version c :=
  (complain e c).andThen fun _ => halt _

theorem sweep (e : SyntaxError) (c : Cursor) : (Step.sweep e c).Sound version c :=
  error e c.ahead_toLineEnd

theorem argument {a : Argument} {known : Option Look} (ha : a.FitsAfter known)
    (hq : ∀ l ∈ known, l.holds ⟨c.line, .origin⟩ = true) {next : a.Answer → Cursor → Step}
    (hn : ∀ x, (a.read c).answer = some x →
      (next x (a.read c).cursor).Sound version (a.read c).cursor) :
    (Step.argument a c next).Sound version c := by
  obtain ⟨kind, hk⟩ := a.exists_kind_read c
  have hahead := a.ahead_read ha c hq
  have htoken : (Step.token (some kind) _ _ c _).Sound version c :=
    token (.argument a c hk) hahead
  unfold Step.argument
  simp only [hk]
  refine htoken.andThen fun hd => ?_
  rw [token_ahead _ _ _ hahead]
  split
  · next x hx => exact hn x hx
  · exact halt _

theorem expect {x : Char} (hx : isStructural x) (c : Cursor) :
    (Step.expect x c).Sound version c := by
  unfold Step.expect
  rw [Reader.symbol_apply]
  cases hat : c.isAt x with
  | true => exact (done _).after ((Trace.advance hx hat).append (.skipSpaces isStructural_space _))
  | false => exact refuse _ c

theorem close {b : Brackets} (h : c.isAt b.closing = true) : (Step.close c).Sound version c :=
  (done _).after ((Trace.advance (isStructural_closing b) h).append
    (.skipSpaces isStructural_space _))

/-- After an element there are at most as many rounds as there are characters on the line. -/
theorem afterElement {b : Brackets} {next : Cursor → Step} {fuel : Nat}
    (hf : c.line.length < fuel)
    (hn : ∀ d, c.Ahead d → d.line.length < c.line.length → (next d).Sound version d) :
    (Step.afterElement b next fuel c).Sound version c := by
  induction fuel generalizing c with
  | zero => omega
  | succ fuel ih =>
    unfold Step.afterElement
    split
    · next hc => exact close hc
    split
    · next hcomma =>
      have hahead := Cursor.ahead_advance (by decide) hcomma
      split
      · next ht =>
        refine errorThen hahead ?_
        exact (close ht).after (.skipSpaces isStructural_space _)
      · have hlt := Cursor.length_line_advance (by decide) hcomma
        exact (hn _ hahead hlt).after (.advance isStructural_comma hcomma)
    · next hclose hcomma =>
      split
      · exact refuse _ c
      · next hl =>
        -- The cursor is at no separator, so that the way to the next one is not empty.
        have hahead := c.ahead_toSeparator b.closing
        have hlt := Cursor.length_line_toSeparator (by simpa using hl) (by simpa using hclose)
          (by simpa using hcomma)
        refine errorThen hahead ?_
        exact ih (by omega) fun d hd hd' => hn d (hahead.trans hd) (by omega)

theorem elements {b : Brackets} {element : Cursor → Step} {fuel : Nat}
    (he : ∀ d, (element d).Sound version d) (hf : c.line.length < fuel) :
    (Step.elements b element fuel c).Sound version c := by
  induction fuel generalizing c with
  | zero => omega
  | succ fuel ih =>
    have hs := (he c.skipSpaces).after (.skipSpaces isStructural_space c)
    unfold Step.elements
    simp only
    split
    · exact hs
    · -- An element may end where it starts. What moves on is the comma behind it.
      refine hs.settle.andThen fun _ => afterElement (Nat.lt_succ_self _) fun d _ hd => ih ?_
      have := hs.settle.ahead.length_line_le
      omega

theorem list {b : Brackets} {mayBeEmpty : Bool} {element : Cursor → Step}
    (he : ∀ d, (element d).Sound version d) (c : Cursor) :
    (Step.list b mayBeEmpty element c).Sound version c := by
  unfold Step.list
  split
  · exact refuse _ c
  · next ho =>
    have hopen : Trace version isStructural c [] c.advance :=
      .advance (isStructural_opening b) (by simpa using ho)
    refine Sound.after (hopen.append (.skipSpaces isStructural_space _)) ?_
    simp only
    split
    · next hc =>
      split
      · exact close hc
      · exact errorThen (.refl _) (close hc)
    · exact elements he (Nat.lt_succ_self _)

theorem clauses {keywords : List String} {clause : String → Cursor → Step}
    {finish : Option String → Cursor → Step} {fuel : Nat} {last : Option String}
    (hc : ∀ w d, (clause w d).Sound version d) (hd : ∀ w d, (finish w d).Sound version d)
    (hf : c.line.length < fuel) :
    (Step.clauses keywords clause finish fuel last c).Sound version c := by
  induction fuel generalizing c last with
  | zero => omega
  | succ fuel ih =>
    unfold Step.clauses
    split
    · exact hd last c
    · refine argument (Argument.fitsAfter_keyword keywords) (Look.known_none c) fun w hw => ?_
      have hs := hc w ((Argument.keyword keywords).read c).cursor
      have := Argument.length_line_lt_of_keyword hw hs.ahead
      exact hs.andThen fun _ => ih (by omega)

theorem outcome_settle (h : s.Sound version c) : s.settle.outcome = .done :=
  outcome_settle_of_faultless h.faultless

/-- What has to be read to the end is done. -/
theorem outcome_whole (h : s.Sound version c) : s.whole.outcome = .done := by
  unfold Step.whole
  simp only [Step.andThen, h.outcome_settle]
  split
  · rfl
  · rw [sweep_eq]

theorem whole (h : s.Sound version c) : s.whole.Sound version c := by
  refine h.settle.andThen fun _ => ?_
  split
  · exact done _
  · exact sweep _ _

/-- What has to be read to the end leaves nothing of a line that stands alone. -/
theorem rest_whole (h : s.Sound version c) (hc : '\n' ∉ c.rest) : s.whole.cursor.rest = [] := by
  have hd : '\n' ∉ s.settle.cursor.rest := h.settle.ahead.notMem hc
  unfold Step.whole
  simp only [Step.andThen, h.outcome_settle]
  split
  · next he => exact Cursor.atEnd_iff.mp he
  · rw [sweep_eq]
    exact Cursor.rest_toLineEnd hd

/-- The JSON text that ends a line, and the blanks after it. -/
theorem embedded {inner : Step}
    (hi : inner.Sound version ⟨Text.trimEnd c.line, c.position⟩) :
    (Step.andThen { inner.whole with cursor := c.toLineEnd }
      (Step.report (.json c.position))).Sound version c := by
  obtain ⟨tail, ht, hc⟩ := c.exists_line
  have hn := c.newline_notMem_line
  obtain ⟨blanks, hb, hblank⟩ := Text.exists_trimEnd_append c.line
  have hend : c.toLineEnd = ⟨tail, c.position.after (Text.trimEnd c.line ++ blanks)⟩ := by
    rw [← hb, hc, Cursor.toLineEnd_append ht hn, ← hc]
  -- Nothing is left of the inner text, so that its trace ends where the blanks start.
  have hrest := hi.rest_whole fun h => hn (Text.mem_of_mem_trimEnd h)
  have htrace := hi.whole.trace
  rw [hi.whole.ahead.eq_of_rest hrest] at htrace
  have hj := Trace.json (hb ▸ hn) hblank ht htrace (.nil _)
  rw [← hend, ← hb, ← hc] at hj
  simp only [Step.andThen, hi.outcome_whole]
  exact ⟨by simp [Step.report], hj⟩

end Step.Sound
end BedrockCommand
