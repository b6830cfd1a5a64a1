import BedrockCommand.Proofs.Tokenize.Events
import BedrockCommand.Proofs.Tokenize.Invariant
/-!
Which tokens may be empty. Whatever is accepted covers a character at least, but for one string: the
address of `wsserver` where nothing is left of the line.
-/
namespace BedrockCommand

/-- A token that covers a character at least, unless it is an error, or that stands behind the
keyword of `wsserver` among some events. -/
def Token.IsCovered (es : List Event) (t : Token) : Prop :=
  t.kind = .error ∨ t.span.start < t.span.stop ∨ t.kind = .string ∧ t.value = .none ∧
    ∃ k, .token k ∈ es ∧ k.kind = .command ∧ k.value = .command "wsserver" ∧
      k.span.stop = t.span.start

theorem Token.IsCovered.mono {es fs : List Event} {t : Token} (h : t.IsCovered es) (hs : es ⊆ fs) :
    t.IsCovered fs := by
  rcases h with h | h | ⟨hk, hv, k, hmem, hkeyword⟩
  · exact .inl h
  · exact .inr (.inl h)
  · exact .inr (.inr ⟨hk, hv, k, hs hmem, hkeyword⟩)

/-- Events all tokens of which are covered. -/
def Event.Covered (es : List Event) : Prop :=
  ∀ t, .token t ∈ es → t.IsCovered es

namespace Event.Covered

theorem append {es fs : List Event} (h : Covered es) (h' : Covered fs) : Covered (es ++ fs) := by
  intro t ht
  rcases List.mem_append.mp ht with ht | ht
  · exact (h t ht).mono (List.subset_append_left ..)
  · exact (h' t ht).mono (List.subset_append_right ..)

theorem token {t : Token} (h : t.kind = .error ∨ t.span.start < t.span.stop) :
    Covered [.token t] := by
  intro u hu
  obtain rfl := Event.token.inj (List.mem_singleton.mp hu)
  exact h.imp_right .inl

theorem invariant (allowed : Argument → Bool)
    (ha : ∀ a, allowed a = true → a.mayBeEmpty = false) :
    Event.Invariant (fun _ => True) allowed Covered where
  nil := fun _ h => by simp at h
  append := append
  error _ _ := token (.inl rfl)
  warning _ := fun _ h => by simp at h
  notice _ := fun _ h => by simp at h
  json _ := fun _ h => by simp at h
  onward _ _ := trivial
  argument {a known c kind} _ hallowed hf hq hk := by
    refine token (or_iff_not_imp_left.mpr fun hne => ?_)
    have hcovers := Argument.covers_read (ha a hallowed) hf hq
    exact (a.ahead_read hf c hq).position_lt (hcovers fun he => hne (Option.some.inj (hk ▸ he)))

end Event.Covered

variable {c d : Cursor}

/-- Something that is left of a line lies between here and the end of the line. -/
theorem Cursor.position_lt_toLineEnd (h : c.line ≠ []) : c.position < c.toLineEnd.position := by
  have hpos := List.length_pos_iff.mpr h
  have hlength := c.ahead_toLineEnd.length_line
  rw [c.line_toLineEnd, List.length_nil] at hlength
  exact c.ahead_toLineEnd.position_lt (by omega)

namespace Step

theorem covered_keyword {typed : String} (hw : Reader.word c = (.ok typed, d)) :
    (keyword (Grammar.canonicalName typed) typed c d).Keeps Event.Covered := by
  have hp := Event.Covered.invariant Argument.isJson fun _ => Argument.mayBeEmpty_of_isJson
  have hahead := Reader.ahead_word hw
  have hlt := hahead.position_lt (Reader.movesOn_word c typed d hw)
  rw [keyword_ahead hahead]
  exact hp.append (hp.notice _) (hp.append (.token (.inr hlt)) (Keeps.warnings hp _ _))

/-- What is left of the line is one token. -/
theorem run_wsserver (env : Env) (c : Cursor) : Rule.wsserver.run env c =
    ⟨[.token ⟨if c.lineText ∈ ["out"] then .option else .string, .none,
      ⟨c.position, c.toLineEnd.position⟩⟩], [], .done, c.toLineEnd⟩ := by
  have htoken := token_ahead (if c.lineText ∈ ["out"] then .option else .string) .none none
    c.ahead_toLineEnd
  show (token (some (if c.lineText ∈ ["out"] then .option else .string)) .none none c
    c.toLineEnd).andThen _ = _
  rw [htoken]
  rfl

theorem covered_wsserver {typed : String} (hw : Reader.word c = (.ok typed, d))
    (hn : Grammar.canonicalName typed = "wsserver") (env : Env) :
    ((keyword (Grammar.canonicalName typed) typed c d).andThen
      (Rule.wsserver.run env)).Keeps Event.Covered := by
  have hkeyword := covered_keyword hw
  have hahead := Reader.ahead_word hw
  have hdone : (keyword (Grammar.canonicalName typed) typed c d).outcome = .done := by
    rw [keyword_ahead hahead]
  have hcursor : (keyword (Grammar.canonicalName typed) typed c d).cursor = d := by
    rw [keyword_ahead hahead]
  unfold Keeps
  rw [events_andThen_of_done hdone, hcursor, run_wsserver]
  by_cases hl : d.line = []
  · -- Nothing is left of the line, which is not the word in the list.
    intro t ht
    rcases List.mem_append.mp ht with ht | ht
    · exact (hkeyword t ht).mono (List.subset_append_left ..)
    obtain rfl := Event.token.inj (List.mem_singleton.mp ht)
    have hout : ¬ d.lineText ∈ ["out"] := by
      rw [Cursor.lineText, hl]
      decide
    refine .inr (.inr ⟨if_neg hout, rfl,
      ⟨.command, .command (Grammar.canonicalName typed), ⟨c.position, d.position⟩⟩, ?_, rfl,
      congrArg TokenValue.command hn, rfl⟩)
    rw [keyword_ahead hahead]
    simp
  · exact .append hkeyword (.token (.inr (Cursor.position_lt_toLineEnd hl)))

end Step

theorem Event.Covered.textInvariant (version : Version) :
    Event.TextInvariant version (fun _ => True) Event.Covered where
  toInvariant := invariant _ fun _ ha => by simpa using ha
  embedded := invariant _ fun _ => Argument.mayBeEmpty_of_isJson
  newline _ _ := trivial
  comment _ h := by
    have hl := Cursor.line_ne_nil_of_isAt (by decide) h
    rw [Step.Keeps, readComment_eq]
    exact .token (.inr (Cursor.position_lt_toLineEnd hl))
  keyword _ := Step.covered_keyword
  wsserver _ := Step.covered_wsserver

/-- Every token covers a character at least, unless it is an error. There is one exception: a
`wsserver` behind which nothing is left of the line has an empty string behind it. -/
theorem tokenize_nonempty (text : String) (start : Position) (version : Version) :
    ∃ result, tokenize text start version = .ok result ∧ ∀ t ∈ result.tokens, t.kind ≠ .error →
      t.span.start < t.span.stop ∨ t.kind = .string ∧ t.value = .none ∧
        ∃ k ∈ result.tokens, k.kind = .command ∧ k.value = .command "wsserver" ∧
          k.span.stop = t.span.start := by
  have hcovered : Event.Covered (readText text start version).events :=
    keeps_readText (Event.Covered.textInvariant version) trivial
  refine ⟨_, tokenize_eq .., fun t ht hk => ?_⟩
  rcases hcovered t (Tokenized.mem_tokens.mp ht) with he | hlt | ⟨hkind, hvalue, k, hmem, hkeyword⟩
  · exact absurd he hk
  · exact .inl hlt
  · exact .inr ⟨hkind, hvalue, k, Tokenized.mem_tokens.mpr hmem, hkeyword⟩

/-- The keyword of `wsserver` alone has an empty string behind it, which is no error. -/
theorem tokenize_nonempty_differs :
    ¬ ∀ (text : String) (start : Position) (version : Version),
      ∃ result, tokenize text start version = .ok result ∧
        ∀ t ∈ result.tokens, t.kind ≠ .error → t.span.start < t.span.stop := by
  intro h
  have htokens : (readText "wsserver" ⟨1, 0⟩ .latest).tokens =
      [⟨.command, .command "wsserver", ⟨⟨1, 0⟩, ⟨1, 8⟩⟩⟩,
        ⟨.string, .none, ⟨⟨1, 8⟩, ⟨1, 8⟩⟩⟩] := by
    decide +kernel
  obtain ⟨result, hresult, hall⟩ := h "wsserver" ⟨1, 0⟩ .latest
  obtain rfl := Except.ok.inj ((tokenize_eq ..).symm.trans hresult)
  have hempty := hall ⟨.string, .none, ⟨⟨1, 8⟩, ⟨1, 8⟩⟩⟩ ?_ (by decide)
  · exact absurd hempty (by decide)
  · change _ ∈ (readText "wsserver" ⟨1, 0⟩ .latest).tokens
    rw [htokens]
    exact List.mem_cons_of_mem _ (List.mem_singleton_self _)

end BedrockCommand
