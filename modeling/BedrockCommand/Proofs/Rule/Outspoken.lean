import BedrockCommand.Proofs.Rule.Only
/-!
Steps that give up report an error. It does not matter where the text is, which rule reads it, and
what is around: whatever gives up has added an error to the tokens, or has passed on a step that
did.
-/
namespace BedrockCommand

/-- A token that is an error, with its cause. -/
def Event.IsError : Event → Prop
  | .token t => ∃ e, t.kind = .error ∧ t.value = .error e
  | _ => False

namespace Reading

/-- A reading that becomes an error if it has no answer. -/
def Outspoken (r : Reading α) : Prop :=
  r.answer = none → ∃ e, r.kind = some .error ∧ r.value = .error e

variable {c : Cursor}

theorem outspoken_of_answer {r : Reading α} {x : α} (h : r.answer = some x) : r.Outspoken :=
  fun hn => by simp [h] at hn

theorem outspoken_refuse (e : SyntaxError) : Outspoken (refuse e c : Reading α) :=
  fun _ => ⟨e, rfl, rfl⟩

theorem outspoken_acceptIf {test : Bool} {kind : TokenKind} {value : TokenValue}
    {e : SyntaxError} {x : α} : Outspoken (acceptIf test kind value e x c) := by
  cases test <;> exact outspoken_of_answer rfl

theorem Outspoken.warnIf {r : Reading α} (h : r.Outspoken) (test : Bool) (w : WarningKind) :
    (r.warnIf test w).Outspoken := by
  cases test <;> exact h

theorem outspoken_of {r : Reader β} {judge : β → Cursor → Reading α}
    (hj : ∀ x d, (judge x d).Outspoken) : (of r judge c).Outspoken := by
  unfold of
  split
  · exact hj _ _
  · exact outspoken_refuse _

end Reading

open Reading in
theorem Argument.outspoken_read (a : Argument) (c : Cursor) : (a.read c).Outspoken := by
  cases a with
  | identifier | word | text | quoted | quotedKey | star | boolean | range | angle | experience
  | jsonNumber => exact outspoken_of fun _ _ => outspoken_of_answer rfl
  | integer | number | coordinate | selectorCoordinate | gameMode | difficulty | randomMaximum
  | permissionState | line => exact outspoken_of fun _ _ => outspoken_acceptIf
  | hasitemData | blockData => exact outspoken_of fun _ _ => outspoken_acceptIf.warnIf _ _
  | textOr | lineOr => exact outspoken_of fun _ _ => outspoken_of_answer rfl
  | stateBoolean | hasitemKey | identifierOr =>
    refine outspoken_of fun w d => ?_
    split <;> exact outspoken_of_answer rfl
  | keyword | selectorOption =>
    refine outspoken_of fun w d => ?_
    split
    · exact outspoken_of_answer rfl
    · exact outspoken_refuse _
  | booleanOr =>
    refine outspoken_of fun w d => ?_
    split
    · exact outspoken_of_answer rfl
    split
    · exact outspoken_of_answer rfl
    · exact outspoken_refuse _
  | spreadRange =>
    refine outspoken_of fun x d => ?_
    split
    · exact outspoken_of_answer rfl
    · exact outspoken_acceptIf
  | scoreBound =>
    refine outspoken_of fun n? d => ?_
    cases n? with
    | none => exact outspoken_of_answer rfl
    | some n => exact outspoken_acceptIf
  | axes =>
    refine outspoken_of fun w d => ?_
    cases axesError? [] w.toList <;> exact outspoken_of_answer rfl
  | comparison => exact outspoken_of_answer rfl
  | scoreOperator =>
    simp only [read]
    split
    · exact outspoken_of_answer rfl
    · exact outspoken_refuse _
  | selectorVariable =>
    simp only [read]
    split
    · exact outspoken_acceptIf
    · exact outspoken_of_answer rfl
  | staleBlockData => exact outspoken_refuse _
  | jsonConstant =>
    simp only [read]
    split <;> exact outspoken_of_answer rfl

namespace Step

/-- A step that has reported an error if it gives up. -/
def Outspoken (s : Step) : Prop :=
  s.outcome = .halted → ∃ e ∈ s.events, e.IsError

variable {s : Step} {f : Cursor → Step} {c d : Cursor}

namespace Outspoken

theorem of_ne (h : s.outcome ≠ .halted) : s.Outspoken :=
  fun hh => absurd hh h

theorem done (c : Cursor) : (Step.done c).Outspoken := of_ne nofun

theorem fail (f : Fault) (c : Cursor) : (Step.fail f c).Outspoken := of_ne nofun

theorem report (e : Event) (c : Cursor) : (Step.report e c).Outspoken := of_ne nofun

theorem andThen (hs : s.Outspoken) (hf : ∀ d, (f d).Outspoken) : (s.andThen f).Outspoken := by
  by_cases hd : s.outcome = .done
  · intro hh
    rw [outcome_andThen_of_done hd] at hh
    obtain ⟨e, he, hError⟩ := hf _ hh
    exact ⟨e, events_andThen_of_done hd ▸ List.mem_append_right _ he, hError⟩
  · rwa [andThen_of_ne_done hd]

theorem outcome_settle_ne (s : Step) : s.settle.outcome ≠ .halted := by
  unfold Step.settle
  split
  · exact nofun
  · assumption

theorem settle (s : Step) : s.settle.Outspoken := of_ne (outcome_settle_ne s)

theorem unmarked (h : s.Outspoken) : s.unmarked.Outspoken := h

theorem outcome_token_ne {kind : Option TokenKind} {value : TokenValue}
    {w : Option WarningKind} : (Step.token kind value w c d).outcome ≠ .halted := by
  unfold Step.token
  split <;> exact nofun

/-- What gives up right behind an error. -/
theorem errorHalt (e : SyntaxError) (c d : Cursor) :
    ((Step.error e c d).andThen Step.halt).Outspoken := by
  unfold Step.error Step.token
  split
  · exact fail _ _
  · exact fail _ _
  · next kind span hk hs =>
    obtain rfl := Option.some.inj hk
    exact fun _ => ⟨_, List.mem_cons_self .., e, rfl, rfl⟩

theorem refuse (e : SyntaxError) (c : Cursor) : (Step.refuse e c).Outspoken := errorHalt e c c

theorem error (e : SyntaxError) (c d : Cursor) : (Step.error e c d).Outspoken :=
  of_ne outcome_token_ne

theorem argument {a : Argument} {next : a.Answer → Cursor → Step}
    (hn : ∀ x d, (next x d).Outspoken) : (Step.argument a c next).Outspoken := by
  unfold Step.argument
  simp only
  cases hx : (a.read c).answer with
  | some x => exact (of_ne outcome_token_ne).andThen fun d => hn x d
  | none =>
    obtain ⟨e, hk, hv⟩ := a.outspoken_read c hx
    rw [hk, hv]
    unfold Step.token
    split
    · exact fail _ _
    · exact fail _ _
    · next kind span hk hs =>
      obtain rfl := Option.some.inj hk
      exact fun _ => ⟨_, List.mem_append_left _ (List.mem_cons_self ..), e, rfl, rfl⟩

theorem expect (x : Char) (c : Cursor) : (Step.expect x c).Outspoken := by
  unfold Step.expect
  split
  · exact done _
  · exact refuse _ _

theorem afterElement {b : Brackets} (hf : ∀ d, (f d).Outspoken) (fuel : Nat) (c : Cursor) :
    (Step.afterElement b f fuel c).Outspoken := by
  induction fuel generalizing c with
  | zero => exact fail _ _
  | succ fuel ih =>
    unfold Step.afterElement
    split
    · exact done _
    split
    · split
      · exact (error _ _ _).andThen fun _ => done _
      · exact hf _
    split
    · exact refuse _ _
    · exact (error _ _ _).andThen ih

theorem elements {b : Brackets} (hf : ∀ d, (f d).Outspoken) (fuel : Nat) (c : Cursor) :
    (Step.elements b f fuel c).Outspoken := by
  induction fuel generalizing c with
  | zero => exact fail _ _
  | succ fuel ih =>
    unfold Step.elements
    simp only
    split
    · exact hf _
    · -- An element that gives up is settled here, and has reported its error by itself.
      exact (settle _).andThen fun _ => afterElement ih _ _

theorem list {b : Brackets} {mayBeEmpty : Bool} (hf : ∀ d, (f d).Outspoken) (c : Cursor) :
    (Step.list b mayBeEmpty f c).Outspoken := by
  unfold Step.list
  split
  · exact refuse _ _
  simp only
  split
  · split
    · exact done _
    · exact (error _ _ _).andThen fun _ => done _
  · exact elements hf _ _

theorem clauses {keywords : List String} {clause : String → Cursor → Step}
    {finish : Option String → Cursor → Step} (hc : ∀ w d, (clause w d).Outspoken)
    (hf : ∀ w d, (finish w d).Outspoken) (fuel : Nat) (last : Option String) (c : Cursor) :
    (Step.clauses keywords clause finish fuel last c).Outspoken := by
  induction fuel generalizing last c with
  | zero => exact fail _ _
  | succ fuel ih =>
    unfold Step.clauses
    split
    · exact hf _ _
    · exact argument fun w d => (hc w d).andThen (ih (some w))

theorem outcome_whole_ne (s : Step) : s.whole.outcome ≠ .halted := by
  by_cases hd : s.settle.outcome = .done
  · rw [Step.whole, outcome_andThen_of_done hd]
    split
    · exact nofun
    · exact outcome_token_ne
  · rw [Step.whole, andThen_of_ne_done hd]
    exact outcome_settle_ne s

end Outspoken
end Step

/-- Every rule reports an error if it gives up, as long as the commands inside it do. -/
theorem Rule.outspoken_run {env : Env} (hn : ∀ c, (env.nested c).Outspoken) (r : Rule)
    (c : Cursor) : (r.run env c).Outspoken := by
  induction r generalizing c with
  | done => exact .done c
  | read a next ih => exact .argument ih
  | expect x next ih => exact (Step.Outspoken.expect x c).andThen ih
  | spaces next ih | negation next ih => exact ih _
  | look q yes no ihy ihn =>
    unfold run
    split
    · exact ihy c
    · exact ihn c
  | complain e next ih => exact (Step.Outspoken.error e c c).andThen ih
  | refuse e => exact .refuse e c
  | refuseLine e => exact .errorHalt e c _
  | list b mayBeEmpty element next ihe ih =>
    exact (Step.Outspoken.list ihe c).unmarked.andThen (ih _)
  | mark name next ih =>
    have hmark : Step.Outspoken ⟨[], [name], .done, c⟩ := .of_ne (by simp)
    exact hmark.andThen ih
  | clauses keywords clause next ihc ih => exact .clauses ihc ih _ none c
  | nested next ih => exact (hn c).andThen ih
  | embedded inner next ihi ih =>
    -- The inner rule may give up, but the text around it does not.
    have hinner (s : Step) : Step.Outspoken { s.whole with cursor := c.toLineEnd } :=
      .of_ne (Step.Outspoken.outcome_whole_ne s)
    exact ((hinner _).andThen (.report _)).andThen ih
  | noteTooDeep next ih => exact (Step.Outspoken.report _ c).andThen ih
  | ask next ih => exact ih _ c
  | fault f => exact .fail f c

end BedrockCommand
