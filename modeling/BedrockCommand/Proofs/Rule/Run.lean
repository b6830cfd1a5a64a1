import BedrockCommand.Proofs.Rule.Sound
import BedrockCommand.Proofs.Rule.WellFormed
/-!
Running a well-formed rule is sound, whatever the text: an induction on the rule, with a case for
each node.
-/
namespace BedrockCommand.Rule

open Look (known_none known_of_holds)

variable {version : Version} {env : Env}

theorem sound_run (hn : ∀ c, (env.nested c).Sound version c) {r : Rule} {known : Option Look}
    (h : r.WellFormed env.dialect known) {c : Cursor}
    (hq : ∀ l ∈ known, l.holds ⟨c.line, .origin⟩ = true) : (r.run env c).Sound version c := by
  -- Only behind a look is anything known, and a look moves nowhere.
  induction r generalizing known c with
  | done => exact .done c
  | read a next ih =>
    refine .argument h.1 hq fun x hx => ?_
    exact ih x (h.2 x (Argument.answers_of_read hx)) (known_none _)
  | expect x next ih => exact (Step.Sound.expect h.1 c).andThen fun _ => ih h.2 (known_none _)
  | spaces next ih => exact (ih h (known_none _)).after (.skipSpaces isStructural_space c)
  | negation next ih => exact (ih h (known_none _)).after (.negation c)
  | look q yes no ihy ihn =>
    unfold run
    split
    · next hyes => exact ihy h.2.1 (known_of_holds h.1 hyes)
    · exact ihn h.2.2 (known_none c)
  | complain e next ih => exact .errorThen (.refl c) (ih h (known_none c))
  | refuse e => exact .refuse e c
  | refuseLine e => exact (Step.Sound.sweep e c).andThen fun _ => .halt _
  | list b mayBeEmpty element next ihe ih =>
    exact (Step.Sound.list (fun d => ihe h.1 (known_none d)) c).unmarked.andThen fun _ =>
      ih _ (h.2 _) (known_none _)
  | mark name next ih =>
    have hmark : Step.Sound version c ⟨[], [name], .done, c⟩ := ⟨by simp, .nil c⟩
    exact hmark.andThen fun _ => ih h (known_none _)
  | clauses keywords clause next ihc ih =>
    exact .clauses (fun w d => ihc w (h.1 w) (known_none d))
      (fun w d => ih w (h.2 w) (known_none d))
      (Nat.lt_succ_self _)
  | nested next ih => exact (hn c).andThen fun _ => ih h (known_none _)
  | embedded inner next ihi ih =>
    exact (Step.Sound.embedded (ihi h.1 (known_none _))).andThen fun _ => ih h.2 (known_none _)
  | noteTooDeep next ih => exact (Step.Sound.notice _ c).andThen fun _ => ih h (known_none _)
  | ask next ih => exact ih env.dialect h hq
  | fault f => exact absurd h (by simp [WellFormed])

end BedrockCommand.Rule
