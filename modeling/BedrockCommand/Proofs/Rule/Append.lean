import BedrockCommand.Rule.Run
/-!
One rule after another: the steps of the first, and then those of the second.
-/
namespace BedrockCommand

namespace Step

/-- Nothing changes if nothing more is done. -/
theorem andThen_eq_self {s : Step} {f : Cursor → Step} (h : f s.cursor = done s.cursor) :
    s.andThen f = s := by
  unfold andThen
  split
  · next ho => simp [h, done, ← ho]
  · rfl

theorem andThen_assoc (s : Step) (f g : Cursor → Step) :
    (s.andThen f).andThen g = s.andThen fun c => (f c).andThen g := by
  cases hs : s.outcome with
  | halted | failed => simp [andThen, hs]
  | done => cases hf : (f s.cursor).outcome <;> simp [andThen, hs, hf]

/-- What is settled in the end is settled in the second step. -/
theorem settle_andThen {s : Step} (h : s.outcome = .done) (f : Cursor → Step) :
    (s.andThen f).settle = s.andThen fun c => (f c).settle := by
  cases hf : (f s.cursor).outcome <;> simp [andThen, settle, h, hf]

variable {g : Cursor → Step}

theorem argument_andThen (a : Argument) (c : Cursor) (next : a.Answer → Cursor → Step) :
    (argument a c next).andThen g = argument a c fun x d => (next x d).andThen g := by
  unfold argument
  rw [andThen_assoc]
  congr 1
  funext d
  cases (a.read c).answer <;> rfl

theorem clauses_andThen (keywords : List String) (clause : String → Cursor → Step)
    (finish : Option String → Cursor → Step) (fuel : Nat) (last : Option String) (c : Cursor) :
    (clauses keywords clause finish fuel last c).andThen g =
      clauses keywords clause (fun w d => (finish w d).andThen g) fuel last c := by
  induction fuel generalizing last c with
  | zero => rfl
  | succ fuel ih =>
    unfold clauses
    split
    · rfl
    · rw [argument_andThen]
      simp only [andThen_assoc, ih]

end Step

theorem Rule.run_append (env : Env) (r s : Rule) :
    (r ++ s).run env = fun c => (r.run env c).andThen (s.run env) := by
  change (r.andThen s).run env = _
  induction r with
  | done | fault => rfl
  | refuse e => exact funext fun c => (Step.andThen_assoc (Step.complain e c) Step.halt _).symm
  | refuseLine e => exact funext fun c => (Step.andThen_assoc (Step.sweep e c) Step.halt _).symm
  | spaces next ih | negation next ih => exact funext fun c => congrFun ih _
  | ask next ih => exact ih env.dialect
  | read a next ih =>
    funext c
    simp only [andThen, run, Step.argument_andThen, ih]
  | look q yes no ihy ihn =>
    funext c
    simp only [andThen, run, ihy, ihn]
    split <;> rfl
  | clauses keywords clause next _ ih =>
    funext c
    simp only [andThen, run, Step.clauses_andThen, ih]
  | list b mayBeEmpty element next _ ih | embedded inner next _ ih | expect x next ih
  | complain e next ih | mark name next ih | nested next ih | noteTooDeep next ih =>
    funext c
    simp only [andThen, run, Step.andThen_assoc, ih]

end BedrockCommand
