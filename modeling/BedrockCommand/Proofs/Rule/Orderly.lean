import BedrockCommand.Proofs.Argument.Forward
import BedrockCommand.Proofs.Argument.Padding
import BedrockCommand.Rule.Run
/-!
Orderly rules. Such a rule has no arguments but those that it may have, it holds no other commands
unless that is allowed, and it passes over the spaces behind an argument before it asks whether
anything is left of the line.
-/
namespace BedrockCommand

/-- Whether an argument may stand in a JSON text. -/
def Argument.isJson : Argument → Bool
  | quoted => true
  | quotedKey => true
  | jsonNumber => true
  | jsonConstant w => !w.isEmpty
  | _ => false

theorem Argument.mayBeEmpty_of_isJson {a : Argument} (h : a.isJson = true) :
    a.mayBeEmpty = false := by
  cases a with
  | jsonConstant w => simpa [isJson, mayBeEmpty] using h
  | lineOr => simp [isJson] at h
  | _ => rfl

namespace Rule

/-- A rule that is orderly, with some arguments that it may have. The flag tells whether there are
no spaces in front of it; there are none where it is done. -/
def Orderly (allowed : Argument → Bool) (nests : Prop) : Rule → Bool → Prop
  | done, flush => flush = true
  | read a next, _ => allowed a = true ∧ ∀ x, (next x).Orderly allowed nests a.takesSpaces
  | expect x next, _ => x ≠ ' ' ∧ next.Orderly allowed nests true
  | spaces next, _ => next.Orderly allowed nests true
  | negation next, flush => next.Orderly allowed nests flush
  | look q yes no, flush => (q = .line → flush = true) ∧ q ≠ .char ' ' ∧
    yes.Orderly allowed nests flush ∧ no.Orderly allowed nests flush
  | complain _ next, flush => next.Orderly allowed nests flush
  | refuse _, _ => True
  | refuseLine _, _ => True
  | list _ _ element next, _ =>
    element.Orderly allowed nests true ∧ ∀ entries, (next entries).Orderly allowed nests true
  | mark _ next, flush => next.Orderly allowed nests flush
  | clauses keywords clause next, flush => flush = true ∧ allowed (.keyword keywords) = true ∧
    (∀ w, (clause w).Orderly allowed nests true) ∧ ∀ w, (next w).Orderly allowed nests true
  | nested next, _ => nests ∧ next.Orderly allowed nests true
  | embedded inner next, _ =>
    inner.Orderly Argument.isJson False true ∧ next.Orderly allowed nests true
  | noteTooDeep next, flush => next.Orderly allowed nests flush
  | ask next, flush => ∀ d, (next d).Orderly allowed nests flush
  | fault _, _ => True

variable {allowed : Argument → Bool} {nests : Prop} {r s : Rule} {flush : Bool}

namespace Orderly

theorem append (hr : r.Orderly allowed nests flush) (hs : s.Orderly allowed nests true) :
    (r ++ s).Orderly allowed nests flush := by
  change (r.andThen s).Orderly allowed nests flush
  induction r generalizing flush with
  | done => exact hr.symm ▸ hs
  | refuse | refuseLine | fault => trivial
  | read a next ih => exact ⟨hr.1, fun x => ih x (hr.2 x)⟩
  | expect x next ih => exact ⟨hr.1, ih hr.2⟩
  | look q yes no ihy ihn => exact ⟨hr.1, hr.2.1, ihy hr.2.2.1, ihn hr.2.2.2⟩
  | spaces next ih | negation next ih | complain e next ih | mark name next ih
  | noteTooDeep next ih => exact ih hr
  | nested next ih => exact ⟨hr.1, ih hr.2⟩
  | list b mayBeEmpty element next _ ih => exact ⟨hr.1, fun entries => ih entries (hr.2 entries)⟩
  | clauses keywords clause next _ ih =>
    exact ⟨hr.1, hr.2.1, hr.2.2.1, fun w => ih w (hr.2.2.2 w)⟩
  | embedded inner next _ ih => exact ⟨hr.1, ih hr.2⟩
  | ask next ih => exact fun d => ih d (hr d)

end Orderly
end Rule
end BedrockCommand
