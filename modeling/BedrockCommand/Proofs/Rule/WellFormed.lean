import BedrockCommand.Proofs.Rule.Trace
/-!
Well-formed rules: they pass over structural characters only, read an argument only where its
reader is prepared for the text, ask about nothing beyond the line, and have no defect.
-/
namespace BedrockCommand.Rule

/-- A rule that is well-formed in a dialect, after a question that holds at the cursor or after
none. -/
def WellFormed (d : Dialect) : Rule → Option Look → Prop
  | done, _ => True
  | read a next, known => a.FitsAfter known ∧ ∀ x, a.Answers x → (next x).WellFormed d none
  | expect x next, _ => isStructural x ∧ next.WellFormed d none
  | spaces next, _ => next.WellFormed d none
  | negation next, _ => next.WellFormed d none
  | look q yes no, _ => q ≠ .char '\n' ∧ yes.WellFormed d (some q) ∧ no.WellFormed d none
  | complain _ next, _ => next.WellFormed d none
  | refuse _, _ => True
  | refuseLine _, _ => True
  | list _ _ element next, _ =>
    element.WellFormed d none ∧ ∀ entries, (next entries).WellFormed d none
  | mark _ next, _ => next.WellFormed d none
  | clauses _ clause next, _ =>
    (∀ w, (clause w).WellFormed d none) ∧ ∀ w, (next w).WellFormed d none
  | nested next, _ => next.WellFormed d none
  | embedded inner next, _ => inner.WellFormed d none ∧ next.WellFormed d none
  | noteTooDeep next, _ => next.WellFormed d none
  | ask next, known => (next d).WellFormed d known
  | fault _, _ => False

/-- Rules that are all well-formed. -/
def AllWellFormed (d : Dialect) : List Rule → Prop
  | [] => True
  | r :: rs => r.WellFormed d none ∧ AllWellFormed d rs

variable {d : Dialect} {known : Option Look} {r s : Rule}

theorem AllWellFormed.of_mem {rs : List Rule} (h : AllWellFormed d rs) (hr : r ∈ rs) :
    r.WellFormed d none := by
  induction rs with
  | nil => simp at hr
  | cons s rs ih =>
    rcases List.mem_cons.mp hr with rfl | hr
    · exact h.1
    · exact ih h.2 hr

/-- What needs no question may stand after one. -/
theorem WellFormed.anywhere (h : r.WellFormed d none) (known : Option Look) :
    r.WellFormed d known := by
  induction r with
  | read a next =>
    refine ⟨?_, h.2⟩
    cases a with
    | selectorVariable | comparison | jsonConstant w =>
      -- These are never fit without a question before them.
      exact absurd h.1 (by simp [Argument.FitsAfter])
    | _ => trivial
  | ask next ih => exact ih d h
  | _ => exact h

theorem WellFormed.append (hr : r.WellFormed d known) (hs : s.WellFormed d none) :
    (r ++ s).WellFormed d known := by
  change (r.andThen s).WellFormed d known
  induction r generalizing known with
  | done => exact hs.anywhere known
  | read a next ih => exact ⟨hr.1, fun x hx => ih x (hr.2 x hx)⟩
  | expect x next ih => exact ⟨hr.1, ih hr.2⟩
  | look q yes no ihy ihn => exact ⟨hr.1, ihy hr.2.1, ihn hr.2.2⟩
  | spaces next ih | negation next ih | complain e next ih | mark name next ih | nested next ih
  | noteTooDeep next ih => exact ih hr
  | refuse e | refuseLine e => trivial
  | list b mayBeEmpty element next _ ih => exact ⟨hr.1, fun entries => ih entries (hr.2 entries)⟩
  | clauses keywords clause next _ ih => exact ⟨hr.1, fun w => ih w (hr.2 w)⟩
  | embedded inner next _ ih => exact ⟨hr.1, ih hr.2⟩
  | ask next ih => exact ih d hr
  | fault f => exact hr

theorem WellFormed.look {q : Look} {yes no : Rule} (hq : decide (q = .char '\n') = false)
    (hy : yes.WellFormed d (some q)) (hn : no.WellFormed d none) :
    (look q yes no).WellFormed d known :=
  ⟨of_decide_eq_false hq, hy, hn⟩

theorem WellFormed.ask {next : Dialect → Rule} (h : (next d).WellFormed d known) :
    (ask next).WellFormed d known := h

theorem WellFormed.negation (h : r.WellFormed d none) : (negation r).WellFormed d known := h

theorem WellFormed.argument {a : Argument} (ha : a.FitsAfter known) :
    (argument a).WellFormed d known :=
  ⟨ha, fun _ _ => trivial⟩

theorem WellFormed.oneOf (allowed : List String) : (oneOf allowed).WellFormed d known :=
  .argument trivial

/-- What a table has for a word stands in the table. -/
theorem mem_of_lookup {α : Type u} {table : List (String × α)} {w : String} {x : α}
    (h : table.lookup w = some x) : (w, x) ∈ table := by
  obtain ⟨before, after, rfl, _⟩ := List.lookup_eq_some_iff.mp h
  simp

end BedrockCommand.Rule
