import BedrockCommand.Proofs.Command
import BedrockCommand.Proofs.Json.Nesting
import BedrockCommand.Proofs.Rule.Final
/-!
A container that is asked for by its shape, and the same container as any value. Only the second
one is counted, so that the first one is read with one level more. More levels change nothing as
long as no container lies too deep.
-/
namespace BedrockCommand

/-- The shape of a text that is one container in such brackets. -/
def Brackets.shape : Brackets → JsonShape
  | square => .array
  | curly => .object

/-- What notices a JSON value too deep in others says so. -/
theorem Rule.follows_jsonTooDeep (env : Env) (f : Cursor → Step) :
    Step.Follows Event.IsShallow (jsonTooDeep.run env) f := by
  intro c hc
  have hrun : jsonTooDeep.run env c = ⟨[.notice (.jsonTooDeep c.position maxNesting),
      .token ⟨.error, .error (.nestingTooDeep maxNesting), ⟨c.position, c.toLineEnd.position⟩⟩], [],
      .halted, c.toLineEnd⟩ := by
    simp only [jsonTooDeep, run, Step.sweep_eq]
    rfl
  rw [hrun] at hc
  exact absurd rfl (hc _ (List.mem_cons_of_mem _ (List.mem_singleton_self _)) maxNesting)

namespace Rule

variable {dialect : JsonDialect} {env : Env} {c : Cursor} {b : Brackets}

/-- A container that does not say that something in it lies too deep is the same with one level
more. -/
theorem follows_runContainer (dialect : JsonDialect) (levels : Nat) :
    Step.Follows Event.IsShallow (runContainer dialect levels)
      (runContainer dialect (levels + 1)) := by
  induction levels with
  | zero => exact follows_jsonTooDeep _ _
  | succ levels ih =>
    intro c hc
    rw [runContainer_eq_counted] at hc ⊢
    rw [runContainer_eq_counted]
    exact follows_run (fun _ => ih) (fun _ _ h => h ⟨none, []⟩) Regular.jsonContainer c hc

/-- Of a value that begins with a bracket, the container is all that is read. -/
theorem run_jsonValue_container (levels : Nat) (h : c.isAt b.opening = true) :
    (jsonValue dialect levels).run env c = runContainer dialect levels c := by
  obtain ⟨cs, hrest⟩ := Cursor.isAt_iff.mp h
  have hnested : (nested done).run ⟨⟨none, []⟩, runContainer dialect levels⟩ c =
      runContainer dialect levels c := Step.andThen_eq_self rfl
  rw [← run_jsonCountedValue levels, jsonCountedValue, jsonValueWith]
  cases b <;> simp [run, Look.holds, Cursor.isAt, hrest, Brackets.opening] <;> exact hnested

theorem run_jsonText_shape (h : c.skipSpaces.isAt b.opening = true) :
    (jsonText dialect b.shape).run ⟨⟨none, []⟩, Step.done⟩ c =
      runContainer dialect (maxNesting + 1) c.skipSpaces := by
  rw [runContainer_succ]
  cases b with
  | square =>
    rw [jsonContainer_array h]
    rfl
  | curly =>
    have hat : c.skipSpaces.isAt '[' = false := Cursor.isAt_eq_false h (by decide)
    rw [jsonContainer_object hat]
    rfl

end Rule

/-- A text that is one container, read as any value and by the shape of the container. As any value
it is the container with the levels that there may be; by its shape it has one level more. So both
are read the same unless something lies too deep in any value. -/
theorem readJson_shape {text : String} {start : Position} {b : Brackets}
    (h : (Cursor.ofText text start).skipSpaces.isAt b.opening = true) (dialect : JsonDialect) :
    let container := (Cursor.ofText text start).skipSpaces
    let any := readJson text start .any dialect
    let shaped := readJson text start b.shape dialect
    any = (Rule.runContainer dialect maxNesting container).whole ∧
    shaped = (Rule.runContainer dialect (maxNesting + 1) container).whole ∧
    ((∀ t ∈ any.tokens, ∀ limit, t.value ≠ .error (.nestingTooDeep limit)) → any = shaped) := by
  intro container any shaped
  have hany : any = (Rule.runContainer dialect maxNesting container).whole :=
    congrArg Step.whole (Rule.run_jsonValue_container maxNesting h)
  have hshaped : shaped = (Rule.runContainer dialect (maxNesting + 1) container).whole :=
    congrArg Step.whole (Rule.run_jsonText_shape h)
  refine ⟨hany, hshaped, fun hdeep => ?_⟩
  have hshallow : any.Only Event.IsShallow := by
    intro e he
    cases e with
    | token t => exact hdeep t (Tokenized.mem_tokens.mpr he)
    | warning | notice | json => trivial
  rw [hany] at hshallow
  rw [hany, hshaped]
  exact ((Rule.follows_runContainer dialect maxNesting).whole container hshallow).symm

theorem readJson_shape_array :
    (Cursor.ofText " [true, []]" ⟨1, 0⟩).skipSpaces.isAt '[' = true ∧
      readJson " [true, []]" ⟨1, 0⟩ .any .strict =
        readJson " [true, []]" ⟨1, 0⟩ .array .strict := by
  have hat : (Cursor.ofText " [true, []]" ⟨1, 0⟩).skipSpaces.isAt '[' = true := by decide
  have htokens : (readJson " [true, []]" ⟨1, 0⟩ .any .strict).tokens =
      [⟨.boolean, .boolean true, ⟨⟨1, 2⟩, ⟨1, 6⟩⟩⟩] := by decide
  obtain ⟨-, -, hsame⟩ := readJson_shape (b := .square) hat .strict
  exact ⟨hat, hsame (by simp [htokens])⟩

/-- Of so many arrays in each other that the innermost one is one too many as any value, none is too
many by their shape. -/
theorem readJson_shape_differs :
    ¬ ∀ (text : String) (start : Position) (b : Brackets) (dialect : JsonDialect),
      '\n' ∉ text.toList → (Cursor.ofText text start).skipSpaces.isAt b.opening = true →
        (readJson text start .any dialect).tokens =
          (readJson text start b.shape dialect).tokens := by
  intro h
  let brackets := List.replicate (maxNesting + 1) '[' ++ List.replicate (maxNesting + 1) ']'
  have hcursor : Cursor.ofText (String.ofList brackets) ⟨1, 0⟩ = ⟨brackets, ⟨1, 0⟩⟩ := by
    rw [Cursor.ofText, String.toList_ofList]
  have hany : (readJson (String.ofList brackets) ⟨1, 0⟩ .any .strict).tokens =
      [⟨.error, .error (.nestingTooDeep maxNesting), ⟨⟨1, 64⟩, ⟨1, 130⟩⟩⟩] := by
    rw [readJson, hcursor]
    decide +kernel
  have harray : (readJson (String.ofList brackets) ⟨1, 0⟩ .array .strict).tokens = [] := by
    rw [readJson, hcursor]
    decide +kernel
  have hline : '\n' ∉ (String.ofList brackets).toList := by simp [brackets]
  have hsame := h (String.ofList brackets) ⟨1, 0⟩ .square .strict hline (by rw [hcursor]; decide)
  exact absurd (hany.symm.trans (hsame.trans harray)) (by simp)

end BedrockCommand
