import BedrockCommand.Proofs.Argument.OnLine
import BedrockCommand.Proofs.Reader.Fails
/-!
Errors that are the last thing said about a line. An argument that is read with such an error,
unless it is what is left of a line, leaves nothing of the line and makes its rule give up.
-/
namespace BedrockCommand

/-- Whether an error gives up on its line, so that nothing more is said about the line. -/
def SyntaxError.isFinal : SyntaxError → Bool
  | tooManyArguments => true
  | unknownCommand _ => true
  | expectedCommand => true
  | invalidSelectorOption _ => true
  | expectedStatesOrData => true
  | nestingTooDeep _ => true
  | tooMuchJson => true
  | unclosedString => true
  | unclosedBracket _ => true
  | wrongExecuteEnd => true
  | expectedSubcommand => true
  | expectedMessage => true
  | expectedFunctionPath => true
  | _ => false

/-- Whether what a token says is an error. -/
def TokenValue.isError : TokenValue → Bool
  | error _ => true
  | _ => false

/-- Whether a token is an error that gives up on its line. -/
def Token.isFinal (t : Token) : Bool :=
  t.error?.any SyntaxError.isFinal

namespace Reader

/-! ## Readers that never give up on a line -/

section

variable {Q : SyntaxError → Cursor → Prop} (hq : ∀ e c, e.isFinal = false → Q e c)
include hq

theorem failsWith_fail {e : SyntaxError} (he : e.isFinal = false) :
    FailsWith Q (fail e : Reader α) :=
  .fail fun c => hq e c he

theorem failsWith_exactly (x : Char) : FailsWith Q (exactly x) :=
  .exactly fun c => hq _ c rfl

theorem failsWith_symbol (x : Char) : FailsWith Q (symbol x) :=
  .bind (failsWith_exactly hq x) fun _ => failsWith_spaces

theorem failsWith_argumentEnd : FailsWith Q argumentEnd :=
  .bind (failsWith_look _) fun _ => .ite failsWith_spaces (failsWith_fail hq rfl) _

theorem failsWith_negation : FailsWith Q negation :=
  .bind (failsWith_look _) fun _ => .ite (failsWith_symbol hq '!') (failsWith_pure _) _

theorem failsWith_rawWord : FailsWith Q rawWord :=
  .bind (failsWith_takeWhile _) fun _ => .ite (failsWith_fail hq rfl)
    (.ite (failsWith_fail hq rfl) (failsWith_pure _) _) _

theorem failsWith_word : FailsWith Q word :=
  .bind (failsWith_rawWord hq) fun _ => .bind (failsWith_argumentEnd hq) fun _ =>
    failsWith_pure _

theorem failsWith_identifier : FailsWith Q identifier :=
  .bind (failsWith_takeWhile _) fun _ => .ite (failsWith_fail hq rfl)
    (.ite (failsWith_fail hq rfl) (.ite (failsWith_fail hq rfl) (.ite (failsWith_fail hq rfl)
      (.bind failsWith_spaces fun _ => failsWith_pure _) _) _) _) _

theorem failsWith_boolean : FailsWith Q boolean :=
  .bind (failsWith_rawWord hq) fun _ =>
    .ite (.bind (failsWith_argumentEnd hq) fun _ => failsWith_pure _)
      (.ite (.bind (failsWith_argumentEnd hq) fun _ => failsWith_pure _)
        (failsWith_fail hq rfl) _) _

theorem failsWith_digits {missing : SyntaxError} (h : missing.isFinal = false) :
    FailsWith Q (digits missing) :=
  .digits fun c => hq missing c h

theorem failsWith_rawInteger : FailsWith Q rawInteger :=
  .rawInteger (fun c => hq _ c rfl) fun c => hq _ c rfl

theorem failsWith_integer : FailsWith Q integer :=
  .bind (failsWith_rawInteger hq) fun _ => .bind (failsWith_argumentEnd hq) fun _ =>
    failsWith_pure _

theorem failsWith_unsigned (negative : Bool) : FailsWith Q (unsigned negative) :=
  .bind (failsWith_digits hq rfl) fun _ => .bind (failsWith_look _) fun _ =>
    .ite (.bind (failsWith_move _) fun _ => .bind (failsWith_digits hq rfl) fun _ =>
      failsWith_pure _) (failsWith_pure _) _

theorem failsWith_rawNumber : FailsWith Q rawNumber :=
  .bind failsWith_sign fun _ => failsWith_unsigned hq _

theorem failsWith_number : FailsWith Q number :=
  .bind (failsWith_rawNumber hq) fun _ => .bind (failsWith_argumentEnd hq) fun _ =>
    failsWith_pure _

theorem failsWith_bound? : FailsWith Q bound? :=
  .bound? (fun c => hq _ c rfl) fun c => hq _ c rfl

theorem failsWith_upperBound? : FailsWith Q upperBound? :=
  .upperBound? (fun c => hq _ c rfl) (fun c => hq _ c rfl) fun c => hq _ c rfl

theorem failsWith_range : FailsWith Q range := by
  refine .bind (failsWith_negation hq) fun _ => .bind (failsWith_bound? hq) fun low =>
    .bind (failsWith_upperBound? hq) fun high => ?_
  cases low <;> cases high
  case none.none => exact failsWith_fail hq rfl
  case some.some => exact .ite (failsWith_fail hq rfl) (failsWith_argumentEnd hq) _
  all_goals exact failsWith_argumentEnd hq

theorem failsWith_offset : FailsWith Q offset :=
  .bind (failsWith_look _) fun _ =>
    .ite (.bind (failsWith_rawNumber hq) fun _ => failsWith_pure _) (failsWith_pure _) _

theorem failsWith_coordinate : FailsWith Q coordinate := by
  have hmark (a : Anchor) : FailsWith Q (move Cursor.advance >>= fun _ => offset >>= fun _ =>
      argumentEnd >>= fun _ => (pure a : Reader Anchor)) :=
    .bind (failsWith_move _) fun _ => .bind (failsWith_offset hq) fun _ =>
      .bind (failsWith_argumentEnd hq) fun _ => failsWith_pure _
  have hnumber : FailsWith Q (rawNumber >>= fun _ => argumentEnd >>= fun _ =>
      (pure .world : Reader Anchor)) :=
    .bind (failsWith_rawNumber hq) fun _ => .bind (failsWith_argumentEnd hq) fun _ =>
      failsWith_pure _
  exact .bind (failsWith_look _) fun _ => .ite (hmark .place)
    (.bind (failsWith_look _) fun _ => .ite (hmark .view)
      (.bind (failsWith_look _) fun _ => .ite hnumber (failsWith_fail hq rfl) _) _) _

theorem failsWith_angle : FailsWith Q angle := by
  have hnumber : FailsWith Q (number >>= fun _ => (pure () : Reader Unit)) :=
    .bind (failsWith_number hq) fun _ => failsWith_pure _
  exact .bind (failsWith_look _) fun _ => .ite (.bind (failsWith_move _) fun _ =>
    .bind (failsWith_look _) fun _ => .ite hnumber (failsWith_pure _) _) hnumber _

theorem failsWith_experience : FailsWith Q experience := by
  have hend (n : Int) (u : Unit) : FailsWith Q (argumentEnd >>= fun _ => (pure n : Reader Int)) :=
    .bind (failsWith_argumentEnd hq) fun _ => failsWith_pure _
  exact .bind (failsWith_rawInteger hq) fun n => .bind (failsWith_look _) fun _ =>
    .ite (.bind (failsWith_move _) (hend n)) (hend n ()) _

theorem failsWith_jsonNumber : FailsWith Q jsonNumber := by
  refine .bind (failsWith_of_ok fun c => ?_) fun _ => .bind (failsWith_unsigned hq _) fun _ =>
    .bind failsWith_spaces fun _ => failsWith_pure _
  split
  all_goals exact ⟨_, rfl⟩

theorem failsWith_starOrInteger : FailsWith Q Argument.starOrInteger :=
  .bind (failsWith_look _) fun _ => .ite (.bind (failsWith_symbol hq _) fun _ => failsWith_pure _)
    (.bind (failsWith_integer hq) fun _ => failsWith_pure _) _

end

/-! ## Readers that give up on a line at its end -/

/-- An error at a place, which if it gives up on the line stands at the end of the line. -/
def FinalAtEnd (e : SyntaxError) (c : Cursor) : Prop :=
  e.isFinal = true → c.line = []

theorem finalAtEnd_of_not {e : SyntaxError} (c : Cursor) (h : e.isFinal = false) :
    FinalAtEnd e c :=
  fun he => by simp [h] at he

/-- A quoted string that is not closed takes the rest of the line. -/
theorem finalAtEnd_quoted : FailsWith FinalAtEnd quoted := by
  intro c e d h
  rw [quoted_apply] at h
  split at h
  · split at h
    · simp at h
    · obtain ⟨-, rfl⟩ := Prod.mk.inj h
      exact fun _ => Cursor.line_toLineEnd _
  · obtain ⟨he, rfl⟩ := Prod.mk.inj h
    obtain rfl := Except.error.inj he
    exact finalAtEnd_of_not c rfl

theorem finalAtEnd_text : FailsWith FinalAtEnd text :=
  .bind (failsWith_look _) fun _ =>
    .ite finalAtEnd_quoted (failsWith_word fun _ => finalAtEnd_of_not) _

end Reader

namespace Reading

/-- A reading that gives up on the line, if at all, at its end and without an answer. -/
def Concludes (r : Reading α) : Prop :=
  ∀ e, r.value = .error e → e.isFinal = true → r.answer = none ∧ r.cursor.line = []

variable {c : Cursor}

theorem concludes_accept {kind : TokenKind} {value : TokenValue} (hv : value.isError = false)
    {x : α} : Concludes (accept kind value x c) := by
  rintro e rfl
  simp [TokenValue.isError] at hv

theorem concludes_reject {e : SyntaxError} (he : e.isFinal = false) {x : α} :
    Concludes (reject e x c) := by
  intro e' h hf
  obtain rfl := TokenValue.error.inj h
  simp [he] at hf

theorem concludes_refuse {e : SyntaxError} (he : Reader.FinalAtEnd e c) :
    Concludes (refuse e c : Reading α) := by
  intro e' h hf
  obtain rfl := TokenValue.error.inj h
  exact ⟨rfl, he hf⟩

theorem concludes_acceptIf {test : Bool} {kind : TokenKind} {value : TokenValue}
    (hv : value.isError = false) {e : SyntaxError} (he : e.isFinal = false) {x : α} :
    Concludes (acceptIf test kind value e x c) := by
  cases test
  · exact concludes_reject he
  · exact concludes_accept hv

theorem Concludes.warnIf {r : Reading α} (h : r.Concludes) (test : Bool) (w : WarningKind) :
    (r.warnIf test w).Concludes := by
  cases test <;> exact h

theorem concludes_of {r : Reader β} (hr : r.FailsWith Reader.FinalAtEnd)
    {judge : β → Cursor → Reading α} (hj : ∀ x d, (judge x d).Concludes) :
    (of r judge c).Concludes := by
  unfold of
  split
  · exact hj _ _
  · next e d h => exact concludes_refuse (hr c e d h)

end Reading

namespace Argument

open Reader Reading

/-- Whether an argument is what is left of a line. -/
def isLine : Argument → Bool
  | line _ => true
  | _ => false

theorem not_isFinal_axesError {earlier cs : List Char} {e : SyntaxError}
    (h : axesError? earlier cs = some e) : e.isFinal = false := by
  induction cs generalizing earlier with
  | nil => simp [axesError?] at h
  | cons x cs ih =>
    unfold axesError? at h
    split at h
    · exact Option.some.inj h ▸ rfl
    split at h
    · exact Option.some.inj h ▸ rfl
    · exact ih h

theorem not_isFinal_boundsError (bounds : Option (Binary64 × Option Binary64)) :
    (boundsError bounds).isFinal = false := by
  cases bounds <;> rfl

/-- No argument but what is left of a line gives up on the line and has an answer. -/
theorem concludes_read {a : Argument} (ha : a.isLine = false) (c : Cursor) :
    (a.read c).Concludes := by
  have hword : Reader.word.FailsWith FinalAtEnd := failsWith_word fun _ => finalAtEnd_of_not
  have hinteger : Reader.integer.FailsWith FinalAtEnd :=
    failsWith_integer fun _ => finalAtEnd_of_not
  have hnumber : Reader.number.FailsWith FinalAtEnd := failsWith_number fun _ => finalAtEnd_of_not
  have hcoordinate : Reader.coordinate.FailsWith FinalAtEnd :=
    failsWith_coordinate fun _ => finalAtEnd_of_not
  have hidentifier : Reader.identifier.FailsWith FinalAtEnd :=
    failsWith_identifier fun _ => finalAtEnd_of_not
  cases a with
  | identifier => exact concludes_of hidentifier fun _ _ => concludes_accept rfl
  | word => exact concludes_of hword fun _ _ => concludes_accept rfl
  | text role => exact concludes_of finalAtEnd_text fun _ _ => concludes_accept rfl
  | quoted => exact concludes_of finalAtEnd_quoted fun _ _ => concludes_accept rfl
  | quotedKey => exact concludes_of finalAtEnd_quoted fun _ _ => concludes_accept rfl
  | star role =>
    exact concludes_of (failsWith_symbol (fun _ => finalAtEnd_of_not) _) fun _ _ =>
      concludes_accept rfl
  | boolean =>
    exact concludes_of (failsWith_boolean fun _ => finalAtEnd_of_not) fun _ _ =>
      concludes_accept rfl
  | stateBoolean =>
    refine concludes_of hword fun w d => ?_
    split
    · exact concludes_accept rfl
    · exact concludes_reject rfl
  | integer least greatest => exact concludes_of hinteger fun _ _ => concludes_acceptIf rfl rfl
  | number bounds =>
    exact concludes_of hnumber fun _ _ => concludes_acceptIf rfl (not_isFinal_boundsError bounds)
  | range =>
    exact concludes_of (failsWith_range fun _ => finalAtEnd_of_not) fun _ _ =>
      concludes_accept rfl
  | keyword allowed =>
    refine concludes_of hword fun w d => ?_
    split
    · exact concludes_accept rfl
    · exact concludes_refuse (finalAtEnd_of_not _ rfl)
  | booleanOr allowed =>
    refine concludes_of hword fun w d => ?_
    split
    · exact nofun
    split
    · exact nofun
    · exact concludes_refuse (finalAtEnd_of_not _ rfl)
  | identifierOr allowed =>
    refine concludes_of hidentifier fun w d => ?_
    split <;> exact nofun
  | textOr allowed => exact concludes_of finalAtEnd_text fun _ _ => nofun
  | line missing => simp [isLine] at ha
  | lineOr allowed => exact concludes_of failsWith_line fun _ _ => nofun
  | coordinate earlier =>
    exact concludes_of hcoordinate fun _ _ => concludes_acceptIf rfl rfl
  | selectorCoordinate => exact concludes_of hcoordinate fun _ _ => concludes_acceptIf rfl rfl
  | angle =>
    exact concludes_of (failsWith_angle fun _ => finalAtEnd_of_not) fun _ _ =>
      concludes_accept rfl
  | gameMode => exact concludes_of hinteger fun _ _ => concludes_acceptIf rfl rfl
  | difficulty => exact concludes_of hnumber fun _ _ => concludes_acceptIf rfl rfl
  | experience =>
    exact concludes_of (failsWith_experience fun _ => finalAtEnd_of_not) fun _ _ =>
      concludes_accept rfl
  | spreadRange distance =>
    refine concludes_of hnumber fun x d => ?_
    split
    · exact concludes_reject rfl
    · exact concludes_acceptIf rfl rfl
  | randomMaximum least => exact concludes_of hinteger fun _ _ => concludes_acceptIf rfl rfl
  | scoreBound least =>
    refine concludes_of (failsWith_starOrInteger fun _ => finalAtEnd_of_not) fun n? d => ?_
    cases n? with
    | none => exact concludes_accept rfl
    | some n => exact concludes_acceptIf rfl rfl
  | permissionState => exact concludes_of hword fun _ _ => concludes_acceptIf rfl rfl
  | axes =>
    refine concludes_of hword fun w d => ?_
    cases h : axesError? [] w.toList with
    | none => exact concludes_accept rfl
    | some e => exact concludes_reject (not_isFinal_axesError h)
  | comparison => exact concludes_accept rfl
  | scoreOperator =>
    simp only [read]
    split
    · exact concludes_accept rfl
    · exact concludes_refuse (finalAtEnd_of_not _ rfl)
  | selectorVariable =>
    simp only [read]
    split
    · exact concludes_acceptIf rfl rfl
    · next e d h => exact concludes_reject (failsWith_word (fun _ _ he => he) _ e d h)
  | selectorOption allowed =>
    refine concludes_of hword fun w d => ?_
    split
    · exact concludes_accept rfl
    · exact concludes_refuse fun _ => d.line_toLineEnd
  | hasitemKey =>
    refine concludes_of hword fun w d => ?_
    split
    · exact concludes_accept rfl
    · exact concludes_reject rfl
  | hasitemData =>
    exact concludes_of hinteger fun _ _ => (concludes_acceptIf rfl rfl).warnIf _ _
  | blockData =>
    exact concludes_of hinteger fun _ _ => (concludes_acceptIf rfl rfl).warnIf _ _
  | staleBlockData => exact concludes_refuse (finalAtEnd_of_not _ rfl)
  | jsonNumber =>
    exact concludes_of (failsWith_jsonNumber fun _ => finalAtEnd_of_not) fun _ _ =>
      concludes_accept rfl
  | jsonConstant w =>
    simp only [read]
    split <;> exact concludes_accept rfl

end Argument
end BedrockCommand
