import BedrockCommand.Proofs.Argument.Plain
import BedrockCommand.Rule.Run
/-!
Steps that report only events of some sort. A step reports what its parts report, so that a sort
that takes in what arguments and errors report takes in all that a rule reports by itself.
-/
namespace BedrockCommand

/-- A sort of events that takes in all errors. -/
def Event.CoversErrors (Q : Event → Prop) : Prop :=
  ∀ e s, Q (.token ⟨.error, .error e, s⟩)

/-- A sort of events that takes in everything that is not about commands, in a dialect. -/
structure Event.CoversArguments (d : Dialect) (Q : Event → Prop) : Prop where
  errors : CoversErrors Q
  argument {a : Argument} (ha : d.Allows a) {c : Cursor} {kind : TokenKind}
    (h : (a.read c).kind = some kind) (s : Span) : Q (.token ⟨kind, (a.read c).value, s⟩)
  warning {a : Argument} (ha : d.Allows a) {c : Cursor} {w : WarningKind}
    (h : (a.read c).warning = some w) (s : Span) : Q (.warning ⟨w, s⟩)
  tooDeep (p : Position) : Q (.notice (.jsonTooDeep p maxNesting))
  json (p : Position) : Q (.json p)

namespace Step

/-- A step that reports only events of one sort. -/
def Only (Q : Event → Prop) (s : Step) : Prop :=
  ∀ e ∈ s.events, Q e

variable {Q : Event → Prop} {s : Step} {f : Cursor → Step} {c d : Cursor}

theorem events_andThen_of_done (h : s.outcome = .done) :
    (s.andThen f).events = s.events ++ (f s.cursor).events := by
  simp only [andThen, h]

theorem cursor_andThen_of_done (h : s.outcome = .done) :
    (s.andThen f).cursor = (f s.cursor).cursor := by
  simp only [andThen, h]

theorem outcome_andThen_of_done (h : s.outcome = .done) :
    (s.andThen f).outcome = (f s.cursor).outcome := by
  simp only [andThen, h]

theorem events_andThen_of_silent (h : (f s.cursor).events = []) :
    (s.andThen f).events = s.events := by
  unfold andThen
  split
  · simp [h]
  · rfl

theorem andThen_of_ne_done (h : s.outcome ≠ .done) : s.andThen f = s := by
  unfold andThen
  split
  · next hd => exact absurd hd h
  · rfl

@[simp] theorem events_settle (s : Step) : s.settle.events = s.events := by
  unfold settle
  split <;> rfl

@[simp] theorem marks_settle (s : Step) : s.settle.marks = s.marks := by
  unfold settle
  split <;> rfl

@[simp] theorem cursor_settle (s : Step) : s.settle.cursor = s.cursor := by
  unfold settle
  split <;> rfl

namespace Only

theorem left (h : (s.andThen f).Only Q) : s.Only Q := by
  by_cases hd : s.outcome = .done
  · exact fun e he => h e (events_andThen_of_done hd ▸ List.mem_append_left _ he)
  · exact andThen_of_ne_done hd ▸ h

theorem right (h : (s.andThen f).Only Q) (hd : s.outcome = .done) : (f s.cursor).Only Q :=
  fun e he => h e (events_andThen_of_done hd ▸ List.mem_append_right _ he)

theorem andThen (hs : s.Only Q) (hf : ∀ d, (f d).Only Q) : (s.andThen f).Only Q := by
  by_cases hd : s.outcome = .done
  · intro e he
    rw [events_andThen_of_done hd] at he
    exact (List.mem_append.mp he).elim (hs e) (hf _ e)
  · exact (andThen_of_ne_done hd).symm ▸ hs

theorem settle (h : s.Only Q) : s.settle.Only Q :=
  fun e he => h e (events_settle s ▸ he)

theorem done (c : Cursor) : (Step.done c).Only Q := List.forall_mem_nil _

theorem halt (c : Cursor) : (Step.halt c).Only Q := List.forall_mem_nil _

theorem fail (f : Fault) (c : Cursor) : (Step.fail f c).Only Q := List.forall_mem_nil _

theorem report {e : Event} (h : Q e) (c : Cursor) : (Step.report e c).Only Q :=
  fun _ he => List.mem_singleton.mp he ▸ h

theorem warningEvents {w : Option WarningKind} {span : Span}
    (h : ∀ kind ∈ w, Q (.warning ⟨kind, span⟩)) : ∀ e ∈ Step.warningEvents w span, Q e := by
  cases w with
  | none => exact List.forall_mem_nil _
  | some kind => exact fun _ he => List.mem_singleton.mp he ▸ h kind rfl

theorem token {kind : Option TokenKind} {value : TokenValue} {w : Option WarningKind}
    (ht : ∀ k ∈ kind, ∀ span, Q (.token ⟨k, value, span⟩))
    (hw : ∀ k ∈ w, ∀ span, Q (.warning ⟨k, span⟩)) (c d : Cursor) :
    (Step.token kind value w c d).Only Q := by
  unfold Step.token
  split
  · exact fail _ _
  · exact fail _ _
  · exact List.forall_mem_cons.mpr ⟨ht _ rfl _, warningEvents fun k hk => hw k hk _⟩

section

variable (hq : Event.CoversErrors Q)
include hq

theorem error (e : SyntaxError) (c d : Cursor) : (Step.error e c d).Only Q :=
  token (fun _ hk span => Option.some.inj hk ▸ hq e span) (by simp) c d

theorem complain (e : SyntaxError) (c : Cursor) : (Step.complain e c).Only Q :=
  error hq e c c

theorem refuse (e : SyntaxError) (c : Cursor) : (Step.refuse e c).Only Q :=
  (complain hq e c).andThen halt

theorem sweep (e : SyntaxError) (c : Cursor) : (Step.sweep e c).Only Q :=
  error hq e c _

theorem expect (x : Char) (c : Cursor) : (Step.expect x c).Only Q := by
  unfold Step.expect
  split
  · exact done _
  · exact refuse hq _ _

theorem afterElement {b : Brackets} (h : ∀ d, (f d).Only Q) (fuel : Nat) (c : Cursor) :
    (Step.afterElement b f fuel c).Only Q := by
  induction fuel generalizing c with
  | zero => exact fail _ _
  | succ fuel ih =>
    unfold Step.afterElement
    split
    · exact done _
    split
    · split
      · exact (error hq _ _ _).andThen fun d => done _
      · exact h _
    split
    · exact refuse hq _ _
    · exact (error hq _ _ _).andThen ih

theorem elements {b : Brackets} (h : ∀ d, (f d).Only Q) (fuel : Nat) (c : Cursor) :
    (Step.elements b f fuel c).Only Q := by
  induction fuel generalizing c with
  | zero => exact fail _ _
  | succ fuel ih =>
    unfold Step.elements
    simp only
    split
    · exact h _
    · exact (h _).settle.andThen fun d => afterElement hq ih _ d

theorem list {b : Brackets} {mayBeEmpty : Bool} (h : ∀ d, (f d).Only Q) (c : Cursor) :
    (Step.list b mayBeEmpty f c).Only Q := by
  unfold Step.list
  split
  · exact refuse hq _ _
  simp only
  split
  · split
    · exact done _
    · exact (complain hq _ _).andThen fun d => done _
  · exact elements hq h _ _

theorem whole (h : s.Only Q) : s.whole.Only Q := by
  refine h.settle.andThen fun d => ?_
  split
  · exact done d
  · exact sweep hq _ d

end

section

variable {dialect : Dialect} (hq : Event.CoversArguments dialect Q)
include hq

theorem argument {a : Argument} (ha : dialect.Allows a) {next : a.Answer → Cursor → Step}
    (h : ∀ x d, (next x d).Only Q) : (Step.argument a c next).Only Q := by
  refine andThen (token (fun _ => hq.argument ha) (fun _ => hq.warning ha) _ _) fun d => ?_
  split
  · exact h _ d
  · exact halt d

theorem clauses {keywords : List String} (hk : dialect.Allows (.keyword keywords))
    {clause : String → Cursor → Step} {finish : Option String → Cursor → Step}
    (hc : ∀ w d, (clause w d).Only Q) (hf : ∀ w d, (finish w d).Only Q) (fuel : Nat)
    (last : Option String) (c : Cursor) :
    (Step.clauses keywords clause finish fuel last c).Only Q := by
  induction fuel generalizing last c with
  | zero => exact fail _ _
  | succ fuel ih =>
    unfold Step.clauses
    split
    · exact hf _ _
    · exact argument hq hk fun w d => (hc w d).andThen (ih (some w))

end

end Only
end Step
end BedrockCommand
