import BedrockCommand.Proofs.Rule.Agree
import BedrockCommand.Tokenize
/-!
The tokens and the warnings among the events of a step.
-/
namespace BedrockCommand

/-- The same token in another place. -/
def Token.moved (m : Position → Position) (t : Token) : Token :=
  { t with span := t.span.moved m }

/-- The tokens that a step reports. -/
def Step.tokens (s : Step) : List Token :=
  (Tokenized.ofEvents s.events).tokens

namespace Tokenized

variable {es fs : List Event}

@[simp] theorem tokens_append :
    (ofEvents (es ++ fs)).tokens = (ofEvents es).tokens ++ (ofEvents fs).tokens :=
  List.filterMap_append

@[simp] theorem tokens_nil : (ofEvents []).tokens = [] := rfl

@[simp] theorem tokens_token (t : Token) :
    (ofEvents (.token t :: es)).tokens = t :: (ofEvents es).tokens := rfl

@[simp] theorem tokens_notice (n : Notice) :
    (ofEvents (.notice n :: es)).tokens = (ofEvents es).tokens := rfl

@[simp] theorem tokens_json (p : Position) :
    (ofEvents (.json p :: es)).tokens = (ofEvents es).tokens := rfl

theorem mem_tokens {t : Token} : t ∈ (ofEvents es).tokens ↔ .token t ∈ es := by
  simp only [ofEvents, List.mem_filterMap]
  constructor
  · rintro ⟨e, he, h⟩
    cases e <;> simp_all
  · exact fun h => ⟨_, h, rfl⟩

@[simp] theorem tokens_warningEvents (w : Option WarningKind) (s : Span) :
    (ofEvents (Step.warningEvents w s)).tokens = [] := by
  cases w <;> rfl

@[simp] theorem warnings_append :
    (ofEvents (es ++ fs)).warnings = (ofEvents es).warnings ++ (ofEvents fs).warnings :=
  List.filterMap_append

@[simp] theorem warnings_nil : (ofEvents []).warnings = [] := rfl

@[simp] theorem warnings_token (t : Token) :
    (ofEvents (.token t :: es)).warnings = (ofEvents es).warnings := rfl

@[simp] theorem warnings_notice (n : Notice) :
    (ofEvents (.notice n :: es)).warnings = (ofEvents es).warnings := rfl

theorem warnings_warningEvents (w : Option WarningKind) (s : Span) :
    (ofEvents (Step.warningEvents w s)).warnings = (w.map fun k => ⟨k, s⟩).toList := by
  cases w <;> rfl

theorem mem_warnings {w : Warning} : w ∈ (ofEvents es).warnings ↔ .warning w ∈ es := by
  simp only [ofEvents, List.mem_filterMap]
  constructor
  · rintro ⟨e, he, h⟩
    cases e <;> simp_all
  · exact fun h => ⟨_, h, rfl⟩

theorem tokens_moved (m : Position → Position) (events : List Event) :
    (ofEvents (events.map (Event.moved m))).tokens =
      (ofEvents events).tokens.map (Token.moved m) := by
  induction events with
  | nil => rfl
  | cons event events ih =>
    cases event with
    | token t => exact congrArg (t.moved m :: ·) ih
    | _ => exact ih

theorem warnings_moved (m : Position → Position) (events : List Event) :
    (ofEvents (events.map (Event.moved m))).warnings =
      (ofEvents events).warnings.map fun w => { w with span := w.span.moved m } := by
  induction events with
  | nil => rfl
  | cons event events ih =>
    cases event with
    | warning w => exact congrArg ({ w with span := w.span.moved m } :: ·) ih
    | _ => exact ih

end Tokenized
end BedrockCommand
