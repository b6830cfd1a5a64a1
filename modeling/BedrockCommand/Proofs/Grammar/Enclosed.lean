import BedrockCommand.Proofs.Command
import BedrockCommand.Proofs.Grammar.Plain
import BedrockCommand.Proofs.Rule.Append
/-!
Commands inside commands. What a command reports ends with what the command inside it reports:
nothing comes after that, because nothing is left of the line.
-/
namespace BedrockCommand

/-- An event that is not about a command. -/
def Event.IsPlain : Event → Prop
  | .token t => t.kind ≠ .command
  | .warning _ => True
  | .notice _ => True
  | .json _ => True

theorem Event.isPlain_errors : CoversErrors IsPlain := fun _ _ => by simp [IsPlain]

theorem Event.isPlain_argument {a : Argument} {c : Cursor} {kind : TokenKind}
    (h : (a.read c).kind = some kind) (s : Span) :
    Event.IsPlain (.token ⟨kind, (a.read c).value, s⟩) := by
  intro hk
  obtain rfl : kind = .command := hk
  have hkind := (a.proper_read c).kind
  simp [h, Reading.isArgument] at hkind

theorem Event.coversArguments_isPlain {d : Dialect} : CoversArguments d IsPlain where
  errors := isPlain_errors
  argument _ := isPlain_argument
  warning _ _ _ _ _ := trivial
  tooDeep _ := trivial
  json _ := trivial

variable {version : Version} {nested : Cursor → Step} {c : Cursor} {s : Step}

namespace Step

/-- A step that reports nothing about commands or that ends, as the line does, with all that one
command inside it reports. -/
inductive Encloses (version : Version) (nested : Cursor → Step) (c : Cursor) (s : Step) : Prop where
  | nothing (h : s.Only Event.IsPlain)
  | last {own : List Event} {d : Cursor} (ht : Trace version isStructural c own d)
    (ho : ∀ e ∈ own, e.IsPlain) (he : s.events = own ++ (nested d).events)
    (hl : s.cursor.line = [])

namespace Encloses

/-- What is not about commands may come in front. -/
theorem after {f : Cursor → Step} (hs : s.Sound version c) (ho : s.Only Event.IsPlain)
    (hf : s.outcome = .done → (f s.cursor).Encloses version nested s.cursor) :
    (s.andThen f).Encloses version nested c := by
  by_cases hd : s.outcome = .done
  · cases hf hd with
    | nothing h =>
      refine .nothing ?_
      rw [Only, events_andThen_of_done hd]
      exact fun e he => (List.mem_append.mp he).elim (ho e) (h e)
    | last ht hp he hl =>
      refine .last (hs.trace.append ht) ?_ ?_ (by rwa [cursor_andThen_of_done hd])
      · exact fun e he => (List.mem_append.mp he).elim (ho e) (hp e)
      · rw [events_andThen_of_done hd, he, List.append_assoc]
  · rw [andThen_of_ne_done hd]
    exact .nothing ho

theorem closeCommand (h : s.Encloses version nested c) :
    s.closeCommand.Encloses version nested c := by
  cases h with
  | nothing h =>
    refine .nothing (h.settle.andThen fun d => ?_)
    split
    · exact .sweep Event.isPlain_errors _ d
    · exact .done d
  | last ht ho he hl =>
    have hend : ¬ s.settle.cursor.lineContinues = true :=
      fun h => Cursor.lineContinues_iff.mp h (by rwa [cursor_settle])
    have hsame : s.closeCommand = s.settle := andThen_eq_self (if_neg hend)
    rw [hsame]
    exact .last ht ho (by rwa [events_settle]) (by rwa [cursor_settle])

/-- A command that takes all of the line, and nothing behind it. -/
theorem enclosed {f : Cursor → Step} (hl : (nested c).cursor.line = [])
    (hf : ∀ d, d.line = [] → (f d).events = [] ∧ (f d).cursor = d) :
    ((nested c).andThen f).Encloses version nested c := by
  by_cases hd : (nested c).outcome = .done
  · obtain ⟨he, hc⟩ := hf _ hl
    refine .last (.nil c) (List.forall_mem_nil _) ?_ ?_
    · rw [events_andThen_of_done hd, he, List.append_nil, List.nil_append]
    · rwa [cursor_andThen_of_done hd, hc]
  · rw [andThen_of_ne_done hd]
    exact .last (.nil c) (List.forall_mem_nil _) rfl hl

/-- Clauses up to the end of the line, one of which may be a command that takes all of it. -/
theorem clauses {keywords : List String} {clause : String → Cursor → Step}
    {finish : Option String → Cursor → Step}
    (hs : ∀ w d, (clause w d).Sound version d) (hl : ∀ d, (nested d).cursor.line = [])
    (hc : ∀ w, (∀ d, (clause w d).Only Event.IsPlain) ∨
      (∀ d, clause w d = nested d) ∧ ∀ d, finish (some w) d = .done d)
    (hf : ∀ w d, (finish w d).Only Event.IsPlain) (fuel : Nat) (last : Option String)
    (c : Cursor) : (Step.clauses keywords clause finish fuel last c).Encloses version nested c := by
  induction fuel generalizing last c with
  | zero => exact .nothing (.fail _ c)
  | succ fuel ih =>
    unfold Step.clauses
    split
    · exact .nothing (hf last c)
    obtain ⟨kind, hk⟩ := (Argument.keyword keywords).exists_kind_read c
    have hahead := Argument.ahead_keyword keywords c
    unfold argument
    refine after ?_ ?_ fun _ => ?_
    · rw [hk]
      exact .token (.argument _ c hk) hahead
    · exact .token (fun _ => Event.isPlain_argument) (fun _ _ _ => trivial) _ _
    rw [hk, token_ahead _ _ _ hahead]
    split
    · next w hw =>
      rcases hc w with hplain | ⟨hn, hfinish⟩
      · exact after (hs w _) (hplain _) fun _ => ih (some w) _
      · simp only [hn]
        refine .enclosed (hl _) fun d hd => ?_
        have hend : ¬ d.lineContinues = true := fun h => Cursor.lineContinues_iff.mp h hd
        cases fuel with
        | zero => exact ⟨rfl, rfl⟩
        | succ fuel =>
          rw [Step.clauses, if_pos (by simpa using hend), hfinish]
          exact ⟨rfl, rfl⟩
    · exact .nothing (.halt _)

end Encloses
end Step

/-- A command reports nothing about other commands, or one inside it comes last. -/
theorem Rule.encloses_run {name : String} {rule : Rule}
    (h : Grammar.command? name version = some rule) (hs : ∀ d, (nested d).Sound version d)
    (hl : ∀ d, (nested d).cursor.line = []) (c : Cursor) :
    (rule.run ⟨Grammar.dialect version, nested⟩ c).Encloses version nested c := by
  have hplain {r : Rule} (hr : Composed False r) (d : Cursor) :
      (r.run ⟨Grammar.dialect version, nested⟩ d).Only Event.IsPlain :=
    only_run Event.coversArguments_isPlain False.elim hr.plain d
  have hsound {r : Rule} (hr : Composed True r) (d : Cursor) :
      (r.run ⟨Grammar.dialect version, nested⟩ d).Sound version d :=
    sound_run hs hr.wellFormed (by simp)
  rcases command?_cases h with hr | ⟨-, rfl⟩ | ⟨-, rfl | rfl⟩
  · exact .nothing (hplain hr.composed c)
  · exact .nothing (hplain .wsserver c)
  · have hown : Arranged .inside (target ++ position ++ .look (.word "detect") detect .done) :=
      .executeAtHead
    rw [executeAt, run_append]
    refine .after (hsound hown.composed c) (hplain hown.composed c) fun _ => ?_
    exact .enclosed (hl _) fun d _ => ⟨rfl, rfl⟩
  · refine .clauses (fun w => hsound (.executeClause trivial w)) hl (fun w => ?_)
      (fun w => hplain (.executeEnd w)) _ none c
    rcases executeClause_cases w with hw | ⟨rfl, hw⟩
    · exact .inl (hplain hw.composed)
    · refine .inr ⟨fun d => ?_, fun _ => rfl⟩
      rw [hw]
      exact Step.andThen_eq_self rfl

end BedrockCommand
