import BedrockCommand.Proofs.Command.Accepts
import BedrockCommand.Proofs.Grammar.Orderly
import BedrockCommand.Proofs.Rule.Invariant
import BedrockCommand.Proofs.Tokenize.Termination
/-!
What holds of all that is reported about a text: a property that rules keep from the places of the
text on, and keywords and comments with them, holds of the events of the text.
-/
namespace BedrockCommand

/-- A property of lists of events that everything keeps that is read at places of some sort.
Of all rules, `wsserver` alone need not keep it by itself, but it does behind its keyword. -/
structure Event.TextInvariant (version : Version) (R : Cursor → Prop) (P : List Event → Prop) :
    Prop extends Event.Invariant R (fun a => !a.mayBeEmpty) P where
  embedded : Event.Invariant (fun _ => True) Argument.isJson P
  newline {c : Cursor} (hc : R c) (h : c.isAt '\n' = true) : R c.advance
  comment {c : Cursor} (hc : R c) (h : c.isAt '#' = true) : (readComment c).Keeps P
  keyword {typed : String} {c d : Cursor} (hc : R c) (hw : Reader.word c = (.ok typed, d)) :
    (Step.keyword (Grammar.canonicalName typed) typed c d).Keeps P
  wsserver {typed : String} {c d : Cursor} (hc : R c) (hw : Reader.word c = (.ok typed, d))
    (hn : Grammar.canonicalName typed = "wsserver") (env : Env) :
    ((Step.keyword (Grammar.canonicalName typed) typed c d).andThen
      (Rule.wsserver.run env)).Keeps P

variable {version : Version} {R : Cursor → Prop} {P : List Event → Prop} {s : Step} {c : Cursor}
  {nested : Cursor → Step} (hp : Event.TextInvariant version R P)
include hp

namespace Command

theorem keeps_closeCommand (h : s.Keeps P) : s.closeCommand.Keeps P := by
  refine h.settle.andThen hp.toInvariant fun _ => ?_
  split
  · exact .sweep hp.toInvariant _ _
  · exact .silent hp.toInvariant rfl

theorem keeps_body (hs : ∀ d, (nested d).Sound version d) (hn : ∀ d, R d → (nested d).Keeps P)
    (hc : R c) : (body version nested c).Keeps P := by
  have hhalt (e : SyntaxError) : ((Step.sweep e c).andThen .halt).Keeps P :=
    .errorHalt hp.toInvariant e c _
  unfold body
  split
  · exact hhalt _
  next typed d hw =>
  simp only
  split
  · exact hhalt _
  next rule hr =>
  have hall (a : Argument) (ha : a.mayBeEmpty = false) : (!a.mayBeEmpty) = true := by simp [ha]
  rcases Rule.orderly_command? hall hr with ho | ⟨hname, rfl⟩
  · refine (hp.keyword hc hw).andThen hp.toInvariant fun _ => ?_
    have hahead := Reader.ahead_word hw
    rw [Step.keyword_ahead hahead]
    exact Rule.keeps_run hp.toInvariant hp.embedded hs (fun _ => hn)
      (Rule.wellFormed_command? hr) ho (by simp) (hp.onward hc hahead)
  · exact hp.wsserver hc hw hname _

theorem keeps_inner (levels : Nat) (hc : R c) : (inner version levels c).Keeps P := by
  induction levels generalizing c with
  | zero =>
    refine Step.Keeps.andThen (s := Step.report _ c) hp.toInvariant (hp.notice _) fun _ => ?_
    exact .errorHalt hp.toInvariant _ _ _
  | succ levels ih =>
    rw [inner, read_eq_body]
    exact keeps_closeCommand hp (keeps_body hp (sound_inner levels) (fun _ => ih) hc)

end Command

theorem keeps_readLine (hc : R c) :
    (readLine version c).Keeps P ∧ R (readLine version c).cursor := by
  have hspaces := hp.onward hc c.ahead_skipSpaces
  have hkeeps : (readLine version c).Keeps P := by
    unfold readLine
    simp only
    split
    · exact .silent hp.toInvariant rfl
    split
    · next h => exact hp.comment hspaces h
    split
    · exact .silent hp.toInvariant rfl
    · exact Command.keeps_inner hp (maxNesting + 1) hspaces
  refine ⟨hkeeps, ?_⟩
  rcases readLine_cases version c with ⟨-, hs⟩ | ⟨hn, hs⟩ | ⟨-, hs, -⟩
  · exact hs ▸ hspaces
  · exact hs ▸ hp.newline hspaces hn
  · exact hp.onward hspaces hs.ahead

theorem keeps_readLines (fuel : Nat) (hc : R c) : (readLines version fuel c).Keeps P := by
  induction fuel generalizing c with
  | zero => exact .silent hp.toInvariant rfl
  | succ fuel ih =>
    obtain ⟨hkeeps, hnext⟩ := keeps_readLine hp hc
    unfold readLines
    split
    · exact .silent hp.toInvariant rfl
    · exact hkeeps.andThen hp.toInvariant fun _ => ih hnext

theorem keeps_readText {text : String} {start : Position} (hc : R (.ofText text start)) :
    P (readText text start version).events :=
  keeps_readLines hp _ hc

end BedrockCommand
