import BedrockCommand.Command
import BedrockCommand.Proofs.Grammar.Regular
import BedrockCommand.Proofs.Rule.Alike
import BedrockCommand.Proofs.Rule.Append
/-!
Reading a command is sound at every depth, it ends where the line does, it keeps to its line, and
the depth does not matter as long as no command lies too deep.
-/
namespace BedrockCommand

variable {version : Version} {c d : Cursor} {s : Step}

/-- A keyword that ends further along the line. -/
theorem Step.keyword_ahead {name typed : String} (h : c.Ahead d) : Step.keyword name typed c d =
    ⟨.notice (.commandRead ⟨c.position, d.position⟩ name typed) ::
      .token ⟨.command, .command name, ⟨c.position, d.position⟩⟩ ::
        warningEvents (if name ∈ Grammar.restricted then some (.noPermission typed) else none)
          ⟨c.position, d.position⟩, [], .done, d⟩ := by
  simp only [keyword, between, Span.between_ahead h]

theorem Reader.ahead_word {typed : String} (h : Reader.word c = (.ok typed, d)) : c.Ahead d := by
  have ha := Reader.OnLine.ahead Reader.onLine_word c
  rwa [h] at ha

namespace Step.Sound

theorem closeCommand (h : s.Sound version c) : s.closeCommand.Sound version c := by
  refine h.settle.andThen fun _ => ?_
  split
  · exact sweep _ _
  · exact done _

/-- A command that is closed is done, and nothing is left of its line. -/
theorem closeCommand_ends (h : s.Sound version c) :
    s.closeCommand.outcome = .done ∧ s.closeCommand.cursor.line = [] := by
  unfold Step.closeCommand
  simp only [Step.andThen, h.outcome_settle]
  split
  · rw [sweep_eq]
    exact ⟨rfl, s.settle.cursor.line_toLineEnd⟩
  · next hl => exact ⟨rfl, by simpa [Cursor.lineContinues_iff, Step.done] using hl⟩

/-- The keyword of a command of the version. -/
theorem keyword {typed : String} {rule : Rule} (hw : Reader.word c = (.ok typed, d))
    (hr : Grammar.command? (Grammar.canonicalName typed) version = some rule) :
    (Step.keyword (Grammar.canonicalName typed) typed c d).Sound version c := by
  have hahead := Reader.ahead_word hw
  have htoken : Trace version isStructural c _ d := .token (.keyword hw hr) hahead (.nil d)
  rw [keyword_ahead hahead]
  exact ⟨by simp, .notice _ (by simpa using htoken)⟩

end Step.Sound

namespace Command

theorem closeCommand_andThen {s : Step} (h : s.outcome = .done) (f : Cursor → Step) :
    (s.andThen f).closeCommand = s.andThen fun c => (f c).closeCommand := by
  rw [Step.closeCommand, Step.settle_andThen h, Step.andThen_assoc]
  rfl

theorem sound_tooDeep (c : Cursor) : (tooDeep c).Sound version c :=
  (Step.Sound.notice _ c).andThen fun _ => (Step.Sound.sweep _ _).andThen fun _ => .halt _

theorem sound_body {nested : Cursor → Step} (hn : ∀ d, (nested d).Sound version d) (c : Cursor) :
    (body version nested c).Sound version c := by
  unfold body
  split
  · exact (Step.Sound.sweep _ c).andThen fun _ => .halt _
  · next typed d hw =>
    simp only
    split
    · exact (Step.Sound.sweep _ c).andThen fun _ => .halt _
    · next rule hr =>
      refine (Step.Sound.keyword hw hr).andThen fun _ => ?_
      exact Rule.sound_run hn (Rule.wellFormed_command? hr) (by simp)

theorem sound_read (depth : Nat) (c : Cursor) : (read version depth c).Sound version c := by
  -- One level further down, a nested command is the command of the depth before.
  induction depth generalizing c with
  | zero => exact (sound_body sound_tooDeep c).closeCommand
  | succ depth ih => exact (sound_body ih c).closeCommand

theorem read_ends (depth : Nat) (c : Cursor) :
    (read version depth c).outcome = .done ∧ (read version depth c).cursor.line = [] := by
  cases depth with
  | zero => exact (sound_body sound_tooDeep c).closeCommand_ends
  | succ depth => exact (sound_body (sound_read depth) c).closeCommand_ends

theorem alike_keyword {m : Position → Position} {name typed : String} {c' d' : Cursor}
    (h : Cursor.Alike m c d) (h' : Cursor.Alike m c' d') (hc : c.Ahead c') (hd : d.Ahead d') :
    Step.Alike m (Step.keyword name typed c c') (Step.keyword name typed d d') := by
  rw [Step.keyword_ahead hc, Step.keyword_ahead hd]
  refine ⟨?_, rfl, rfl, h'⟩
  simp only [List.map_cons, Step.map_warningEvents, Event.moved, Notice.moved, Span.moved,
    h.position, h'.position]

section

variable {m : Position → Position} (hm : Position.MovesLines m)
include hm

theorem alike_tooDeep (h : Cursor.Alike m c d) : Step.Alike m (tooDeep c) (tooDeep d) := by
  have hnotice : Event.notice (.commandTooDeep d.position maxNesting) =
      (Event.notice (.commandTooDeep c.position maxNesting)).moved m := by
    rw [h.position]
    rfl
  exact (Step.Agree.report hnotice h).andThen fun h' => (Step.Alike.sweep hm _ h').andThen .halt

theorem alike_closeCommand {t : Step} (h : Step.Alike m s t) :
    Step.Alike m s.closeCommand t.closeCommand := by
  refine h.settle.andThen fun h' => ?_
  rw [h'.lineContinues]
  split
  · exact Step.Alike.sweep hm _ h'
  · exact .done h'

theorem alike_body {nested : Cursor → Step} (hsound : ∀ c, (nested c).Sound version c)
    (hn : ∀ {c d}, Cursor.Alike m c d → Step.Alike m (nested c) (nested d))
    (h : Cursor.Alike m c d) :
    Step.Alike m (body version nested c) (body version nested d) := by
  obtain ⟨hv, hcursor⟩ := Reader.OnLine.alike Reader.onLine_word hm h
  have hc := Reader.OnLine.ahead Reader.onLine_word c
  have hd := Reader.OnLine.ahead Reader.onLine_word d
  unfold body
  rcases hwc : Reader.word c with ⟨v, c'⟩
  rcases hwd : Reader.word d with ⟨v', d'⟩
  simp only [hwc, hwd] at hv hcursor hc hd
  obtain rfl := hv
  cases v' with
  | error e => exact (Step.Alike.sweep hm _ h).andThen .halt
  | ok typed =>
    simp only
    split
    · exact (Step.Alike.sweep hm _ h).andThen .halt
    · next rule hr =>
      exact (alike_keyword h hcursor hc hd).andThen
        (Rule.alike_run hm hsound hn (Rule.wellFormed_command? hr) (by simp))

theorem alike_read (depth : Nat) (h : Cursor.Alike m c d) :
    Step.Alike m (read version depth c) (read version depth d) := by
  induction depth generalizing c d with
  | zero => exact alike_closeCommand hm (alike_body hm sound_tooDeep (alike_tooDeep hm) h)
  | succ depth ih => exact alike_closeCommand hm (alike_body hm (sound_read depth) ih h)

end

/-! ## Depth -/

variable {Q : Event → Prop} {f g : Cursor → Step}

theorem follows_closeCommand (h : Step.Follows Q f g) :
    Step.Follows Q (fun c => (f c).closeCommand) (fun c => (g c).closeCommand) :=
  h.settle.andThen (.refl _)

/-- A command goes on as the commands inside it do. -/
theorem follows_body (hn : Step.Follows Q f g) :
    Step.Follows Q (body version f) (body version g) := by
  intro c hc
  unfold body at hc ⊢
  split at hc
  · rfl
  simp only at hc ⊢
  split at hc
  · rfl
  · next rule hr =>
    have hrule : Step.Follows Q (rule.run ⟨Grammar.dialect version, f⟩)
        (rule.run ⟨Grammar.dialect version, g⟩) :=
      Rule.follows_run (fun _ => hn) (fun _ _ hd => hd (Grammar.dialect version))
        (Rule.composed_command? hr).regular
    exact Step.andThen_congr_right hrule hc

end Command

/-- An event that does not say that something lies too deep. -/
def Event.IsShallow : Event → Prop
  | .token t => ∀ limit, t.value ≠ .error (.nestingTooDeep limit)
  | .warning _ => True
  | .notice _ => True
  | .json _ => True

namespace Command

theorem tooDeep_eq (c : Cursor) : tooDeep c =
    ⟨[.notice (.commandTooDeep c.position maxNesting), .token ⟨.error,
      .error (.nestingTooDeep maxNesting), ⟨c.position, c.toLineEnd.position⟩⟩], [], .halted,
      c.toLineEnd⟩ := by
  simp only [tooDeep, Step.sweep_eq]
  rfl

theorem follows_tooDeep (f : Cursor → Step) : Step.Follows Event.IsShallow tooDeep f := by
  intro c hc
  rw [tooDeep_eq] at hc
  exact absurd rfl (hc _ (List.mem_cons_of_mem _ (List.mem_singleton_self _)) maxNesting)

/-- More depth changes nothing where the depth is enough. -/
theorem follows_deeper (depth more : Nat) :
    Step.Follows Event.IsShallow (read version depth) (read version (depth + more)) := by
  induction depth with
  | zero =>
    rw [Nat.zero_add]
    cases more with
    | zero => exact .refl _
    | succ more => exact follows_closeCommand (follows_body (follows_tooDeep _))
  | succ depth ih =>
    rw [Nat.succ_add]
    exact follows_closeCommand (follows_body ih)

end Command
end BedrockCommand
