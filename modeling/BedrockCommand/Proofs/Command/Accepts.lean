import BedrockCommand.Proofs.Command
import BedrockCommand.Proofs.Rule.Accepts
/-!
What commands accept: a command that is read without an error has a keyword of its version and a
text behind it, up to the end of the line, that the rule of the keyword accepts, with the commands
inside it.
-/
namespace BedrockCommand

variable {version : Version} {c d : Cursor} {s : Step} {ms : List String}

namespace Command

/-- Commands whose keyword the version has, and whose rule accepts all that is left of the line. -/
inductive AcceptsWith (version : Version) (nested : Passage) : Passage where
  | intro {c d e : Cursor} {typed : String} {rule : Rule} {ms : List String}
    (hw : Reader.word c = (.ok typed, d))
    (hr : Grammar.command? (Grammar.canonicalName typed) version = some rule)
    (h : rule.Accepts (Grammar.dialect version) nested d ms e) (hl : e.line = []) :
    AcceptsWith version nested c ms e

/-- Commands that lie in each other up to a number of levels. -/
def Accepts (version : Version) : Nat → Passage
  | 0 => fun _ _ _ => False
  | levels + 1 => AcceptsWith version (Accepts version levels)

/-- Reads a command where others may lie in each other up to a number of levels. -/
def inner (version : Version) : Nat → Cursor → Step
  | 0 => tooDeep
  | levels + 1 => read version levels

theorem read_eq_body (levels : Nat) (c : Cursor) :
    read version levels c = (body version (inner version levels) c).closeCommand := by
  cases levels <;> rfl

/-- A command of the version is read by its rule. -/
theorem read_of_command {typed : String} {rule : Rule} (hw : Reader.word c = (.ok typed, d))
    (hr : Grammar.command? (Grammar.canonicalName typed) version = some rule) (levels : Nat) :
    read version levels c = (Step.keyword (Grammar.canonicalName typed) typed c d).andThen fun d =>
      (rule.run ⟨Grammar.dialect version, inner version levels⟩ d).closeCommand := by
  rw [read_eq_body]
  simp only [body, hw, hr]
  rw [Step.keyword_ahead (Reader.ahead_word hw), closeCommand_andThen rfl]

theorem sound_inner (levels : Nat) (c : Cursor) : (inner version levels c).Sound version c := by
  cases levels with
  | zero => exact sound_tooDeep c
  | succ levels => exact sound_read levels c

theorem alike_inner {m : Position → Position} (hm : Position.MovesLines m) (levels : Nat)
    (h : Cursor.Alike m c d) : Step.Alike m (inner version levels c) (inner version levels d) := by
  cases levels with
  | zero => exact alike_tooDeep hm h
  | succ levels => exact alike_read hm levels h

theorem line_inner (levels : Nat) (c : Cursor) : (inner version levels c).cursor.line = [] := by
  cases levels with
  | zero =>
    rw [inner, tooDeep_eq]
    exact c.line_toLineEnd
  | succ levels => exact (read_ends levels c).2

theorem outspoken_tooDeep (c : Cursor) : (tooDeep c).Outspoken :=
  (Step.Outspoken.report _ c).andThen fun d => .errorHalt _ d _

theorem outspoken_body {nested : Cursor → Step} (hn : ∀ d, (nested d).Outspoken) (c : Cursor) :
    (body version nested c).Outspoken := by
  unfold body
  split
  · exact .errorHalt _ c _
  next typed d hw =>
  simp only
  split
  · exact .errorHalt _ c _
  next rule hr =>
  have hkeyword : (Step.keyword (Grammar.canonicalName typed) typed c d).Outspoken := by
    rw [Step.keyword_ahead (Reader.ahead_word hw)]
    exact .of_ne (by simp)
  exact hkeyword.andThen (Rule.outspoken_run hn rule)

theorem outspoken_inner (levels : Nat) (c : Cursor) : (inner version levels c).Outspoken := by
  cases levels with
  | zero => exact outspoken_tooDeep c
  | succ levels => exact .of_ne (by simp [inner, (read_ends levels c).1])

end Command

namespace Step

theorem satisfied_keyword {name typed : String} (h : c.Ahead d) :
    (Step.keyword name typed c d).Satisfied [] d := by
  rw [keyword_ahead h]
  refine ⟨⟨by simp, ?_⟩, rfl, rfl, rfl⟩
  refine List.forall_mem_cons.mpr ⟨trivial, List.forall_mem_cons.mpr ⟨?_, ?_⟩⟩
  · exact fun hk : TokenKind.command = .error => by simp at hk
  · exact Only.warningEvents fun _ _ => trivial

theorem satisfied_closeCommand (ho : s.Outspoken) :
    s.closeCommand.Satisfied ms d ↔ s.Satisfied ms d ∧ d.line = [] := by
  unfold closeCommand
  rw [satisfied_andThen]
  constructor
  · rintro ⟨ns, os, e, h, h', rfl⟩
    split at h'
    · exact absurd h' not_satisfied_error
    · next hl =>
      obtain ⟨rfl, rfl⟩ := satisfied_done.mp h'
      refine ⟨by rwa [List.append_nil, ← satisfied_settle ho], ?_⟩
      exact Cursor.lineContinues_eq_false_iff.mp (by simpa using hl)
  · rintro ⟨h, hl⟩
    refine ⟨ms, [], d, (satisfied_settle ho).mpr h, ?_, (List.append_nil ms).symm⟩
    rw [if_neg (by simp [Cursor.lineContinues_eq_false_iff.mpr hl])]
    exact satisfied_done.mpr ⟨rfl, rfl⟩

end Step

namespace Command

/-- A command is read without an error just where it is accepted, if this holds of the commands
inside it. -/
theorem satisfied_closeCommand_body {nested : Cursor → Step} {P : Passage}
    (hn : P.ReadBy version nested) :
    (body version nested c).closeCommand.Satisfied ms d ↔ AcceptsWith version P c ms d := by
  rw [Step.satisfied_closeCommand (outspoken_body hn.outspoken c)]
  unfold body
  constructor
  · rintro ⟨h, hl⟩
    split at h
    · exact absurd h Step.not_satisfied_errorThen
    next typed e hw =>
    simp only at h
    split at h
    · exact absurd h Step.not_satisfied_errorThen
    next rule hr =>
    have hahead := Reader.ahead_word hw
    rw [Step.keyword_ahead hahead, Step.satisfied_andThen_of_marks rfl] at h
    obtain ⟨_, ⟨-, -, -, rfl⟩, h⟩ := h
    exact .intro hw hr
      ((Rule.satisfied_run hn (Rule.wellFormed_command? hr) (by simp)).mp h) hl
  · rintro ⟨hw, hr, h, hl⟩
    refine ⟨?_, hl⟩
    simp only [hw, hr]
    exact (Step.satisfied_keyword (Reader.ahead_word hw)).andThen
      ((Rule.satisfied_run hn (Rule.wellFormed_command? hr) (by simp)).mpr h)

theorem readBy_inner (levels : Nat) :
    (Accepts version levels).ReadBy version (inner version levels) where
  satisfied {c ms d} := by
    induction levels generalizing c ms d with
    | zero =>
      refine iff_of_false (fun h => ?_) id
      have ho := h.outcome
      simp [inner, tooDeep_eq] at ho
    | succ levels ih =>
      rw [inner, read_eq_body]
      exact satisfied_closeCommand_body ⟨ih, sound_inner levels, outspoken_inner levels⟩
  sound := sound_inner levels
  outspoken := outspoken_inner levels

end Command
end BedrockCommand
