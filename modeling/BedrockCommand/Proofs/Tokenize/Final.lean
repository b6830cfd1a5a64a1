import BedrockCommand.Proofs.Grammar.Final
import BedrockCommand.Proofs.Tokenize.Reread
/-!
An error that gives up on its line is the last token of the line, however deep it occurs in lists,
in JSON texts and in commands inside commands.
-/
namespace BedrockCommand

variable {version : Version} {c : Cursor}

theorem Step.Concludes.closeCommand {s : Step} (hs : s.Concludes False) :
    s.closeCommand.Concludes False := by
  rcases id hs with hq | ⟨-, hl, -⟩
  · have hsettle : s.settle.Quiet := by rwa [Quiet, tokens_settle]
    refine hsettle.andThen ?_
    split
    · exact sweep _ _
    · exact done _
  · -- Nothing is left of the line, so that there are not too many arguments on it.
    have hend : ¬ s.settle.cursor.lineContinues = true := by
      rw [cursor_settle, Cursor.lineContinues_eq_false_iff.mpr hl]
      simp
    refine hs.settle.andThen_silent ?_ ?_
    all_goals rw [if_neg hend]; rfl

namespace Command

theorem concludes_tooDeep (c : Cursor) : (tooDeep c).Concludes True := by
  have hnotice : (Step.report (.notice (.commandTooDeep c.position maxNesting)) c).Quiet := by
    simp [Step.Quiet, Step.tokens, Step.report]
  exact hnotice.andThen (.sweepHalt _ _)

theorem concludes_body {nested : Cursor → Step} (hs : ∀ d, (nested d).Sound version d)
    (hn : ∀ d, (nested d).Concludes False ∧ (nested d).cursor.line = []) (c : Cursor) :
    (body version nested c).Concludes False := by
  unfold body
  split
  · exact (Step.Concludes.sweepHalt _ c).mono
  · next typed d hw =>
    simp only
    split
    · exact (Step.Concludes.sweepHalt _ c).mono
    · next rule hr =>
      have hkeyword : (Step.keyword (Grammar.canonicalName typed) typed c d).Quiet := by
        rw [Step.keyword_ahead (Reader.ahead_word hw)]
        simp [Step.Quiet, Step.tokens, Token.isFinal, Token.error?]
      exact hkeyword.andThen (Rule.concludes_command hr hs hn _)

theorem concludes_read (depth : Nat) (c : Cursor) : (read version depth c).Concludes False := by
  -- One level further down, a nested command is the command of the depth before.
  induction depth generalizing c with
  | zero =>
    have hends (d : Cursor) : (tooDeep d).cursor.line = [] := by
      rw [tooDeep_eq]
      exact d.line_toLineEnd
    exact (concludes_body sound_tooDeep (fun d => ⟨(concludes_tooDeep d).mono, hends d⟩)
      c).closeCommand
  | succ depth ih =>
    exact (concludes_body (sound_read depth) (fun d => ⟨ih d, (read_ends depth d).2⟩)
      c).closeCommand

end Command

theorem concludes_readLine (version : Version) (c : Cursor) :
    (readLine version c).Concludes False := by
  unfold readLine
  simp only
  split
  · exact .done _
  split
  · exact .inl (.token fun _ h => by simp at h)
  split
  · exact .done _
  · exact Command.concludes_read maxNesting _

/-- Behind a token that gives up on its line, there are only tokens on later lines. -/
def Token.LeavesLine (t u : Token) : Prop :=
  t.isFinal = true → t.span.start.line < u.span.start.line

theorem Step.Concludes.pairwise {s : Step} (h : s.Concludes False) :
    s.tokens.Pairwise Token.LeavesLine := by
  have hquiet {ts : List Token} (h : ∀ t ∈ ts, t.isFinal = false) :
      ts.Pairwise Token.LeavesLine :=
    List.pairwise_of_forall_mem_list fun t ht u _ hf => by simp [h t ht] at hf
  rcases h with hq | ⟨⟨before, t, ht, hb⟩, -⟩
  · exact hquiet hq
  · rw [ht]
    refine List.pairwise_append.mpr ⟨hquiet hb, List.pairwise_singleton .., fun u hu _ _ hf => ?_⟩
    simp [hb u hu] at hf

theorem pairwise_linesEvents (cs : List Char) (p : Position) :
    (Tokenized.ofEvents (linesEvents version (splitLines cs) p)).tokens.Pairwise
      Token.LeavesLine := by
  have hline (line : List Char) (p : Position) :
      (readLine version ⟨line, p⟩).tokens.Pairwise Token.LeavesLine :=
    (concludes_readLine version ⟨line, p⟩).pairwise
  induction cs using lines_induction generalizing p with
  | last line hl =>
    rw [splitLines_line hl, linesEvents, linesEvents, List.append_nil]
    exact hline line p
  | more line below hl ih =>
    rw [splitLines_line_append hl, linesEvents, Tokenized.tokens_append]
    refine List.pairwise_append.mpr ⟨hline line p, ih _, fun t ht u hu _ => ?_⟩
    have hfirst := onLines_readLine hl p _ (Tokenized.mem_tokens.mp ht)
    have hbelow := onLines_linesEvents below _ _ (Tokenized.mem_tokens.mp hu)
    exact Nat.lt_of_le_of_lt (Nat.le_of_eq hfirst) hbelow

/-- Of the tokens of one line, at most one gives up on the line. -/
theorem length_filter_isFinal_le_one {ts : List Token} (h : ts.Pairwise Token.LeavesLine)
    (line : Nat) :
    (ts.filter fun t => t.isFinal && t.span.start.line = line).length ≤ 1 := by
  induction h with
  | nil => simp
  | @cons t ts ht _ ih =>
    rw [List.filter_cons]
    split
    · next hf =>
      obtain ⟨hfinal, hline⟩ : t.isFinal = true ∧ t.span.start.line = line := by simpa using hf
      have hnone : ts.filter (fun t => t.isFinal && t.span.start.line = line) = [] := by
        refine List.filter_eq_nil_iff.mpr fun u hu => ?_
        have hlt := ht u hu hfinal
        simp only [Bool.and_eq_true, decide_eq_true_eq, not_and]
        omega
      simp [hnone]
    · exact ih

/-- Errors that give up on a line do not cascade. Behind such an error no token starts on its line,
so that a line has at most one of them, whatever is open where it occurs. -/
theorem tokenize_final (text : String) (start : Position) (version : Version) :
    ∃ result, tokenize text start version = .ok result ∧
      (∀ before t after, result.tokens = before ++ t :: after → t.isFinal = true →
        ∀ u ∈ after, t.span.start.line < u.span.start.line) ∧
      ∀ line, (result.tokens.filter fun t => t.isFinal && t.span.start.line = line).length ≤ 1 := by
  have hpairwise := @pairwise_linesEvents version text.toList start
  rw [← events_readText] at hpairwise
  refine ⟨_, tokenize_eq text start version, fun before t after h hf u hu => ?_,
    length_filter_isFinal_le_one hpairwise⟩
  rw [h] at hpairwise
  exact List.rel_of_pairwise_cons (List.pairwise_append.mp hpairwise).2.1 hu hf

end BedrockCommand
