import BedrockCommand.CommandLine.Run
import BedrockCommand.Proofs.Command.Accepts
import BedrockCommand.Proofs.Json.Text
import BedrockCommand.Proofs.Tokenize.Reread
/-!
Lines that are accepted: a line without an error is blank, or a comment, or a command that the
grammar accepts as a whole, and a file without errors has only such lines.
-/
namespace BedrockCommand

variable {version : Version}

/-- Where a line of a text stands, if the text starts at a position. -/
def Position.ofLine (start : Position) : Nat → Position
  | 0 => start
  | i + 1 => ⟨start.line + (i + 1), 0⟩

theorem Position.line_ofLine (start : Position) (i : Nat) :
    (start.ofLine i).line = start.line + i := by
  cases i <;> rfl

theorem Position.ofLine_succ (start : Position) (i : Nat) :
    start.ofLine (i + 1) = Position.ofLine ⟨start.line + 1, 0⟩ i := by
  cases i with
  | zero => rfl
  | succ i => simp only [ofLine, Position.mk.injEq, and_true]; omega

/-- Lines that are blank, comments, or commands of the version as a whole. -/
inductive AcceptsLine (version : Version) (c : Cursor) : Prop where
  | blank (h : c.skipSpaces.line = [])
  | comment (h : c.skipSpaces.isAt '#' = true)
  | command {ms : List String} {d : Cursor}
    (h : Command.Accepts version (maxNesting + 1) c.skipSpaces ms d)

/-- A line is read without an error just where it is accepted. -/
theorem clean_readLine (c : Cursor) :
    (readLine version c).Only Event.IsClean ↔ AcceptsLine version c := by
  by_cases hl : c.skipSpaces.line = []
  · refine iff_of_true (fun e he => ?_) (.blank hl)
    simp [events_readLine_of_line_eq_nil hl] at he
  rw [readLine_of_line hl]
  split
  · next hc =>
    refine iff_of_true (fun e he => ?_) (.comment hc)
    rw [readComment_eq] at he
    obtain rfl := List.mem_singleton.mp he
    exact fun hk : TokenKind.comment = .error => by simp at hk
  · next hc =>
    have hread : (Command.Accepts version (maxNesting + 1)).ReadBy version _ :=
      Command.readBy_inner (maxNesting + 1)
    constructor
    · intro h
      have hclean : (Command.inner version (maxNesting + 1) c.skipSpaces).Clean :=
        ⟨(hread.sound _).faultless, h⟩
      exact .command (hread.satisfied.mp (hclean.satisfied (hread.outspoken _)))
    · intro h
      cases h with
      | blank h => exact absurd h hl
      | comment h => exact absurd h hc
      | command h => exact (hread.satisfied.mpr h).clean.only

/-! ## The lines of a text -/

theorem newline_notMem_of_mem_splitLines {cs line : List Char} (h : line ∈ splitLines cs) :
    '\n' ∉ line := by
  induction cs using lines_induction with
  | last first hl =>
    rw [splitLines_line hl] at h
    exact List.mem_singleton.mp h ▸ hl
  | more first below hl ih =>
    rw [splitLines_line_append hl] at h
    rcases List.mem_cons.mp h with rfl | h
    · exact hl
    · exact ih h

/-- What is reported about some lines is reported about one of them. -/
theorem mem_linesEvents {lines : List (List Char)} {p : Position} {e : Event} :
    e ∈ linesEvents version lines p ↔
      ∃ i line, lines[i]? = some line ∧ e ∈ (readLine version ⟨line, p.ofLine i⟩).events := by
  induction lines generalizing p with
  | nil => simp [linesEvents]
  | cons first lines ih =>
    rw [linesEvents, List.mem_append, ih]
    constructor
    · rintro (h | ⟨i, line, hi, h⟩)
      · exact ⟨0, first, rfl, h⟩
      · exact ⟨i + 1, line, hi, p.ofLine_succ i ▸ h⟩
    · rintro ⟨i, line, hi, h⟩
      cases i with
      | zero =>
        obtain rfl := Option.some.inj hi
        exact .inl h
      | succ i => exact .inr ⟨i, line, hi, p.ofLine_succ i ▸ h⟩

/-- The tokens of a text that stand on one of its lines are those of the line. -/
theorem mem_tokens_of_line {cs line : List Char} {p : Position} {i : Nat} {t : Token}
    (hi : (splitLines cs)[i]? = some line) :
    .token t ∈ (readLine version ⟨line, p.ofLine i⟩).events ↔
      .token t ∈ linesEvents version (splitLines cs) p ∧ t.span.start.line = p.line + i := by
  have honLine {j : Nat} {line' : List Char} (hj : (splitLines cs)[j]? = some line')
      (ht : .token t ∈ (readLine version ⟨line', p.ofLine j⟩).events) :
      t.span.start.line = p.line + j := by
    have hl := newline_notMem_of_mem_splitLines (List.mem_of_getElem? hj)
    exact (onLines_readLine hl _ _ ht).trans (p.line_ofLine j)
  rw [mem_linesEvents]
  constructor
  · exact fun h => ⟨⟨i, line, hi, h⟩, honLine hi h⟩
  · rintro ⟨⟨j, line', hj, h⟩, ht⟩
    obtain rfl : j = i := Nat.add_left_cancel ((honLine hj h).symm.trans ht)
    obtain rfl := Option.some.inj (hj.symm.trans hi)
    exact h

theorem only_isClean_iff {s : Step} :
    s.Only Event.IsClean ↔ ∀ t, .token t ∈ s.events → t.isError = false := by
  constructor
  · exact fun h t ht => by simpa [Token.isError, Event.IsClean] using h _ ht
  · intro h e he
    cases e with
    | token t => simpa [Token.isError, Event.IsClean] using h t he
    | warning | notice | json => trivial

/-- The tokens on a line are free of errors just where the line is accepted. -/
theorem acceptsLine_iff {text : String} {start : Position} {result : Tokenized}
    (h : tokenize text start version = .ok result) {i : Nat} {line : List Char}
    (hi : (splitLines text.toList)[i]? = some line) :
    (∀ t ∈ result.tokens, t.span.start.line = start.line + i → t.isError = false) ↔
      AcceptsLine version ⟨line, start.ofLine i⟩ := by
  rw [tokenize_eq, events_readText] at h
  obtain rfl := Except.ok.inj h
  rw [← clean_readLine, only_isClean_iff]
  refine forall_congr' fun t => ?_
  rw [mem_tokens_of_line hi, Tokenized.mem_tokens, and_imp]

/-- A text is free of errors just where all its lines are accepted. -/
theorem hasErrors_eq_false_iff {text : String} {start : Position} {result : Tokenized}
    (h : tokenize text start version = .ok result) : result.hasErrors = false ↔
      ∀ i line, (splitLines text.toList)[i]? = some line →
        AcceptsLine version ⟨line, start.ofLine i⟩ := by
  rw [tokenize_eq, events_readText] at h
  obtain rfl := Except.ok.inj h
  rw [Tokenized.hasErrors_ofEvents]
  constructor
  · exact fun h i line hi =>
      (clean_readLine _).mp fun e he => h e (mem_linesEvents.mpr ⟨i, line, hi, he⟩)
  · intro h e he
    obtain ⟨i, line, hi, he⟩ := mem_linesEvents.mp he
    exact (clean_readLine _).mpr (h i line hi) e he

/-! ## Checks of a file -/

namespace CommandLine

/-- Whether a file is what is read at a path: the settings are those of the command line and the
profile, the text is what stands there, and the rest comes of tokenizing it. -/
structure LoadedFile.IsReadFrom (file : LoadedFile) (files : Files) (path : String)
    (o : Overrides) : Prop where
  settings : Settings.resolve files o = .ok file.settings
  text : sourceText files path = .ok file.text
  tokenized : tokenize file.text file.settings.start file.settings.version = .ok file.tokenized

theorem readFile_eq_ok_iff {files : Files} {path : String} {o : Overrides} {file : LoadedFile} :
    (readFile files path o).2 = .ok file ↔ file.IsReadFrom files path o := by
  unfold readFile
  constructor
  · intro h
    split at h
    · simp at h
    next s hs =>
    split at h
    · simp at h
    next text htext =>
    split at h
    · simp at h
    next t ht =>
    obtain rfl := Except.ok.inj h
    exact ⟨hs, htext, ht⟩
  · rintro ⟨hs, htext, ht⟩
    simp only [hs, htext, ht]

theorem code_checkResult (file : LoadedFile) (focus : Option Nat) (format : OutputFormat) :
    (file.checkResult focus format).code = if file.tokenized.hasErrors then 1 else 0 := by
  cases format <;> rfl

theorem code_failure (e : Failure) (format : OutputFormat) : (e.result format).code = 1 := by
  cases format <;> rfl

/-- A check succeeds just with a file that is read and has no errors. -/
theorem code_check_eq_zero_iff {path : String} {o : Overrides} {focus : Option Nat}
    {format : OutputFormat} {verbose : Bool} {files : Files} :
    (Request.result ⟨.check path o focus, format, verbose⟩ files).code = 0 ↔
      ∃ file : LoadedFile, file.IsReadFrom files path o ∧ file.tokenized.hasErrors = false := by
  simp only [Request.result, Request.afterReading, ← readFile_eq_ok_iff]
  rcases readFile files path o with ⟨log, e | file⟩
  · simp [code_failure]
  · simp [code_checkResult]

end CommandLine

/-- No rule fails in silence: a rule that gives up has reported an error, with commands inside it
or without, and so have a command and the rule of one. So the tokens on a line are free of errors
just where the line is accepted, which is where its command is read to the end of the line by rules
that are all satisfied, and a check succeeds just with a file of which every line is accepted. -/
theorem outspoken_and_accepted :
    (∀ (d : Dialect) (r : Rule) (c : Cursor), (r.run ⟨d, Step.done⟩ c).Outspoken) ∧
    (∀ (version : Version) (levels : Nat) (c : Cursor),
      (Command.inner version levels c).Outspoken ∧
      (Command.body version (Command.inner version levels) c).Outspoken ∧
      ∀ r : Rule, (r.run ⟨Grammar.dialect version, Command.inner version levels⟩ c).Outspoken) ∧
    (∀ (version : Version) (levels : Nat) (name : String) (r : Rule),
      Grammar.command? name version = some r → ∀ c ms d,
        (r.run ⟨Grammar.dialect version, Command.inner version levels⟩ c).Satisfied ms d ↔
          r.Accepts (Grammar.dialect version) (Command.Accepts version levels) c ms d) ∧
    (∀ (version : Version) (text : String) (start : Position) (result : Tokenized),
      tokenize text start version = .ok result →
        ∀ i line, (splitLines text.toList)[i]? = some line →
          ((∀ t ∈ result.tokens, t.span.start.line = start.line + i → t.isError = false) ↔
            AcceptsLine version ⟨line, start.ofLine i⟩)) ∧
    ∀ (path : String) (o : CommandLine.Overrides) (focus : Option Nat)
      (format : CommandLine.OutputFormat) (verbose : Bool) (files : CommandLine.Files),
      (CommandLine.Request.result ⟨.check path o focus, format, verbose⟩ files).code = 0 ↔
        ∃ file : CommandLine.LoadedFile, file.IsReadFrom files path o ∧
          ∀ i line, (splitLines file.text.toList)[i]? = some line →
            AcceptsLine file.settings.version ⟨line, file.settings.start.ofLine i⟩ := by
  refine ⟨fun d r => Rule.outspoken_run (fun c => .done c) r,
    fun version levels c => ⟨Command.outspoken_inner levels c,
      Command.outspoken_body (Command.outspoken_inner levels) c,
      fun r => Rule.outspoken_run (Command.outspoken_inner levels) r c⟩,
    fun version levels name r hr c ms d =>
      Rule.satisfied_run (Command.readBy_inner levels) (Rule.wellFormed_command? hr) (by simp),
    fun version text start result h i line hi => acceptsLine_iff h hi, ?_⟩
  intro path o focus format verbose files
  rw [CommandLine.code_check_eq_zero_iff]
  exact exists_congr fun file => and_congr_right fun hfile => hasErrors_eq_false_iff hfile.tokenized

/-- The list of players is a whole command. Behind a name that no command has, nothing is
accepted. -/
theorem outspoken_and_accepted_list :
    (∃ r, Grammar.command? "list" .latest = some r ∧ r.Accepts (Grammar.dialect .latest)
      (Command.Accepts .latest 1) ⟨[], ⟨0, 4⟩⟩ [] ⟨[], ⟨0, 4⟩⟩) ∧
    AcceptsLine .latest ⟨"list".toList, ⟨0, 0⟩⟩ ∧
    ¬ AcceptsLine .latest ⟨"lost".toList, ⟨1, 0⟩⟩ := by
  obtain ⟨-, -, hrule, hline, -⟩ := outspoken_and_accepted
  have hresult : tokenize "list\nlost" ⟨0, 0⟩ .latest = .ok
      ⟨[⟨.command, .command "list", ⟨⟨0, 0⟩, ⟨0, 4⟩⟩⟩,
        ⟨.error, .error (.unknownCommand "lost"), ⟨⟨1, 0⟩, ⟨1, 4⟩⟩⟩], [],
        [.commandRead ⟨⟨0, 0⟩, ⟨0, 4⟩⟩ "list" "list"]⟩ := by rfl
  have hlist : Grammar.command? "list" .latest = some .done := by rfl
  refine ⟨⟨_, hlist, (hrule .latest 1 "list" _ hlist _ _ _).mp ?_⟩,
    (hline _ _ _ _ hresult 0 _ rfl).mp ?_, fun h => ?_⟩
  · exact Step.satisfied_done.mpr ⟨rfl, rfl⟩
  · decide
  · have := (hline _ _ _ _ hresult 1 _ rfl).mpr h
    exact absurd this (by decide)
end BedrockCommand
