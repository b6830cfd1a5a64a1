import BedrockCommand.Proofs.Command.Nesting
import BedrockCommand.Proofs.Json.Nesting
import BedrockCommand.Proofs.Tokenize.Reread
/-!
How deep commands lie in each other in a text. No line has more than so many commands, the one that
would be too many is an error up to the end of the line, and behind every line the counter of
commands is back at zero.
-/
namespace BedrockCommand

variable {version : Version} {c : Cursor}

/-! ## How many commands there are -/

namespace Command

/-- So many levels have as many keywords at most. -/
theorem length_commands_inner (levels : Nat) (c : Cursor) :
    (Event.commands (inner version levels c).events).length ≤ levels := by
  induction levels generalizing c with
  | zero =>
    rw [inner, tooDeep_eq]
    exact Nat.le_refl 0
  | succ levels ih =>
    rw [inner, read_eq_body]
    cases reports_closeCommand_body (sound_inner levels) (line_inner levels) c with
    | plain h =>
      rw [Event.commands_of_plain h]
      exact Nat.zero_le _
    | @keyword _ n t own d s _ _ _ ho hs he =>
      have hone : (Event.commands [.notice n, .token t]).length ≤ 1 := List.length_filter_le ..
      have hrest : (Event.commands s.events).length ≤ levels := by
        cases hs with
        | nothing h =>
          rw [Event.commands_of_plain h]
          exact Nat.zero_le _
        | last _ ho' he' _ =>
          rw [he', Event.commands_append, Event.commands_of_plain ho', List.nil_append]
          exact ih _
      have hsplit : (body version (inner version levels) c).closeCommand.events =
          [.notice n, .token t] ++ (own ++ s.events) := he
      rw [hsplit, Event.commands_append, Event.commands_append, Event.commands_of_plain ho,
        List.nil_append, List.length_append]
      omega

end Command

theorem isPlain_readComment (c : Cursor) : (readComment c).Only Event.IsPlain :=
  .token (fun _ hk _ => by obtain rfl := Option.some.inj hk; simp [Event.IsPlain]) (by simp) _ _

/-- A line has at most one command more than may lie in each other. -/
theorem length_commands_readLine (version : Version) (c : Cursor) :
    (Event.commands (readLine version c).events).length ≤ maxNesting + 1 := by
  unfold readLine
  simp only
  split
  · exact Nat.zero_le _
  split
  · rw [Event.commands_of_plain (isPlain_readComment _)]
    exact Nat.zero_le _
  split
  · exact Nat.zero_le _
  · exact Command.length_commands_inner (maxNesting + 1) _

/-- The tokens of commands among those on one line. -/
theorem length_commands_line (events : List Event) (line : Nat) :
    ((Tokenized.ofEvents events).tokens.filter
      fun t => t.kind = .command && t.span.start.line = line).length ≤
        (Event.commands events).length := by
  have hsub : ((Tokenized.ofEvents events).tokens.filter
      fun t => t.kind = .command && t.span.start.line = line).Sublist (Event.commands events) :=
    List.monotone_filter_right _ fun t ht => (Bool.and_eq_true_iff.mp ht).1
  exact hsub.length_le

/-- Tokens on other lines are none of a line. -/
theorem filter_line_eq_nil {events : List Event} {P : Nat → Prop} {line : Nat}
    (h : ∀ e ∈ events, e.OnLines P) (hline : ¬ P line) :
    ((Tokenized.ofEvents events).tokens.filter
      fun t => t.kind = .command && t.span.start.line = line) = [] := by
  refine List.filter_eq_nil_iff.mpr fun t ht => ?_
  have hP : P t.span.start.line := h _ (Tokenized.mem_tokens.mp ht)
  have hne : t.span.start.line ≠ line := fun heq => hline (heq ▸ hP)
  simp [hne]

theorem length_commands_linesEvents (cs : List Char) (p : Position) (line : Nat) :
    ((Tokenized.ofEvents (linesEvents version (splitLines cs) p)).tokens.filter
      fun t => t.kind = .command && t.span.start.line = line).length ≤ maxNesting + 1 := by
  have hfirst (first : List Char) (p : Position) := (length_commands_line _ line).trans
    (length_commands_readLine version ⟨first, p⟩)
  induction cs using lines_induction generalizing p with
  | last first hl =>
    rw [splitLines_line hl, linesEvents, linesEvents, List.append_nil]
    exact hfirst first p
  | more first below hl ih =>
    rw [splitLines_line_append hl, linesEvents, Tokenized.tokens_append, List.filter_append]
    by_cases hline : line = p.line
    · rw [filter_line_eq_nil (onLines_linesEvents below _) (by simp [hline]), List.append_nil]
      exact hfirst first p
    · rw [filter_line_eq_nil (onLines_readLine hl p) hline, List.nil_append]
      exact ih _

/-! ## The counter -/

/-- One round of reading a text, with the counter. -/
def Counted.readLine (version : Version) : Counting := fun n c =>
  let c := c.skipSpaces
  if c.atEnd then .of (.done c) n
  else if c.isAt '#' then .of (readComment c) n
  else if c.isAt '\n' then .of (.done c.advance) n
  else Command.countOutermost version n c

/-- Reads to the end of a text, with the counter. -/
def Counted.readLines (version : Version) : Nat → Counting
  | 0, n, c => .of (.fail .endless c) n
  | fuel + 1, n, c =>
    if c.atEnd then .of (.done c) n
    else (Counted.readLine version n c).andThen (Counted.readLines version fuel)

/-- Reads a text, with the counter, which is zero at the start. -/
def Counted.readText (text : String) (start : Position) (version : Version) : Counted :=
  Counted.readLines version (text.length + 1) 0 (.ofText text start)

theorem tracks_readLine (version : Version) (c : Cursor) :
    Counted.Tracks (Call.Counts (Command.inner version) 0) 0 (readLine version c)
      (Counted.readLine version 0 c) := by
  unfold readLine Counted.readLine
  simp only
  split
  · exact .of _ 0
  split
  · exact .of _ 0
  split
  · exact .of _ 0
  · exact Command.tracks_countOutermost version _

theorem tracks_readLines (version : Version) (fuel : Nat) (c : Cursor) :
    Counted.Tracks (Call.Counts (Command.inner version) 0) 0 (readLines version fuel c)
      (Counted.readLines version fuel 0 c) := by
  induction fuel generalizing c with
  | zero => exact .of _ 0
  | succ fuel ih =>
    unfold readLines Counted.readLines
    split
    · exact .of _ 0
    · exact .andThen (Call.stable_counts _ 0) (tracks_readLine version c) ih

theorem behind_readLine (version : Version) (c : Cursor) :
    ∀ call ∈ (Counted.readLine version 0 c).calls, call.Behind 1 c := by
  unfold Counted.readLine
  simp only
  split
  · exact List.forall_mem_nil _
  split
  · exact List.forall_mem_nil _
  split
  · exact List.forall_mem_nil _
  · intro call hcall
    obtain ⟨ha, hc⟩ := Command.behind_countOutermost version _ call hcall
    exact ⟨c.ahead_skipSpaces.trans ha, hc⟩

/-! ## Where commands are too deep -/

/-- A call that is refused itself: what it reports begins with the error that the command is too
deep. Those inside a command that is read come behind a token of that command. -/
def Call.Refused (call : Call) : Prop :=
  ∃ t limit, call.step.tokens.head? = some t ∧ t.value = .error (.nestingTooDeep limit)

namespace Command

/-- A command that is read begins with its keyword or with an error about it. -/
theorem head?_tokens_read (version : Version) (levels : Nat) (c : Cursor) :
    ∃ t ts, (read version levels c).tokens = t :: ts ∧
      ∀ limit, t.value ≠ .error (.nestingTooDeep limit) := by
  have hsweep (e : SyntaxError) (he : ∀ limit, e ≠ .nestingTooDeep limit) :
      ∃ t ts, ((Step.sweep e c).andThen .halt).closeCommand.tokens = t :: ts ∧
        ∀ limit, t.value ≠ .error (.nestingTooDeep limit) := by
    rw [Step.sweep_eq, closeCommand_andThen rfl]
    exact ⟨_, _, rfl, by simpa using he⟩
  rw [read_eq_body]
  unfold body
  split
  · exact hsweep _ (by simp)
  next typed d hw =>
  simp only
  split
  · exact hsweep _ (by simp)
  next rule hr =>
  rw [Step.keyword_ahead (Reader.ahead_word hw), closeCommand_andThen rfl]
  exact ⟨_, _, rfl, by simp⟩

end Command

/-- A call is refused just where no levels are left. -/
theorem Call.refused_iff {call : Call} {levels : Nat}
    (h : call.step = Command.inner version levels call.place) : call.Refused ↔ levels = 0 := by
  unfold Refused
  rw [h]
  cases levels with
  | zero =>
    rw [Command.inner, Command.tooDeep_eq]
    exact iff_of_true ⟨_, _, rfl, rfl⟩ rfl
  | succ levels =>
    obtain ⟨t, ts, ht, hn⟩ := Command.head?_tokens_read version levels call.place
    refine iff_of_false ?_ (Nat.succ_ne_zero _)
    rintro ⟨u, limit, hu, hv⟩
    rw [Command.inner, ht] at hu
    obtain rfl := Option.some.inj hu
    exact hn limit hv

/-- A call on a line: how deep it is, what is in front of it, and whether it is refused. -/
theorem call_readLine {version : Version} {c : Cursor} {call : Call}
    (h : call ∈ (Counted.readLine version 0 c).calls) :
    call.depth = call.around.length ∧
      (∀ t ∈ Event.commands call.front, t.value = .command "execute") ∧
      (Event.commands call.front).length = call.depth + 1 ∧
      (call.Refused ↔ (Event.commands call.front).length = maxNesting + 1) ∧
      (call.Refused → call.step.tokens = [⟨.error, .error (.nestingTooDeep maxNesting),
        ⟨call.place.position, c.toLineEnd.position⟩⟩]) := by
  obtain ⟨hdepth, hle, hstep⟩ := (tracks_readLine version c).calls call h
  obtain ⟨hahead, hcommands⟩ := behind_readLine version c call h
  rw [Nat.zero_add] at hdepth
  rw [← hdepth] at hcommands
  have hlength : (Event.commands call.front).length = call.depth + 1 := by
    simpa using congrArg List.length hcommands
  have hrefused := Call.refused_iff hstep
  refine ⟨hdepth, fun t ht => ?_, hlength, ?_, fun hr => ?_⟩
  · exact List.eq_of_mem_replicate (hcommands ▸ List.mem_map_of_mem ht)
  · rw [hrefused, hlength]
    omega
  · rw [hstep, hrefused.mp hr, Command.inner, Command.tooDeep_eq, hahead.toLineEnd_eq]
    rfl

/-- How deep commands and JSON values may lie in others. A line has at most one command more than
may lie in each other. With the counter, which is zero again behind every line whatever became of
it, a line is read as without it; a call inside it has the keywords of those around it in front, all
of them `execute`, and is refused just where they are as many as there may be, by one error up to
the end of the line. In a JSON text, the counter is the number of counted containers around at every
call, and it is restored behind each of them, whether it is read or given up. -/
theorem nesting_capped :
    (∀ (version : Version) (text : String) (start : Position), ∃ result,
      tokenize text start version = .ok result ∧ ∀ line,
        (result.tokens.filter fun t =>
          t.kind = .command && t.span.start.line = line).length ≤ maxNesting + 1) ∧
    (∀ (version : Version) (c : Cursor),
      (Counted.readLine version 0 c).step = readLine version c ∧
      (Counted.readLine version 0 c).depth = 0 ∧
      ∀ call ∈ (Counted.readLine version 0 c).calls,
        call.front ++ call.step.events <+: (readLine version c).events ∧
        call.step = Command.inner version (maxNesting - call.depth) call.place ∧
        call.depth = call.around.length ∧
        (∀ t ∈ Event.commands call.front, t.value = .command "execute") ∧
        (Event.commands call.front).length = call.depth + 1 ∧
        (call.Refused ↔ (Event.commands call.front).length = maxNesting + 1) ∧
        (call.Refused → call.step.tokens = [⟨.error, .error (.nestingTooDeep maxNesting),
          ⟨call.place.position, c.toLineEnd.position⟩⟩])) ∧
    (∀ (version : Version) (text : String) (start : Position),
      (Counted.readText text start version).step = readText text start version ∧
      (Counted.readText text start version).depth = 0) ∧
    (∀ (dialect : JsonDialect) (shape : JsonShape) (env : Env) (c : Cursor),
      (countJson dialect shape 0 c).step = ((Rule.jsonText dialect shape).run env c).whole ∧
      (countJson dialect shape 0 c).depth = 0 ∧
      ∀ call ∈ (countJson dialect shape 0 c).calls,
        call.front ++ call.step.events <+: (countJson dialect shape 0 c).step.events ∧
        call.step = Rule.runContainer dialect (maxNesting - call.depth) call.place ∧
        call.depth = call.around.length) ∧
    ∀ (dialect : JsonDialect) (n : Nat), n ≤ maxNesting → ∀ c : Cursor,
      (countContainer dialect (maxNesting + 1) n c).step =
        Rule.runContainer dialect (maxNesting - n) c ∧
      (countContainer dialect (maxNesting + 1) n c).depth = n := by
  refine ⟨fun version text start => ⟨_, tokenize_eq text start version, fun line => ?_⟩,
    fun version c => ?_, fun version text start => ?_, fun dialect shape env c => ?_,
    fun dialect n hle c => ?_⟩
  · rw [events_readText]
    exact length_commands_linesEvents _ _ line
  · have htracks := tracks_readLine version c
    refine ⟨htracks.step, htracks.depth, fun call hcall => ⟨?_, ?_, call_readLine hcall⟩⟩
    · exact htracks.step ▸ htracks.placed call hcall
    · exact (htracks.calls call hcall).step
  · have htracks := tracks_readLines version (text.length + 1) (.ofText text start)
    exact ⟨htracks.step, htracks.depth⟩
  · have htracks := tracks_countJson dialect shape env c
    refine ⟨htracks.step, htracks.depth, fun call hcall => ⟨htracks.placed call hcall, ?_, ?_⟩⟩
    · exact (htracks.calls call hcall).step
    · exact (htracks.calls call hcall).depth.trans (Nat.zero_add _)
  · have hfuel : maxNesting < n + (maxNesting + 1) := by omega
    have htracks := tracks_countContainer dialect hle hfuel c
    exact ⟨htracks.step, htracks.depth⟩

/-- Where `execute` stands one time more than commands may lie in each other, the command behind it
is refused. The inner one of two arrays in each other is the second one that is counted. -/
theorem nesting_capped_execute :
    (∃ call ∈ (Counted.readLine .latest 0
        ⟨(List.replicate 65 "execute run ".toList).flatten ++ "list".toList, ⟨0, 0⟩⟩).calls,
      call.Refused) ∧
    (∃ call ∈ (countJson .strict .any 0 (.ofText "[[1]]" ⟨0, 0⟩)).calls,
      call.depth = 1 ∧ call.around.length = 1) ∧
    (countContainer .strict (maxNesting + 1) 64 (.ofText "[[1]]" ⟨0, 0⟩)).depth = 64 := by
  obtain ⟨-, hline, -, hjson, hcontainer⟩ := nesting_capped
  have hdeep : ∃ call ∈ (Counted.readLine .latest 0
      ⟨(List.replicate 65 "execute run ".toList).flatten ++ "list".toList, ⟨0, 0⟩⟩).calls,
      (Event.commands call.front).length = maxNesting + 1 := by decide +kernel
  have harray : ∃ call ∈ (countJson .strict .any 0 (.ofText "[[1]]" ⟨0, 0⟩)).calls,
      call.depth = 1 := by decide +kernel
  refine ⟨?_, ?_, (hcontainer _ _ (by decide) _).2⟩
  · obtain ⟨call, hcall, hlength⟩ := hdeep
    obtain ⟨-, -, hcalls⟩ := hline .latest
      ⟨(List.replicate 65 "execute run ".toList).flatten ++ "list".toList, ⟨0, 0⟩⟩
    obtain ⟨-, -, -, -, -, hrefused, -⟩ := hcalls call hcall
    exact ⟨call, hcall, hrefused.mpr hlength⟩
  · obtain ⟨call, hcall, hdepth⟩ := harray
    obtain ⟨-, -, hcalls⟩ := hjson .strict .any ⟨⟨none, []⟩, Step.done⟩ (.ofText "[[1]]" ⟨0, 0⟩)
    exact ⟨call, hcall, hdepth, (hcalls call hcall).2.2.symm.trans hdepth⟩

end BedrockCommand
