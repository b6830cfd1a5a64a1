import BedrockCommand.Proofs.Grammar.Chain
import BedrockCommand.Proofs.Tokenize.Accepted
/-!
`execute` in texts: wherever its keyword is read on a line without errors, at whatever depth, the
rest of the line is a chain of complete clauses.
-/
namespace BedrockCommand

variable {version : Version} {c d e : Cursor} {t : Token} {front back : List Event}

namespace Command

/-- What is read of a command begins with its keyword. -/
theorem events_read (levels : Nat) {typed : String} {rule : Rule}
    (hw : Reader.word c = (.ok typed, d))
    (hr : Grammar.command? (Grammar.canonicalName typed) version = some rule) :
    ∃ n back, (read version levels c).events = .notice n :: .token ⟨.command,
      .command (Grammar.canonicalName typed), ⟨c.position, d.position⟩⟩ :: back := by
  rw [read_of_command hw hr levels, Step.keyword_ahead (Reader.ahead_word hw)]
  exact ⟨_, _, rfl⟩

/-- On a line without errors, a command is accepted from its keyword on. -/
theorem accepts_from_keyword {levels : Nat} (hk : t.kind = .command)
    (hclean : (read version levels c).Only Event.IsClean)
    (h : (read version levels c).events = front ++ .token t :: back) :
    ∃ d k typed e rule ms f, c.Ahead d ∧ t.span.start = d.position ∧ k ≤ levels ∧
      Reader.word d = (.ok typed, e) ∧ t.value = .command (Grammar.canonicalName typed) ∧
      Grammar.command? (Grammar.canonicalName typed) version = some rule ∧
      rule.Accepts (Grammar.dialect version) (Accepts version k) e ms f ∧ d.Ahead f ∧
      f.line = [] := by
  obtain ⟨own, n, d, k, typed, e, hle, rfl, hp, ht, hw, hread⟩ := readsFrom_read levels hk h
  have hinner : (inner version (k + 1) d).Clean := by
    refine ⟨(sound_inner (k + 1) d).faultless, fun e he => hclean e ?_⟩
    rw [inner, hread] at he
    rw [h]
    rcases List.mem_cons.mp he with rfl | he
    · simp
    · exact List.mem_append_right _ he
  have haccepted := (readBy_inner (k + 1)).satisfied.mp (hinner.satisfied (outspoken_inner _ d))
  have hahead := (readBy_inner (k + 1)).ahead haccepted
  obtain ⟨hword, hrule, haccepts, hl⟩ := haccepted
  obtain ⟨_, _, hevents⟩ := events_read k hword hrule
  obtain ⟨-, hback⟩ := List.cons.inj (hread.symm.trans hevents)
  obtain ⟨htoken, -⟩ := List.cons.inj hback
  obtain rfl := Event.token.inj htoken
  exact ⟨d, k, _, _, _, _, _, ht.ahead not_isStructural_newline, hp, hle, hword, rfl, hrule,
    haccepts, hahead, hl⟩

end Command

/-- From every keyword of `execute` on a line without errors, the rest of the line is a chain. -/
theorem acceptsChain_from_keyword (hv : Version.v1_19_50.atMost version = true) {text : String}
    {start : Position} {result : Tokenized} (h : tokenize text start version = .ok result)
    (ht : t ∈ result.tokens) (hk : t.kind = .command) (hx : t.value = .command "execute")
    (hclean : ∀ u ∈ result.tokens, u.span.start.line = t.span.start.line → u.isError = false) :
    ∃ above rest below levels typed d ms e, text.toList = above ++ rest ++ below ∧ '\n' ∉ rest ∧
      LineEnd below ∧ start.after above = t.span.start ∧ levels ≤ maxNesting ∧
      Reader.word ⟨rest, t.span.start⟩ = (.ok typed, d) ∧
      Grammar.canonicalName typed = "execute" ∧ Command.AcceptsChain version levels d ms e ∧
      e.rest = [] := by
  rw [tokenize_eq, events_readText] at h
  obtain rfl := Except.ok.inj h
  obtain ⟨front, back, hevents⟩ := List.append_of_mem (Tokenized.mem_tokens.mp ht)
  obtain ⟨above, line, below, earlier, front', back', later, hc, hl, hb, rfl, rfl, -, -, hread⟩ :=
    fromLine_linesEvents hevents
  have honLine : ∀ e ∈ (readLine version ⟨line, start.after above⟩).events, _ :=
    onLines_readLine hl (start.after above)
  have hline : t.span.start.line = (start.after above).line :=
    honLine (.token t) (hread ▸ List.mem_append_right _ (List.mem_cons_self ..))
  have honly : (readLine version ⟨line, start.after above⟩).Only Event.IsClean := by
    refine only_isClean_iff.mpr fun u hu => hclean u (Tokenized.mem_tokens.mpr ?_)
      ((honLine _ hu).trans hline.symm)
    rw [hread] at hu
    rw [hevents]
    simp only [List.mem_append, List.mem_cons] at hu ⊢
    tauto
  have hcommand := readLine_of_keyword hk (hread ▸ List.mem_append_right _ (List.mem_cons_self ..))
  rw [hcommand] at hread honly
  obtain ⟨d, k, typed, e, rule, ms, f, hahead, hp, hle, hword, hvalue, hrule, haccepts, hf, hend⟩ :=
    Command.accepts_from_keyword hk honly hread
  have hname : Grammar.canonicalName typed = "execute" :=
    (TokenValue.command.inj (hx.symm.trans hvalue)).symm
  rw [hname, Rule.command?_execute hv] at hrule
  obtain rfl := Option.some.inj hrule
  obtain ⟨cs, -, hr, hposition⟩ := (Cursor.ahead_skipSpaces _).trans hahead
  obtain rfl : line = cs ++ d.rest := hr
  have hrest : '\n' ∉ d.rest := fun h => hl (List.mem_append_right _ h)
  refine ⟨above ++ cs, d.rest, below, k, typed, e, ms, f, by rw [hc]; simp, hrest, hb, ?_, hle, ?_,
    hname, Command.acceptsChain_of_accepts haccepts, ?_⟩
  · rw [Position.after_append, hp, hposition]
  · rw [hp]
    exact hword
  · rw [← Cursor.line_eq_rest (hf.notMem hrest), hend]

/-- How `execute` ends. Where clauses are read, a command behind `run` comes last and takes all of
the line. If no clause gives up, the chain itself says, in no text at the end of the line, that the
last one is not `run`, `if` or `unless`, or that there is none, and if one does, it says neither. So
on a line without errors every `execute`, however deep it lies, has complete clauses behind it, of
which the last one runs a command or tests something. -/
theorem executeChain_ends (hv : Version.v1_19_50.atMost version = true) :
    Grammar.command? "execute" version = some .executeChain ∧
    (∀ levels c, ∃ ds own,
      Step.ReadsClauses (Rule.readExecuteClause (Rule.innerEnv version levels)) c ds ∧
      (Rule.executeChain.run (Rule.innerEnv version levels) c).events =
        (ds.flatMap fun d => (Rule.readExecuteClause (Rule.innerEnv version levels) d).events) ++
          own ∧
      (∀ before d after, ds = before ++ d :: after → Rule.executeKeyword? d = some "run" →
        after = [] ∧
          (Rule.readExecuteClause (Rule.innerEnv version levels) d).cursor.line = []) ∧
      ((∀ d ∈ ds,
          (Rule.readExecuteClause (Rule.innerEnv version levels) d).outcome ≠ .halted) →
        (Rule.errorAtEnd .wrongExecuteEnd c ∈ own ↔ ∃ d, ds.getLast? = some d ∧
          ∀ w ∈ ["run", "if", "unless"], Rule.executeKeyword? d ≠ some w) ∧
        (Rule.errorAtEnd .expectedSubcommand c ∈ own ↔ ds = []) ∧
        ∀ e ∈ own, e = Rule.errorAtEnd .wrongExecuteEnd c ∨
          e = Rule.errorAtEnd .expectedSubcommand c) ∧
      ((∃ d ∈ ds,
          (Rule.readExecuteClause (Rule.innerEnv version levels) d).outcome = .halted) →
        own = [])) ∧
    ∀ (text : String) (start : Position) (result : Tokenized),
      tokenize text start version = .ok result →
      ∀ t ∈ result.tokens, t.kind = .command → t.value = .command "execute" →
      (∀ u ∈ result.tokens, u.span.start.line = t.span.start.line → u.isError = false) →
      ∃ above rest below levels typed d ms e, text.toList = above ++ rest ++ below ∧
        '\n' ∉ rest ∧ LineEnd below ∧ start.after above = t.span.start ∧ levels ≤ maxNesting ∧
        Reader.word ⟨rest, t.span.start⟩ = (.ok typed, d) ∧
        Grammar.canonicalName typed = "execute" ∧ Command.AcceptsChain version levels d ms e ∧
        e.rest = [] := by
  refine ⟨Rule.command?_execute hv, fun levels c => ?_,
    fun text start result h t ht hk hx hclean => acceptsChain_from_keyword hv h ht hk hx hclean⟩
  obtain ⟨ds, hds⟩ := Rule.exists_readsClauses version levels c
  obtain ⟨own, hevents, hhalted, hdone⟩ := Rule.exists_own_executeChain hds
  refine ⟨ds, own, hds, hevents, fun before d after hsplit hw =>
    ⟨Rule.eq_nil_of_run hds hsplit hw, Rule.line_executeClause_run hw⟩, fun hn => ?_, hhalted⟩
  have hne : Rule.errorAtEnd .wrongExecuteEnd c ≠ Rule.errorAtEnd .expectedSubcommand c := by
    simp [Rule.errorAtEnd]
  rcases hdone hn with ⟨rfl, rfl⟩ | ⟨d, w, hlast, hw, rfl⟩
  · simp [hne]
  · have hsome : ds ≠ [] := fun h => by simp [h] at hlast
    by_cases hfinal : w ∈ Rule.finalClauses
    · have hmem : w ∈ ["run", "if", "unless"] := hfinal
      refine ⟨iff_of_false (by simp [hfinal]) ?_, by simp [hfinal, hsome], by simp [hfinal]⟩
      rintro ⟨d', hd', hnone⟩
      obtain rfl := Option.some.inj (hlast.symm.trans hd')
      exact hnone w hmem hw
    · refine ⟨iff_of_true (by simp [hfinal]) ⟨d, hlast, ?_⟩, by simp [hfinal, hne.symm, hsome],
        by simp [hfinal]⟩
      rintro w' hw' heq
      exact hfinal (Option.some.inj (hw.symm.trans heq) ▸ hw')

/-- A chain of two clauses, of which `run` is the last. -/
theorem executeChain_ends_run :
    ∃ above rest below levels typed d ms e,
      "execute as @s run list".toList = above ++ rest ++ below ∧
      '\n' ∉ rest ∧ LineEnd below ∧ Position.after ⟨0, 0⟩ above = ⟨0, 0⟩ ∧ levels ≤ maxNesting ∧
      Reader.word ⟨rest, ⟨0, 0⟩⟩ = (.ok typed, d) ∧ Grammar.canonicalName typed = "execute" ∧
      Command.AcceptsChain .latest levels d ms e ∧ e.rest = [] := by
  have hresult : tokenize "execute as @s run list" ⟨0, 0⟩ .latest = .ok
      ⟨[⟨.command, .command "execute", ⟨⟨0, 0⟩, ⟨0, 8⟩⟩⟩, ⟨.option, .none, ⟨⟨0, 8⟩, ⟨0, 11⟩⟩⟩,
        ⟨.selector, .none, ⟨⟨0, 11⟩, ⟨0, 14⟩⟩⟩, ⟨.option, .none, ⟨⟨0, 14⟩, ⟨0, 18⟩⟩⟩,
        ⟨.command, .command "list", ⟨⟨0, 18⟩, ⟨0, 22⟩⟩⟩], [],
        [.commandRead ⟨⟨0, 0⟩, ⟨0, 8⟩⟩ "execute" "execute",
          .commandRead ⟨⟨0, 18⟩, ⟨0, 22⟩⟩ "list" "list"]⟩ := by rfl
  exact (executeChain_ends (by decide)).2.2 _ _ _ hresult _ (List.mem_cons_self ..) rfl rfl
    (by decide)

end BedrockCommand
