import BedrockCommand.Proofs.Command.Accepts
import BedrockCommand.Proofs.Rule.Append
/-!
How a chain of clauses ends. The clauses are read one behind the other up to the end of the line or
to the first one that gives up, and what is said about the end of the chain depends on the last one
alone.
-/
namespace BedrockCommand

variable {version : Version} {c d : Cursor} {ds : List Cursor}

namespace Step

/-- The places where clauses start that are read from a cursor on: one behind the other, up to the
end of the line or to one that gives up. -/
inductive ReadsClauses (clause : Cursor → Step) : Cursor → List Cursor → Prop where
  | ends {c : Cursor} (hl : c.line = []) : ReadsClauses clause c []
  | stops {c : Cursor} (hl : c.line ≠ []) (h : (clause c).outcome = .halted) :
    ReadsClauses clause c [c]
  | goes {c : Cursor} {ds : List Cursor} (hl : c.line ≠ []) (h : (clause c).outcome = .done)
    (hr : ReadsClauses clause (clause c).cursor ds) : ReadsClauses clause c (c :: ds)

namespace ReadsClauses

variable {clause : Cursor → Step}

theorem eq_nil (h : ReadsClauses clause c ds) (hl : c.line = []) : ds = [] := by
  cases h with
  | ends => rfl
  | stops hl' => exact absurd hl hl'
  | goes hl' => exact absurd hl hl'

/-- From a clause on, the same clauses are read as before. -/
theorem suffix {before after : List Cursor}
    (h : ReadsClauses clause c (before ++ d :: after)) : ReadsClauses clause d (d :: after) := by
  induction before generalizing c with
  | nil =>
    cases h with
    | stops hl h => exact .stops hl h
    | goes hl h hr => exact .goes hl h hr
  | cons e before ih =>
    generalize hds : e :: before ++ d :: after = ds at h
    cases h with
    | ends => simp at hds
    | stops => simp at hds
    | goes _ _ hr =>
      obtain ⟨-, rfl⟩ := List.cons.inj hds
      exact ih hr

/-- A clause from which another one is read is done. -/
theorem done_or_halted (h : ReadsClauses clause c ds) (hd : d ∈ ds) :
    (clause d).outcome = .done ∨ (clause d).outcome = .halted := by
  obtain ⟨before, after, rfl⟩ := List.append_of_mem hd
  cases h.suffix with
  | stops _ ho => exact .inr ho
  | goes _ ho => exact .inl ho

/-- There are such places, if every clause moves on along the line. -/
theorem exists_of_sound (hs : ∀ c, (clause c).Sound version c)
    (hlt : ∀ c, (clause c).outcome = .done → (clause c).cursor.line.length < c.line.length)
    (c : Cursor) : ∃ ds, ReadsClauses clause c ds := by
  induction hn : c.line.length using Nat.strong_induction_on generalizing c with
  | _ n ih =>
    by_cases hl : c.line = []
    · exact ⟨[], .ends hl⟩
    cases ho : (clause c).outcome with
    | done =>
      obtain ⟨ds, hds⟩ := ih _ (hn ▸ hlt c ho) _ rfl
      exact ⟨c :: ds, .goes hl ho hds⟩
    | halted => exact ⟨[c], .stops hl ho⟩
    | failed f => exact absurd ho ((hs c).faultless f)

end ReadsClauses

section

variable {keywords : List String} {next : String → Cursor → Step}
  {finish : Option String → Cursor → Step} {fuel : Nat} {last : Option String}

/-- One round of clauses is one clause, and the others behind it. -/
theorem clauses_round (hl : c.line ≠ []) :
    clauses keywords next finish (fuel + 1) last c =
      (argument (.keyword keywords) c next).andThen
        (clauses keywords next finish fuel ((Argument.keyword keywords).read c).answer) := by
  rw [argument_andThen, clauses, if_neg (by simpa using Cursor.lineContinues_iff.mpr hl)]
  unfold argument
  cases hx : ((Argument.keyword keywords).read c).answer <;> simp [hx]

theorem sound_clause (hs : ∀ w d, (next w d).Sound version d) (c : Cursor) :
    (argument (.keyword keywords) c next).Sound version c :=
  .argument (Argument.fitsAfter_keyword keywords) (Look.known_none c) fun w _ => hs w _

/-- Behind its keyword a clause ends where its rule does. -/
theorem cursor_clause {w : String} (hw : ((Argument.keyword keywords).read c).answer = some w) :
    (argument (.keyword keywords) c next).cursor =
      (next w ((Argument.keyword keywords).read c).cursor).cursor := by
  have hahead := Argument.ahead_keyword keywords c
  obtain ⟨kind, -, heq⟩ := argument_eq next hahead hw
  rw [heq, token_ahead kind _ _ hahead, cursor_andThen_of_done rfl]

/-- A clause that is done has a keyword. -/
theorem exists_keyword (h : (argument (.keyword keywords) c next).outcome = .done) :
    ∃ w, ((Argument.keyword keywords).read c).answer = some w := by
  unfold argument at h
  cases hx : ((Argument.keyword keywords).read c).answer with
  | some w => exact ⟨w, rfl⟩
  | none =>
    by_cases hd : (token ((Argument.keyword keywords).read c).kind
        ((Argument.keyword keywords).read c).value ((Argument.keyword keywords).read c).warning c
        ((Argument.keyword keywords).read c).cursor).outcome = .done
    · simp [hx, outcome_andThen_of_done hd, halt] at h
    · exact absurd (andThen_of_ne_done hd ▸ h) hd

/-- A clause that is done takes a character at least. -/
theorem length_line_clause (hs : ∀ w d, (next w d).Sound version d)
    (h : (argument (.keyword keywords) c next).outcome = .done) :
    (argument (.keyword keywords) c next).cursor.line.length < c.line.length := by
  obtain ⟨w, hw⟩ := exists_keyword h
  rw [cursor_clause hw]
  exact Argument.length_line_lt_of_keyword hw (hs w _).ahead

variable (hs : ∀ w d, (next w d).Sound version d)
  (h : ReadsClauses (fun c => argument (.keyword keywords) c next) c ds)
include hs h

/-- Where a clause gives up, nothing comes behind it. -/
theorem events_clauses_of_halted (hf : c.line.length < fuel)
    (hh : ∃ d ∈ ds, (argument (.keyword keywords) d next).outcome = .halted) :
    (clauses keywords next finish fuel last c).events =
      ds.flatMap fun d => (argument (.keyword keywords) d next).events := by
  induction h generalizing fuel last with
  | ends => simp at hh
  | stops hl ho =>
    obtain _ | fuel := fuel
    · omega
    rw [clauses_round hl, andThen_of_ne_done (by simp [ho]), List.flatMap_singleton]
  | goes hl ho hr ih =>
    obtain _ | fuel := fuel
    · omega
    have hlt := length_line_clause hs ho
    rw [clauses_round hl, events_andThen_of_done ho, List.flatMap_cons, ih (by omega)]
    obtain ⟨d, hd, hhalted⟩ := hh
    rcases List.mem_cons.mp hd with rfl | hd
    · simp [ho] at hhalted
    · exact ⟨d, hd, hhalted⟩

/-- Where every clause is done, the keyword of the last one decides on what comes behind it. -/
theorem events_clauses_of_done (hf : c.line.length < fuel)
    (hh : ∀ d ∈ ds, (argument (.keyword keywords) d next).outcome ≠ .halted) :
    (clauses keywords next finish fuel last c).events =
      (ds.flatMap fun d => (argument (.keyword keywords) d next).events) ++
        (finish ((ds.getLast?.map fun d => ((Argument.keyword keywords).read d).answer).getD last)
          c.toLineEnd).events := by
  induction h generalizing fuel last with
  | @ends c hl =>
    obtain _ | fuel := fuel
    · omega
    have hend : c.toLineEnd = c := ((Cursor.Ahead.refl c).eq_toLineEnd hl).symm
    rw [clauses, if_pos (by simp [Cursor.lineContinues_eq_false_iff.mpr hl]), hend]
    rfl
  | stops hl ho => exact absurd ho (hh _ (List.mem_singleton_self _))
  | @goes c ds hl ho hr ih =>
    obtain _ | fuel := fuel
    · omega
    have hlt := length_line_clause hs ho
    have hahead : c.Ahead (argument (.keyword keywords) c next).cursor := (sound_clause hs c).ahead
    rw [clauses_round hl, events_andThen_of_done ho, List.flatMap_cons, List.append_assoc,
      ih (by omega) fun d hd => hh d (List.mem_cons_of_mem _ hd),
      hahead.toLineEnd_eq, List.getLast?_cons]
    cases ds.getLast? <;> rfl

end

end Step

/-! ## `execute` -/

namespace Rule

/-- Reads a clause of `execute`: its keyword, and what the keyword asks for. -/
def readExecuteClause (env : Env) (c : Cursor) : Step :=
  Step.argument (.keyword (executeClauses.map Prod.fst)) c fun w d =>
    ((executeClauses.lookup w).getD .done).run env d

/-- The keyword of the clause of `execute` at a cursor, if there is one. -/
def executeKeyword? (c : Cursor) : Option String :=
  ((Argument.keyword (executeClauses.map Prod.fst)).read c).answer

/-- What is done behind the last clause of `execute`, by its keyword. -/
def executeEnd : Option String → Rule
  | none => .complain .expectedSubcommand .done
  | some w => if w ∈ finalClauses then .done else .complain .wrongExecuteEnd .done

theorem executeChain_eq : executeChain = .clauses (executeClauses.map Prod.fst)
    (fun w => (executeClauses.lookup w).getD .done) executeEnd := by
  unfold executeChain
  congr

/-- An error in no text at the end of the line. -/
def errorAtEnd (e : SyntaxError) (c : Cursor) : Event :=
  .token ⟨.error, .error e, ⟨c.toLineEnd.position, c.toLineEnd.position⟩⟩

theorem command?_execute (hv : Version.v1_19_50.atMost version = true) :
    Grammar.command? "execute" version = some .executeChain := by
  have hrules : Grammar.commands.lookup "execute" =
      some ((Versioned.always .executeAt).insert .v1_19_50 .executeChain) := by rfl
  rw [Grammar.command?, hrules, Option.bind_some, Versioned.resolve?_insert (by decide), if_pos hv]

section

variable (version) (levels : Nat)

/-- What a rule runs with where commands may lie in each other up to a number of levels. -/
def innerEnv : Env :=
  ⟨Grammar.dialect version, Command.inner version levels⟩

theorem sound_executeClause (w : String) (d : Cursor) :
    (((executeClauses.lookup w).getD .done).run (innerEnv version levels) d).Sound version d :=
  have hclause : Composed True ((executeClauses.lookup w).getD .done) := .executeClause trivial w
  sound_run (Command.sound_inner levels) hclause.wellFormed (by simp)

/-- From every place on a line clauses are read. -/
theorem exists_readsClauses (c : Cursor) :
    ∃ ds, Step.ReadsClauses (readExecuteClause (innerEnv version levels)) c ds :=
  Step.ReadsClauses.exists_of_sound (Step.sound_clause (sound_executeClause version levels))
    (fun _ => Step.length_line_clause (sound_executeClause version levels)) c

variable {version levels} (h : Step.ReadsClauses (readExecuteClause (innerEnv version levels)) c ds)
include h

/-- Behind a clause that gives up, the chain reports nothing. -/
theorem events_executeChain_of_halted
    (hh : ∃ d ∈ ds, (readExecuteClause (innerEnv version levels) d).outcome = .halted) :
    (executeChain.run (innerEnv version levels) c).events =
      ds.flatMap fun d => (readExecuteClause (innerEnv version levels) d).events :=
  Step.events_clauses_of_halted (sound_executeClause version levels) h (Nat.lt_succ_self _) hh

/-- Behind clauses that are all done, the chain reports what the keyword of the last one asks
for. -/
theorem events_executeChain_of_done
    (hh : ∀ d ∈ ds, (readExecuteClause (innerEnv version levels) d).outcome ≠ .halted) :
    (executeChain.run (innerEnv version levels) c).events =
      (ds.flatMap fun d => (readExecuteClause (innerEnv version levels) d).events) ++
        match ds.getLast?.bind executeKeyword? with
        | none => [errorAtEnd .expectedSubcommand c]
        | some w => if w ∈ finalClauses then [] else [errorAtEnd .wrongExecuteEnd c] := by
  have hcomplain (e : SyntaxError) : (Rule.run (innerEnv version levels) (.complain e .done)
      c.toLineEnd).events = [errorAtEnd e c] := by
    rw [run, Step.complain, Step.error_ahead e (.refl _)]
    rfl
  have hlast : (ds.getLast?.map executeKeyword?).getD none = ds.getLast?.bind executeKeyword? := by
    cases ds.getLast? <;> rfl
  rw [executeChain_eq, run, Step.events_clauses_of_done (sound_executeClause version levels) h
    (Nat.lt_succ_self _) hh]
  refine congrArg _ ?_
  change ((executeEnd ((ds.getLast?.map executeKeyword?).getD none)).run _ _).events = _
  rw [hlast]
  cases ds.getLast?.bind executeKeyword? with
  | none => exact hcomplain _
  | some w =>
    simp only [executeEnd]
    split
    · rfl
    · exact hcomplain _

omit h in
/-- A command behind `run` takes all of the line. -/
theorem line_executeClause_run (hw : executeKeyword? d = some "run") :
    (readExecuteClause (innerEnv version levels) d).cursor.line = [] := by
  have hrun : (executeClauses.lookup "run").getD .done = .nested .done := by rfl
  rw [readExecuteClause, Step.cursor_clause hw, hrun]
  change (Step.andThen (Command.inner version levels _) Step.done).cursor.line = []
  rw [Step.andThen_eq_self rfl]
  exact Command.line_inner levels _

/-- So `run` comes last. -/
theorem eq_nil_of_run {before after : List Cursor} (hds : ds = before ++ d :: after)
    (hw : executeKeyword? d = some "run") : after = [] := by
  obtain rfl := hds
  cases h.suffix with
  | stops => rfl
  | goes _ _ hr => exact hr.eq_nil (line_executeClause_run hw)

/-- What the chain reports by itself: nothing if a clause gives up, or else what the keyword of the
last clause asks for. -/
theorem exists_own_executeChain : ∃ own,
    (executeChain.run (innerEnv version levels) c).events =
      (ds.flatMap fun d => (readExecuteClause (innerEnv version levels) d).events) ++ own ∧
    ((∃ d ∈ ds, (readExecuteClause (innerEnv version levels) d).outcome = .halted) → own = []) ∧
    ((∀ d ∈ ds, (readExecuteClause (innerEnv version levels) d).outcome ≠ .halted) →
      (ds = [] ∧ own = [errorAtEnd .expectedSubcommand c]) ∨
        ∃ d w, ds.getLast? = some d ∧ executeKeyword? d = some w ∧
          own = if w ∈ finalClauses then [] else [errorAtEnd .wrongExecuteEnd c]) := by
  by_cases hh : ∃ d ∈ ds, (readExecuteClause (innerEnv version levels) d).outcome = .halted
  · refine ⟨[], ?_, fun _ => rfl, fun hn => ?_⟩
    · rw [events_executeChain_of_halted h hh, List.append_nil]
    · obtain ⟨d, hd, ho⟩ := hh
      exact absurd ho (hn d hd)
  have hdone : ∀ d ∈ ds, (readExecuteClause (innerEnv version levels) d).outcome ≠ .halted :=
    fun d hd ho => hh ⟨d, hd, ho⟩
  refine ⟨_, events_executeChain_of_done h hdone, fun ho => absurd ho hh, fun _ => ?_⟩
  cases hlast : ds.getLast? with
  | none => exact .inl ⟨List.getLast?_eq_none_iff.mp hlast, rfl⟩
  | some d =>
    have hd := List.mem_of_getLast? hlast
    obtain ⟨w, hw⟩ := Step.exists_keyword ((h.done_or_halted hd).resolve_right (hdone d hd))
    exact .inr ⟨d, w, rfl, hw, by simp only [Option.bind_some, executeKeyword?, hw]⟩

end

end Rule

/-! ## Chains without an error -/

namespace Command

open Rule Passage

/-- The clause of a keyword as the rule of `execute` has it. -/
def AcceptsClause (version : Version) (levels : Nat) (w : String) : Passage :=
  ((executeClauses.lookup w).getD .done).Accepts (Grammar.dialect version)
    (Accepts version levels)

/-- Complete clauses of `execute` up to the end of the line, of which the last one runs a command or
tests something. -/
inductive AcceptsChain (version : Version) (levels : Nat) : Passage where
  | run {c d e : Cursor} {ms : List String}
    (hw : (Argument.keyword (executeClauses.map Prod.fst)).Accepts c "run" d)
    (h : Accepts version levels d ms e) : AcceptsChain version levels c ms e
  | test {c d e : Cursor} {w : String} {ms : List String}
    (hw : (Argument.keyword (executeClauses.map Prod.fst)).Accepts c w d)
    (ht : w = "if" ∨ w = "unless")
    (h : condition.Accepts (Grammar.dialect version) (Accepts version levels) d ms e)
    (hl : e.line = []) : AcceptsChain version levels c ms e
  | clause {c d e f : Cursor} {w : String} {ms ns : List String}
    (hw : (Argument.keyword (executeClauses.map Prod.fst)).Accepts c w d) (hn : w ≠ "run")
    (h : AcceptsClause version levels w d ms e) (hr : AcceptsChain version levels e ns f) :
    AcceptsChain version levels c (ms ++ ns) f

variable {levels : Nat} {ms : List String} {e : Cursor}

theorem Accepts.line_eq_nil (h : Accepts version levels c ms e) : e.line = [] := by
  cases levels with
  | zero => exact h.elim
  | succ levels =>
    obtain ⟨-, -, -, hl⟩ := h
    exact hl

theorem acceptsClause_run (h : AcceptsClause version levels "run" c ms e) :
    Accepts version levels c ms e := by
  change Seq _ _ c ms e at h
  obtain ⟨h, rfl, rfl⟩ := h
  rwa [List.append_nil]

theorem acceptsClause_test {w : String} (hw : w = "if" ∨ w = "unless")
    (h : AcceptsClause version levels w c ms e) :
    condition.Accepts (Grammar.dialect version) (Accepts version levels) c ms e := by
  rcases hw with rfl | rfl <;> exact h

/-- Clauses of which the last one may come last. -/
theorem acceptsChain_of_clauses {ws : List String} {w : String}
    (h : Clauses (executeClauses.map Prod.fst) (AcceptsClause version levels) ws c ms e)
    (hlast : ws.getLast? = some w) (hw : w ∈ finalClauses) :
    AcceptsChain version levels c ms e := by
  induction h with
  | ends => simp at hlast
  | @clause c d e f w' ws ms ns hl hkeyword hclause hr ih =>
    cases hr with
    | ends hl' =>
      obtain rfl : w' = w := by simpa using hlast
      rw [List.append_nil]
      rcases List.mem_cons.mp hw with rfl | hw
      · exact .run hkeyword (acceptsClause_run hclause)
      · have htest : w' = "if" ∨ w' = "unless" := by simpa using hw
        exact .test hkeyword htest (acceptsClause_test htest hclause) hl'
    | clause hl' hkeyword' hclause' hr' =>
      refine .clause hkeyword ?_ hclause (ih (by simpa using hlast))
      -- Behind a command nothing is left for another clause.
      rintro rfl
      exact hl' (acceptsClause_run hclause).line_eq_nil

theorem acceptsChain_of_accepts (h : executeChain.Accepts (Grammar.dialect version)
    (Accepts version levels) c ms e) : AcceptsChain version levels c ms e := by
  rw [executeChain_eq] at h
  obtain ⟨ws, hclauses, hend⟩ := h
  cases hlast : ws.getLast? with
  | none => simp [hlast, executeEnd, Rule.Accepts] at hend
  | some w =>
    rw [hlast, executeEnd] at hend
    split at hend
    · next hw =>
      obtain ⟨rfl, rfl⟩ := hend
      rw [List.append_nil]
      exact acceptsChain_of_clauses hclauses hlast hw
    · exact hend.elim

end Command
end BedrockCommand
