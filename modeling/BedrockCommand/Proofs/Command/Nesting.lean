import BedrockCommand.Proofs.Command.Accepts
import BedrockCommand.Proofs.Grammar.Enclosed
import BedrockCommand.Proofs.Rule.Counted
import BedrockCommand.Proofs.Tokenize.Events
/-!
Commands with the counter of commands. With the counter a command is read as without it. A command
inside others is called behind the keywords of those around it, which are all `execute`, and behind
no other keywords.
-/
namespace BedrockCommand

/-- The keywords of commands among some events. -/
def Event.commands (events : List Event) : List Token :=
  (Tokenized.ofEvents events).tokens.filter fun t => t.kind = .command

namespace Event

theorem commands_append (front back : List Event) :
    commands (front ++ back) = commands front ++ commands back := by
  simp only [commands, Tokenized.tokens_append, List.filter_append]

theorem commands_of_plain {events : List Event} (h : ∀ e ∈ events, e.IsPlain) :
    commands events = [] := by
  refine List.filter_eq_nil_iff.mpr fun t ht => ?_
  have hplain : t.kind ≠ .command := h _ (Tokenized.mem_tokens.mp ht)
  simpa using hplain

end Event

variable {version : Version} {inside : Counting} {n : Nat} {c d : Cursor}

theorem Step.commands_keyword {name typed : String} (h : c.Ahead d) :
    Event.commands (Step.keyword name typed c d).events =
      [⟨.command, .command name, ⟨c.position, d.position⟩⟩] := by
  rw [keyword_ahead h]
  simp [Event.commands]

/-! ## The counter -/

/-- Settles a command as it is done without the counter. -/
def Counted.closeCommand (s : Counted) : Counted :=
  s.settle.andThen fun n c =>
    of (if c.lineContinues then .sweep .tooManyArguments c else .done c) n

namespace Command

/-- A keyword and its arguments. -/
def countBody (version : Version) (inside : Counting) (n : Nat) (c : Cursor) : Counted :=
  match Reader.word c with
  | (.error _, _) => .of ((Step.sweep .expectedCommand c).andThen .halt) n
  | (.ok typed, c') =>
    let name := Grammar.canonicalName typed
    match Grammar.command? name version with
    | none => .of ((Step.sweep (.unknownCommand name) c).andThen .halt) n
    | some rule =>
      (Counted.of (Step.keyword name typed c c') n).andThen
        (rule.count (Grammar.dialect version) inside)

/-- A command, with what is called for those inside it. -/
def count (version : Version) (inside : Counting) : Counting := fun n c =>
  (countBody version inside n c).closeCommand

/-- A command inside others. -/
def countNested (version : Version) (fuel : Nat) : Counting :=
  Counted.nesting tooDeep (count version) fuel

/-- A command that is in no other. -/
def countOutermost (version : Version) : Counting :=
  count version (countNested version (maxNesting + 1))

theorem tracks_count {P : Call → Prop} (hP : Call.Stable P) {f : Cursor → Step}
    (hi : ∀ d, Counted.Tracks P n (f d) (inside n d)) (c : Cursor) :
    Counted.Tracks P n (body version f c).closeCommand (count version inside n c) := by
  have hbody : Counted.Tracks P n (body version f c) (countBody version inside n c) := by
    unfold body countBody
    rcases Reader.word c with ⟨_ | typed, d⟩
    · exact .of _ n
    · simp only
      cases hr : Grammar.command? (Grammar.canonicalName typed) version with
      | none => exact .of _ n
      | some rule =>
        exact .andThen hP (.of _ n)
          (Rule.tracks_count hP (fun _ => hi) (Rule.composed_command? hr).regular)
  unfold Step.closeCommand count Counted.closeCommand
  exact .andThen hP hbody.settle fun d => .of _ n

/-- A command inside others is read as without the counter, which comes back to where it was. -/
theorem tracks_countNested {fuel : Nat} (hle : n ≤ maxNesting) (hf : maxNesting < n + fuel)
    (c : Cursor) : Counted.Tracks (Call.Counts (inner version) n) n
      (inner version (maxNesting - n) c) (countNested version fuel n c) := by
  refine Counted.Tracks.nesting rfl (fun P hP levels n inside hi c => ?_) hle hf c
  rw [inner, read_eq_body]
  exact tracks_count hP hi c

theorem tracks_countOutermost (version : Version) (c : Cursor) :
    Counted.Tracks (Call.Counts (inner version) 0) 0 (read version maxNesting c)
      (countOutermost version 0 c) := by
  rw [read_eq_body]
  exact tracks_count (Call.stable_counts _ 0)
    (tracks_countNested (Nat.zero_le _) (by omega)) c

theorem line_countNested {fuel : Nat} (hle : n ≤ maxNesting) (hf : maxNesting < n + fuel)
    (c : Cursor) : (countNested version fuel n c).step.cursor.line = [] := by
  rw [(tracks_countNested hle hf c).step]
  exact line_inner _ c

end Command

/-! ## Where commands are called -/

/-- A run in which no other command is called, or one at the end of it, behind nothing that is about
commands. -/
inductive Counted.CallsLast (inside : Counting) (n : Nat) (c : Cursor) (s : Counted) : Prop where
  | never (h : s.calls = [])
  | last {own : List Event} {d : Cursor} (ha : c.Ahead d) (ho : ∀ e ∈ own, e.IsPlain)
    (h : s.calls = (inside n d).calls.map (·.after own))

namespace Counted

theorem andThen_done (s : Counted) : (s.andThen fun n c => of (.done c) n) = s := by
  by_cases hd : s.step.outcome = .done
  · rw [andThen_of_done hd]
    simp [of, Step.andThen_eq_self]
  · exact andThen_of_ne_done hd

theorem calls_andThen_of_silent {s : Counted} {next : Counting}
    (h : (next s.depth s.step.cursor).calls = []) : (s.andThen next).calls = s.calls := by
  by_cases hd : s.step.outcome = .done
  · rw [andThen_of_done hd]
    simp [h]
  · rw [andThen_of_ne_done hd]

theorem calls_of_andThen {t : Step} {next : Counting} (h : t.outcome = .done) :
    ((of t n).andThen next).calls = (next n t.cursor).calls.map (·.after t.events) := by
  have hof : (of t n).step.outcome = .done := h
  rw [andThen_of_done hof]
  rfl

namespace CallsLast

/-- What is not about commands may come in front. -/
theorem after {s : Step} {next : Counting} (ha : c.Ahead s.cursor) (ho : s.Only Event.IsPlain)
    (hf : ∀ d, (next n d).CallsLast inside n d) : ((of s n).andThen next).CallsLast inside n c := by
  by_cases hd : s.outcome = .done
  · have hcalls : ((of s n).andThen next).calls = _ := calls_of_andThen hd
    cases hf s.cursor with
    | never h => exact .never (by rw [hcalls, h, List.map_nil])
    | @last own d ha' ho' h =>
      have hown : ∀ e ∈ s.events ++ own, e.IsPlain :=
        fun e he => (List.mem_append.mp he).elim (ho e) (ho' e)
      exact .last (ha.trans ha') hown (by simp [hcalls, h, Call.after])
  · rw [andThen_of_ne_done hd]
    exact .never rfl

/-- A command that is called, and nothing behind it. -/
theorem called {next : Counting}
    (h : (next (inside n c).depth (inside n c).step.cursor).calls = []) :
    ((inside n c).andThen next).CallsLast inside n c :=
  .last (.refl c) (List.forall_mem_nil _) (by simp [calls_andThen_of_silent h, Call.after])

theorem calls_clauses_of_line_eq_nil {keywords : List String} {clause : String → Counting}
    {finish : Option String → Counting} {last : Option String} {fuel : Nat}
    (hf : ∀ m d, (finish last m d).calls = []) (hl : c.line = []) :
    (Counted.clauses keywords clause finish fuel last n c).calls = [] := by
  cases fuel with
  | zero => rfl
  | succ fuel =>
    rw [Counted.clauses, if_pos (by simp [Cursor.lineContinues_eq_false_iff.mpr hl])]
    exact hf n c

/-- Clauses up to the end of the line, one of which may call a command that takes all of it. -/
theorem clauses {keywords : List String} {clause : String → Counting}
    {finish : Option String → Counting} (hl : ∀ d, (inside n d).step.cursor.line = [])
    (hc : ∀ w, (∀ d, ∃ s : Step, clause w n d = of s n ∧ d.Ahead s.cursor ∧ s.Only Event.IsPlain) ∨
      clause w n = inside n ∧ ∀ m d, (finish (some w) m d).calls = [])
    (hf : ∀ w m d, (finish w m d).calls = []) (fuel : Nat) (last : Option String)
    (c : Cursor) : (Counted.clauses keywords clause finish fuel last n c).CallsLast inside n c := by
  induction fuel generalizing last c with
  | zero => exact .never rfl
  | succ fuel ih =>
    unfold Counted.clauses
    split
    · exact .never (hf last n c)
    obtain ⟨kind, hk⟩ := (Argument.keyword keywords).exists_kind_read c
    have hahead := Argument.ahead_keyword keywords c
    unfold argument
    refine after ?_ ?_ fun d => ?_
    · rwa [hk, Step.token_ahead _ _ _ hahead]
    · exact .token (fun _ => Event.isPlain_argument)
        (fun _ _ _ => trivial) _ _
    split
    · next w hw =>
      rcases hc w with hplain | ⟨hn, hfinish⟩
      · obtain ⟨s, hs, ha, ho⟩ := hplain d
        simp only [hs]
        exact after ha ho (ih (some w))
      · simp only [hn]
        exact called (calls_clauses_of_line_eq_nil hfinish (hl _))
    · exact .never rfl

end CallsLast
end Counted

theorem Rule.count_nested (d : Dialect) (inside : Counting) :
    (nested done).count d inside = inside :=
  funext₂ fun n c => (inside n c).andThen_done

/-- Of all commands, only `execute` calls another one. -/
theorem Rule.callsLast_count {name : String} {rule : Rule}
    (h : Grammar.command? name version = some rule)
    (hl : ∀ d, (inside n d).step.cursor.line = []) (c : Cursor) :
    (rule.count (Grammar.dialect version) inside n c).calls = [] ∨ name = "execute" ∧
      (rule.count (Grammar.dialect version) inside n c).CallsLast inside n c := by
  have hplain {r : Rule} (hr : Composed False r) (d : Cursor) : ∃ s : Step,
      r.count (Grammar.dialect version) inside n d = .of s n ∧ d.Ahead s.cursor ∧
        s.Only Event.IsPlain := by
    refine ⟨r.run ⟨Grammar.dialect version, Step.done⟩ d, count_eq_of hr.regular _ d, ?_, ?_⟩
    · have hsound : (r.run ⟨Grammar.dialect version, Step.done⟩ d).Sound version d :=
        sound_run (fun c => .done c) hr.wellFormed (by simp)
      exact hsound.ahead
    · exact only_run Event.coversArguments_isPlain False.elim hr.plain d
  rcases command?_cases h with hr | ⟨-, rfl⟩ | ⟨hname, rfl | rfl⟩
  · exact .inl (calls_count hr.composed.regular c)
  · exact .inl (calls_count (Composed.regular .wsserver) c)
  · have hown : Arranged .inside (target ++ position ++ .look (.word "detect") detect .done) :=
      .executeAtHead
    obtain ⟨s, hs, ha, ho⟩ := hplain hown.composed c
    refine .inr ⟨hname, ?_⟩
    rw [executeAt, count_append]
    simp only [hs]
    exact .after ha ho fun _ => .called rfl
  · refine .inr ⟨hname, .clauses hl (fun w => ?_)
      (fun w _ => calls_count (Composed.executeEnd w).regular) _ none c⟩
    rcases executeClause_cases w with hw | ⟨rfl, hw⟩
    · exact .inl (hplain hw.composed)
    · refine .inr ⟨?_, fun _ _ => rfl⟩
      exact congrFun ((congrArg (count _ inside) hw).trans (count_nested _ inside)) n

/-- A call that is made further along the line, behind the keywords of the commands around it and of
some more, all of which are `execute`, and behind no others. -/
structure Call.Behind (more : Nat) (c : Cursor) (call : Call) : Prop where
  ahead : c.Ahead call.place
  commands : (Event.commands call.front).map Token.value =
    List.replicate (call.around.length + more) (.command "execute")

namespace Command

theorem calls_count (version : Version) (inside : Counting) (n : Nat) (c : Cursor) :
    (count version inside n c).calls = (countBody version inside n c).calls :=
  Counted.calls_andThen_of_silent rfl

/-- The calls in a command have its own keyword in front. -/
theorem behind_count (hl : ∀ d, (inside n d).step.cursor.line = [])
    (hi : ∀ d, ∀ call ∈ (inside n d).calls, call.Behind 0 d) :
    ∀ call ∈ (count version inside n c).calls, call.Behind 1 c := by
  rw [calls_count]
  unfold countBody
  rcases hw : Reader.word c with ⟨_ | typed, d⟩
  · exact List.forall_mem_nil _
  simp only
  cases hr : Grammar.command? (Grammar.canonicalName typed) version with
  | none => exact List.forall_mem_nil _
  | some rule =>
    have hahead := Reader.ahead_word hw
    have hkeyword : (Step.keyword (Grammar.canonicalName typed) typed c d).outcome = .done := by
      rw [Step.keyword_ahead hahead]
    have hcursor : (Step.keyword (Grammar.canonicalName typed) typed c d).cursor = d := by
      rw [Step.keyword_ahead hahead]
    simp only [Counted.calls_of_andThen hkeyword, hcursor]
    rcases Rule.callsLast_count hr hl d with hnone | ⟨hname, hlast⟩
    · simp [hnone]
    cases hlast with
    | never h => simp [h]
    | @last own e ha ho h =>
      rw [h]
      intro call hcall
      obtain ⟨_, houter, rfl⟩ := List.mem_map.mp hcall
      obtain ⟨inner, hinner, rfl⟩ := List.mem_map.mp houter
      obtain ⟨hplace, hcommands⟩ := hi e inner hinner
      refine ⟨(hahead.trans ha).trans hplace, ?_⟩
      change (Event.commands (_ ++ (own ++ inner.front))).map Token.value = _
      rw [Event.commands_append, Event.commands_append, Step.commands_keyword hahead,
        Event.commands_of_plain ho, hname, List.nil_append, List.map_append, hcommands]
      exact (List.replicate_succ ..).symm

theorem behind_countNested {fuel : Nat} (hle : n ≤ maxNesting) (hf : maxNesting < n + fuel) :
    ∀ call ∈ (countNested version fuel n c).calls, call.Behind 0 c := by
  induction fuel generalizing n c with
  | zero => omega
  | succ fuel ih =>
    unfold countNested Counted.nesting
    refine List.forall_mem_cons.mpr ⟨⟨.refl c, rfl⟩, ?_⟩
    split
    · exact List.forall_mem_nil _
    · next hlimit =>
      intro call hcall
      obtain ⟨inner, hinner, rfl⟩ := List.mem_map.mp hcall
      obtain ⟨ha, hc⟩ := behind_count (line_countNested (by omega) (by omega))
        (fun d => ih (by omega) (by omega)) inner hinner
      refine ⟨ha, ?_⟩
      change (Event.commands inner.front).map Token.value = _
      rw [hc]
      simp [Call.within]

theorem behind_countOutermost (version : Version) (c : Cursor) :
    ∀ call ∈ (countOutermost version 0 c).calls, call.Behind 1 c :=
  behind_count (line_countNested (Nat.zero_le _) (by omega))
    fun _ => behind_countNested (Nat.zero_le _) (by omega)

end Command
end BedrockCommand
