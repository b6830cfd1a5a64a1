import BedrockCommand.Proofs.Rule.Exact
import BedrockCommand.Proofs.Rule.Outspoken
import BedrockCommand.Proofs.Rule.Run
/-!
What a rule accepts, as a relation on texts that knows neither events nor outcomes, and the runs
that report no error: they are done, and they have passed over a text that the rule accepts. An
error that a rule gives up on is reported, so that no run without an error has skipped a part of
the text, or an element of a list, that its rule does not accept.
-/
namespace BedrockCommand

open Look (known_none known_of_holds)

/-! ## Accepted texts -/

/-- Ways along a line: from one cursor to another, with the entries that are marked between. -/
abbrev Passage := Cursor → List String → Cursor → Prop

/-- An argument whose text is as wanted, with its answer. -/
structure Argument.Accepts (a : Argument) (c : Cursor) (x : a.Answer) (d : Cursor) : Prop where
  kind : (a.read c).kind ≠ some .error
  answer : (a.read c).answer = some x
  cursor : (a.read c).cursor = d

namespace Passage

/-- One element or more with commas between them, and the closing bracket. -/
inductive Elements (b : Brackets) (P : Passage) : Passage where
  | last {c d : Cursor} {ms : List String} (h : P c.skipSpaces ms d)
    (hc : d.isAt b.closing = true) : Elements b P c ms d.advance.skipSpaces
  | more {c d e : Cursor} {ms ns : List String} (h : P c.skipSpaces ms d)
    (hx : d.isAt ',' = true) (ht : Step.isTrailing b.closing d = false)
    (hr : Elements b P d.advance ns e) : Elements b P c (ms ++ ns) e

/-- A list in brackets. -/
inductive Lists (b : Brackets) (mayBeEmpty : Bool) (P : Passage) : Passage where
  | empty {c d : Cursor} (hm : mayBeEmpty = true) (ho : c.isAt b.opening = true)
    (hd : c.advance.skipSpaces = d) (hc : d.isAt b.closing = true) :
    Lists b mayBeEmpty P c [] d.advance.skipSpaces
  | full {c d e : Cursor} {ms : List String} (ho : c.isAt b.opening = true)
    (hd : c.advance.skipSpaces = d) (hc : d.isAt b.closing = false) (h : Elements b P d ms e) :
    Lists b mayBeEmpty P c ms e

/-- Clauses up to the end of the line, with their keywords. -/
inductive Clauses (keywords : List String) (P : String → Passage) : List String → Passage where
  | ends {c : Cursor} (hl : c.line = []) : Clauses keywords P [] c [] c
  | clause {c d e f : Cursor} {w : String} {ws ms ns : List String} (hl : c.line ≠ [])
    (hw : (Argument.keyword keywords).Accepts c w d) (h : P w d ms e)
    (hr : Clauses keywords P ws e ns f) : Clauses keywords P (w :: ws) c (ms ++ ns) f

/-- One passage after another. -/
inductive Seq (P : Passage) (Q : Passage) : Passage where
  | intro {c d e : Cursor} {ms ns : List String} (h : P c ms d) (h' : Q d ns e) :
    Seq P Q c (ms ++ ns) e

end Passage

open Passage in
/-- The texts that a rule accepts in a dialect, where commands inside accept texts of their own. -/
def Rule.Accepts (d : Dialect) (command : Passage) : Rule → Passage
  | done => fun c ms e => ms = [] ∧ c = e
  | read a next => fun c ms e => ∃ x c', a.Accepts c x c' ∧ (next x).Accepts d command c' ms e
  | expect x next => fun c ms e =>
    c.isAt x = true ∧ next.Accepts d command c.advance.skipSpaces ms e
  | spaces next => fun c => next.Accepts d command c.skipSpaces
  | negation next => fun c => next.Accepts d command (Reader.negation c).2
  | look q yes no => fun c ms e =>
    if q.holds c then yes.Accepts d command c ms e else no.Accepts d command c ms e
  | complain _ _ | refuse _ | refuseLine _ | fault _ => fun _ _ _ => False
  | list b mayBeEmpty element next => fun c ms e => ∃ entries c',
    Lists b mayBeEmpty (element.Accepts d command) c entries c' ∧
      (next entries).Accepts d command c' ms e
  | mark name next => fun c ms e => ∃ ns, ms = name :: ns ∧ next.Accepts d command c ns e
  | clauses keywords clause next => fun c ms e => ∃ ws,
    Seq (Clauses keywords (fun w => (clause w).Accepts d command) ws)
      ((next ws.getLast?).Accepts d command) c ms e
  | nested next => Seq command (next.Accepts d command)
  | embedded inner next => fun c ms e => ∃ ns os c',
    inner.Accepts d command ⟨Text.trimEnd c.line, c.position⟩ ns c' ∧ c'.atEnd = true ∧
      next.Accepts d command c.toLineEnd os e ∧ ms = ns ++ os
  | noteTooDeep next => next.Accepts d command
  | ask next => (next d).Accepts d command

/-! ## Steps without an error -/

theorem Event.IsError.not_isClean {e : Event} (h : e.IsError) : ¬ e.IsClean := by
  cases e with
  | token t =>
    obtain ⟨-, hk, -⟩ := h
    exact fun hc => hc hk
  | warning | notice | json => exact h.elim

namespace Step

/-- A step that is done at a cursor without an error, with some marks. -/
structure Satisfied (s : Step) (ms : List String) (d : Cursor) : Prop where
  clean : s.Clean
  outcome : s.outcome = .done
  marks : s.marks = ms
  cursor : s.cursor = d

variable {s : Step} {f : Cursor → Step} {c d e : Cursor} {ms : List String}

theorem clean_done (c : Cursor) : (Step.done c).Clean :=
  ⟨by simp [Step.done], .done c⟩

/-- What reports every error that it gives up on, gives up only with an error. -/
theorem Clean.outcome (h : s.Clean) (ho : s.Outspoken) : s.outcome = .done := by
  cases hs : s.outcome with
  | done => rfl
  | halted =>
    obtain ⟨e, he, hError⟩ := ho hs
    exact absurd (h.only e he) hError.not_isClean
  | failed f => exact absurd hs (h.faultless f)

theorem Clean.satisfied (h : s.Clean) (ho : s.Outspoken) : s.Satisfied s.marks s.cursor :=
  ⟨h, h.outcome ho, rfl, rfl⟩

theorem satisfied_done : (Step.done c).Satisfied ms d ↔ ms = [] ∧ c = d := by
  constructor
  · exact fun h => ⟨h.marks.symm, h.cursor⟩
  · rintro ⟨rfl, rfl⟩
    exact ⟨clean_done c, rfl, rfl, rfl⟩

theorem Satisfied.andThen {ns : List String} (h : s.Satisfied ms d) (h' : (f d).Satisfied ns e) :
    (s.andThen f).Satisfied (ms ++ ns) e := by
  obtain ⟨hc, ho, rfl, rfl⟩ := h
  refine ⟨hc.andThen fun _ => h'.clean, (outcome_andThen_of_done ho).trans h'.outcome, ?_, ?_⟩
  · simp only [Step.andThen, ho, h'.marks]
  · rw [cursor_andThen_of_done ho, h'.cursor]

theorem satisfied_andThen : (s.andThen f).Satisfied ms e ↔
    ∃ ns os d, s.Satisfied ns d ∧ (f d).Satisfied os e ∧ ms = ns ++ os := by
  constructor
  · intro h
    by_cases hd : s.outcome = .done
    · refine ⟨_, _, _, ⟨h.clean.left, hd, rfl, rfl⟩, ⟨h.clean.right hd, ?_, rfl, ?_⟩, ?_⟩
      · exact outcome_andThen_of_done hd ▸ h.outcome
      · exact cursor_andThen_of_done hd ▸ h.cursor
      · rw [← h.marks]
        simp only [Step.andThen, hd]
    · exact absurd (andThen_of_ne_done hd ▸ h.outcome) hd
  · rintro ⟨ns, os, d, h, h', rfl⟩
    exact h.andThen h'

/-- A step that marks nothing, in front of another one. -/
theorem satisfied_andThen_of_marks (hm : s.marks = []) : (s.andThen f).Satisfied ms e ↔
    ∃ d, s.Satisfied [] d ∧ (f d).Satisfied ms e := by
  rw [satisfied_andThen]
  constructor
  · rintro ⟨ns, os, d, h, h', rfl⟩
    obtain rfl : ns = [] := h.marks.symm.trans hm
    exact ⟨d, h, h'⟩
  · exact fun ⟨d, h, h'⟩ => ⟨[], ms, d, h, h', rfl⟩

theorem settle_of_done (h : s.outcome = .done) : s.settle = s := by
  simp only [settle, h]

theorem satisfied_settle (ho : s.Outspoken) : s.settle.Satisfied ms d ↔ s.Satisfied ms d := by
  constructor
  · intro h
    have hs := h.clean.of_settle.outcome ho
    rwa [settle_of_done hs] at h
  · intro h
    rwa [settle_of_done h.outcome]

theorem satisfied_unmarked : s.unmarked.Satisfied ms d ↔ ms = [] ∧ s.Satisfied s.marks d := by
  constructor
  · exact fun ⟨hc, ho, hm, hd⟩ => ⟨hm.symm, ⟨hc.faultless, hc.only⟩, ho, rfl, hd⟩
  · rintro ⟨rfl, hc, ho, -, hd⟩
    exact ⟨⟨hc.faultless, hc.only⟩, ho, rfl, hd⟩

theorem not_satisfied_error {err : SyntaxError} : ¬ (error err c d).Satisfied ms e :=
  fun h => not_clean_error err c d h.clean

theorem not_satisfied_errorThen {err : SyntaxError} :
    ¬ ((error err c d).andThen f).Satisfied ms e :=
  fun h => not_clean_error err c d h.clean.left

theorem satisfied_report {event : Event} (he : event.IsClean) :
    (report event c).Satisfied ms d ↔ ms = [] ∧ c = d := by
  constructor
  · exact fun h => ⟨h.marks.symm, h.cursor⟩
  · rintro ⟨rfl, rfl⟩
    exact ⟨⟨by simp [report], by simpa [Only, report] using he⟩, rfl, rfl, rfl⟩

end Step

/-! ## Steps that read a passage -/

open Step

/-- Steps that are satisfied just where a passage leads, that go along the line, and that give up
only with an error. -/
structure Passage.ReadBy (version : Version) (P : Passage) (f : Cursor → Step) : Prop where
  satisfied : ∀ {c ms d}, (f c).Satisfied ms d ↔ P c ms d
  sound : ∀ c, (f c).Sound version c
  outspoken : ∀ c, (f c).Outspoken

theorem Passage.ReadBy.ahead {version : Version} {P : Passage} {f : Cursor → Step}
    (hP : P.ReadBy version f) {c d : Cursor} {ms : List String} (h : P c ms d) : c.Ahead d := by
  obtain ⟨-, -, -, rfl⟩ := hP.satisfied.mpr h
  exact (hP.sound c).ahead

namespace Step

variable {version : Version} {P : Passage} {s : Step} {f : Cursor → Step} {c d e : Cursor}
  {ms : List String} {b : Brackets} {fuel : Nat}

theorem satisfied_argument {a : Argument} {next : a.Answer → Cursor → Step}
    (ha : c.Ahead (a.read c).cursor) : (argument a c next).Satisfied ms e ↔
      ∃ x d, a.Accepts c x d ∧ (next x d).Satisfied ms e := by
  constructor
  · intro h
    have hk := clean_argument h.clean
    cases hx : (a.read c).answer with
    | none =>
      obtain ⟨err, hError, -⟩ := a.outspoken_read c hx
      exact absurd hError hk
    | some x =>
      obtain ⟨kind, -, heq⟩ := argument_eq next ha hx
      rw [heq, token_ahead kind _ _ ha, satisfied_andThen_of_marks rfl] at h
      obtain ⟨d, -, h⟩ := h
      exact ⟨x, _, ⟨hk, hx, rfl⟩, h⟩
  · rintro ⟨x, d, ⟨hk, hx, rfl⟩, h⟩
    obtain ⟨kind, hkind, heq⟩ := argument_eq next ha hx
    have hne : kind ≠ .error := fun e => hk (e ▸ hkind)
    obtain ⟨hc, ho, hm, -⟩ := Accepts.token hne (a.read c).value (a.read c).warning ha
    rw [heq, satisfied_andThen_of_marks hm]
    exact ⟨_, ⟨hc, ho, hm, rfl⟩, h⟩

theorem satisfied_expect {x : Char} : (expect x c).Satisfied ms d ↔
    c.isAt x = true ∧ ms = [] ∧ c.advance.skipSpaces = d := by
  unfold expect
  rw [Reader.symbol_apply]
  cases hat : c.isAt x with
  | true => simpa using satisfied_done
  | false => exact iff_of_false not_satisfied_errorThen (by simp)

theorem satisfied_whole (ho : s.Outspoken) : s.whole.Satisfied ms d ↔
    s.Satisfied ms d ∧ d.atEnd = true := by
  unfold whole
  rw [satisfied_andThen]
  constructor
  · rintro ⟨ns, os, e, h, h', rfl⟩
    split at h'
    · next he =>
      obtain ⟨rfl, rfl⟩ := satisfied_done.mp h'
      exact ⟨by rwa [List.append_nil, ← satisfied_settle ho], he⟩
    · exact absurd h' not_satisfied_error
  · rintro ⟨h, he⟩
    refine ⟨ms, [], d, (satisfied_settle ho).mpr h, ?_, (List.append_nil ms).symm⟩
    rw [if_pos he]
    exact satisfied_done.mpr ⟨rfl, rfl⟩

theorem satisfied_afterElement : (afterElement b f (fuel + 1) c).Satisfied ms e ↔
    (c.isAt b.closing = true ∧ ms = [] ∧ c.advance.skipSpaces = e) ∨
      (c.isAt ',' = true ∧ isTrailing b.closing c = false ∧ (f c.advance).Satisfied ms e) := by
  unfold afterElement
  split
  · next hc =>
    have hx : c.isAt ',' = false := Cursor.isAt_eq_false hc b.closing_ne_comma
    simp [hc, hx, close, satisfied_done]
  · next hc =>
    split
    · next hx =>
      split
      · next ht => exact iff_of_false not_satisfied_errorThen (by simp [hc, ht])
      · next ht => simp [hc, hx, ht]
    · next hx =>
      refine iff_of_false ?_ (by simp [hc, hx])
      split <;> exact not_satisfied_errorThen

/-- The elements of a list. Every comma takes a character, so that the fuel lasts. -/
theorem satisfied_elements (hP : P.ReadBy version f) (hf : c.line.length < fuel) :
    (elements b f fuel c).Satisfied ms e ↔ P.Elements b c ms e := by
  induction fuel generalizing c ms with
  | zero => omega
  | succ fuel ih =>
    have hshorter {d : Cursor} {ns : List String} (h : P c.skipSpaces ns d)
        (hx : d.isAt ',' = true) : d.advance.line.length < fuel := by
      have := (c.ahead_skipSpaces.trans (hP.ahead h)).length_line_le
      have := Cursor.length_line_advance (by decide) hx
      omega
    unfold elements
    simp only
    split
    · next hh =>
      refine iff_of_false (fun h => by simp [h.outcome] at hh) fun h => ?_
      have hdone : (f c.skipSpaces).outcome = .done := by
        cases h with
        | last h => exact (hP.satisfied.mpr h).outcome
        | more h => exact (hP.satisfied.mpr h).outcome
      simp [hdone] at hh
    · rw [satisfied_andThen]
      constructor
      · rintro ⟨ns, os, d, h, h', rfl⟩
        have hp := hP.satisfied.mp ((satisfied_settle (hP.outspoken _)).mp h)
        rcases satisfied_afterElement.mp h' with ⟨hc, rfl, rfl⟩ | ⟨hx, ht, hr⟩
        · exact (List.append_nil ns).symm ▸ .last hp hc
        · exact .more hp hx ht ((ih (hshorter hp hx)).mp hr)
      · intro h
        cases h with
        | @last _ d _ hp hc =>
          refine ⟨ms, [], d, (satisfied_settle (hP.outspoken _)).mpr (hP.satisfied.mpr hp),
            satisfied_afterElement.mpr (.inl ⟨hc, rfl, rfl⟩), (List.append_nil ms).symm⟩
        | @more _ d _ ns os hp hx ht hr =>
          exact ⟨ns, os, d, (satisfied_settle (hP.outspoken _)).mpr (hP.satisfied.mpr hp),
            satisfied_afterElement.mpr (.inr ⟨hx, ht, (ih (hshorter hp hx)).mpr hr⟩), rfl⟩

theorem satisfied_list {mayBeEmpty : Bool} (hP : P.ReadBy version f) :
    (list b mayBeEmpty f c).Satisfied ms e ↔ P.Lists b mayBeEmpty c ms e := by
  unfold list
  split
  · next ho =>
    refine iff_of_false not_satisfied_errorThen fun h => ?_
    cases h with
    | empty _ h => simp [h] at ho
    | full h => simp [h] at ho
  simp only
  have ho : c.isAt b.opening = true := by simp_all
  split
  · next hc =>
    split
    · next hm =>
      rw [close, satisfied_done]
      constructor
      · rintro ⟨rfl, rfl⟩
        exact .empty hm ho rfl hc
      · intro h
        cases h with
        | empty _ _ hd => exact ⟨rfl, by rw [hd]⟩
        | full _ hd hc' => simp [hd, hc'] at hc
    · next hm =>
      refine iff_of_false not_satisfied_errorThen fun h => ?_
      cases h with
      | empty h => exact hm h
      | full _ hd hc' => simp [hd, hc'] at hc
  · next hc =>
    rw [satisfied_elements hP (Nat.lt_succ_self _)]
    constructor
    · exact .full ho rfl (by simpa using hc)
    · intro h
      cases h with
      | empty _ _ hd hc' => simp [hd, hc'] at hc
      | full _ hd _ h => rwa [hd]

/-- Clauses up to the end of the line. Every keyword takes a character, so that the fuel lasts. -/
theorem satisfied_clauses {keywords : List String} {P : String → Passage}
    {clause : String → Cursor → Step} {finish : Option String → Cursor → Step}
    {last : Option String} (hP : ∀ w, (P w).ReadBy version (clause w))
    (hf : c.line.length < fuel) :
    (clauses keywords clause finish fuel last c).Satisfied ms e ↔
      ∃ ws ns os d, Passage.Clauses keywords P ws c ns d ∧
        (finish (ws.getLast?.or last) d).Satisfied os e ∧ ms = ns ++ os := by
  induction fuel generalizing c ms last with
  | zero => omega
  | succ fuel ih =>
    unfold clauses
    split
    · next hl =>
      have hl : c.line = [] := Cursor.lineContinues_eq_false_iff.mp (by simpa using hl)
      constructor
      · exact fun h => ⟨[], [], ms, c, .ends hl, h, rfl⟩
      · rintro ⟨ws, ns, os, d, h, h', rfl⟩
        cases h with
        | ends => exact h'
        | clause hl' => exact absurd hl hl'
    · next hl =>
      have hl : c.line ≠ [] := Cursor.lineContinues_iff.mp (by simpa using hl)
      have hshorter {w : String} {d e : Cursor} {ns : List String}
          (hw : (Argument.keyword keywords).Accepts c w d) (h : P w d ns e) :
          e.line.length < fuel := by
        obtain ⟨-, hw, rfl⟩ := hw
        have := Argument.length_line_lt_of_keyword hw ((hP w).ahead h)
        omega
      rw [satisfied_argument (Argument.ahead_keyword keywords c)]
      constructor
      · rintro ⟨w, d, hw, h⟩
        obtain ⟨ns, os, d', hclause, hrest, rfl⟩ := satisfied_andThen.mp h
        have hp := (hP w).satisfied.mp hclause
        obtain ⟨ws, ns', os', d'', hclauses, hfinish, rfl⟩ := (ih (hshorter hw hp)).mp hrest
        refine ⟨w :: ws, ns ++ ns', os', d'', .clause hl hw hp hclauses, ?_,
          (List.append_assoc ..).symm⟩
        rw [List.getLast?_cons]
        cases hlast : ws.getLast? <;> simpa [hlast] using hfinish
      · rintro ⟨ws, ns, os, d, h, hfinish, rfl⟩
        cases h with
        | ends hl' => exact absurd hl' hl
        | @clause _ d' e' _ w ws ns ns' _ hw hp hclauses =>
          refine ⟨w, d', hw, satisfied_andThen.mpr ⟨ns, ns' ++ os, e', (hP w).satisfied.mpr hp,
            (ih (hshorter hw hp)).mpr ⟨ws, ns', os, d, hclauses, ?_, rfl⟩,
            List.append_assoc ..⟩⟩
          rw [List.getLast?_cons] at hfinish
          cases hlast : ws.getLast? <;> simpa [hlast] using hfinish

/-- What is embedded in a line, all of which it has to read. -/
theorem satisfied_embedded {p : Position} (ho : s.Outspoken) :
    (Step.andThen { s.whole with cursor := d } (report (.json p))).Satisfied ms e ↔
      d = e ∧ ∃ c', s.Satisfied ms c' ∧ c'.atEnd = true := by
  have hmoved {ns : List String} {e' : Cursor} :
      Step.Satisfied { s.whole with cursor := d } ns e' ↔
        d = e' ∧ ∃ c', s.whole.Satisfied ns c' := by
    constructor
    · exact fun ⟨hc, ho, hm, he⟩ => ⟨he, _, ⟨hc.faultless, hc.only⟩, ho, hm, rfl⟩
    · rintro ⟨rfl, _, hc, ho, hm, -⟩
      exact ⟨⟨hc.faultless, hc.only⟩, ho, hm, rfl⟩
  have hreport {ns : List String} {e' : Cursor} :
      (report (.json p) d).Satisfied ns e' ↔ ns = [] ∧ d = e' := satisfied_report trivial
  rw [satisfied_andThen]
  constructor
  · rintro ⟨ns, os, e', h, h', rfl⟩
    obtain ⟨rfl, c', hs⟩ := hmoved.mp h
    obtain ⟨rfl, rfl⟩ := hreport.mp h'
    exact ⟨rfl, c', by rwa [List.append_nil, ← satisfied_whole ho]⟩
  · rintro ⟨rfl, c', hs⟩
    exact ⟨ms, [], d, hmoved.mpr ⟨rfl, c', (satisfied_whole ho).mpr hs⟩,
      hreport.mpr ⟨rfl, rfl⟩, (List.append_nil ms).symm⟩

end Step

/-- A well-formed rule runs without an error just where it accepts the text, and then it is done
where the accepted text ends. -/
theorem Rule.satisfied_run {version : Version} {env : Env} {command : Passage}
    (hn : command.ReadBy version env.nested) {r : Rule} {known : Option Look}
    (h : r.WellFormed env.dialect known) {c e : Cursor} {ms : List String}
    (hq : ∀ l ∈ known, l.holds ⟨c.line, .origin⟩ = true) :
    (r.run env c).Satisfied ms e ↔ r.Accepts env.dialect command c ms e := by
  have hreadBy {s : Rule} (hs : s.WellFormed env.dialect none)
      (ih : ∀ {c e ms}, (s.run env c).Satisfied ms e ↔ s.Accepts env.dialect command c ms e) :
      Passage.ReadBy version (s.Accepts env.dialect command) (s.run env) :=
    ⟨ih, fun d => sound_run hn.sound hs (known_none d), outspoken_run hn.outspoken s⟩
  induction r generalizing known c e ms with
  | done => exact satisfied_done
  | read a next ih =>
    rw [run, satisfied_argument (a.ahead_read h.1 c hq)]
    refine exists₂_congr fun x d => and_congr_right fun hx => ?_
    exact ih x (h.2 x (Argument.answers_of_read hx.answer)) (known_none d)
  | expect x next ih =>
    rw [run, satisfied_andThen]
    constructor
    · rintro ⟨ns, os, d, hx, hnext, rfl⟩
      obtain ⟨hat, rfl, rfl⟩ := satisfied_expect.mp hx
      exact ⟨hat, (ih h.2 (known_none _)).mp hnext⟩
    · rintro ⟨hat, hnext⟩
      exact ⟨[], ms, _, satisfied_expect.mpr ⟨hat, rfl, rfl⟩, (ih h.2 (known_none _)).mpr hnext,
        rfl⟩
  | spaces next ih | negation next ih => exact ih h (known_none _)
  | look q yes no ihy ihn =>
    unfold run Accepts
    split
    · next hyes => exact ihy h.2.1 (known_of_holds h.1 hyes)
    · exact ihn h.2.2 (known_none c)
  | complain err next ih => exact iff_of_false not_satisfied_errorThen id
  | refuse err | refuseLine err => exact iff_of_false not_satisfied_errorThen id
  | list b mayBeEmpty element next ihe ih =>
    have hlist {ns : List String} {d : Cursor} :
        (Step.list b mayBeEmpty (element.run env) c).Satisfied ns d ↔
          (element.Accepts env.dialect command).Lists b mayBeEmpty c ns d :=
      satisfied_list (hreadBy h.1 fun {d _ _} => ihe h.1 (known_none d))
    rw [run, satisfied_andThen]
    constructor
    · rintro ⟨ns, os, d, hs, hnext, rfl⟩
      obtain ⟨rfl, hlists⟩ := satisfied_unmarked.mp hs
      exact ⟨_, d, hlist.mp hlists, (ih _ (h.2 _) (known_none d)).mp hnext⟩
    · rintro ⟨entries, d, hs, hnext⟩
      have hs := hlist.mpr hs
      obtain rfl := hs.marks
      exact ⟨[], ms, d, satisfied_unmarked.mpr ⟨rfl, hs⟩,
        (ih _ (h.2 _) (known_none d)).mpr hnext, rfl⟩
  | mark name next ih =>
    have hmark : Step.Satisfied ⟨[], [name], .done, c⟩ [name] c :=
      ⟨⟨by simp, by simp [Step.Only]⟩, rfl, rfl, rfl⟩
    rw [run, satisfied_andThen]
    constructor
    · rintro ⟨ns, os, d, hs, hnext, rfl⟩
      obtain ⟨-, -, rfl, rfl⟩ := hs
      exact ⟨os, rfl, (ih h (known_none _)).mp hnext⟩
    · rintro ⟨ns, rfl, hnext⟩
      exact ⟨[name], ns, c, hmark, (ih h (known_none c)).mpr hnext, rfl⟩
  | clauses keywords clause next ihc ih =>
    have hclause (w : String) := hreadBy (h.1 w) fun {d _ _} => ihc w (h.1 w) (known_none d)
    rw [run, satisfied_clauses hclause (Nat.lt_succ_self _)]
    refine exists_congr fun ws => ?_
    rw [Option.or_none]
    constructor
    · rintro ⟨ns, os, d, hws, hnext, rfl⟩
      exact .intro hws ((ih _ (h.2 _) (known_none d)).mp hnext)
    · rintro ⟨hws, hnext⟩
      exact ⟨_, _, _, hws, (ih _ (h.2 _) (known_none _)).mpr hnext, rfl⟩
  | nested next ih =>
    rw [run, satisfied_andThen]
    constructor
    · rintro ⟨ns, os, d, hs, hnext, rfl⟩
      exact .intro (hn.satisfied.mp hs) ((ih h (known_none d)).mp hnext)
    · rintro ⟨hs, hnext⟩
      exact ⟨_, _, _, hn.satisfied.mpr hs, (ih h (known_none _)).mpr hnext, rfl⟩
  | embedded inner next ihi ih =>
    have ho := outspoken_run hn.outspoken inner ⟨Text.trimEnd c.line, c.position⟩
    rw [run, satisfied_andThen]
    constructor
    · rintro ⟨ns, os, d, hs, hnext, rfl⟩
      obtain ⟨rfl, c', hs, he⟩ := (satisfied_embedded ho).mp hs
      exact ⟨ns, os, c', (ihi h.1 (known_none _)).mp hs, he, (ih h.2 (known_none _)).mp hnext, rfl⟩
    · rintro ⟨ns, os, c', hs, he, hnext, rfl⟩
      exact ⟨ns, os, _, (satisfied_embedded ho).mpr ⟨rfl, c', (ihi h.1 (known_none _)).mpr hs, he⟩,
        (ih h.2 (known_none _)).mpr hnext, rfl⟩
  | noteTooDeep next ih =>
    have hclean : Event.IsClean (.notice (.jsonTooDeep c.position maxNesting)) := trivial
    have hnotice := (satisfied_report (c := c) hclean).mpr ⟨rfl, rfl⟩
    rw [run, satisfied_andThen_of_marks rfl]
    constructor
    · rintro ⟨d, ⟨-, -, -, rfl⟩, hnext⟩
      exact (ih h (known_none _)).mp hnext
    · exact fun hnext => ⟨c, hnotice, (ih h (known_none c)).mpr hnext⟩
  | ask next ih => exact ih env.dialect h hq
  | fault f => exact absurd h (by simp [WellFormed])

end BedrockCommand
