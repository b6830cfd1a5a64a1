import BedrockCommand.Proofs.Argument.Relabelling
import BedrockCommand.Proofs.Grammar.Plain
/-!
Rules in texts in which control characters stand for one another: a rule in plain words does in one
text what it does in the other.
-/
namespace BedrockCommand.Relabelling

variable (φ : Relabelling)

/-- A token of another text. -/
def token (t : Token) : Token :=
  { t with value := φ.value t.value }

/-- What is reported about another text. Warnings and notices quote nothing but names of
commands. -/
def event : Event → Event
  | .token t => .token (φ.token t)
  | e => e

/-- A step in another text. -/
def step (s : Step) : Step :=
  { s with events := s.events.map φ.event, cursor := φ.cursor s.cursor }

/-- What does the same in both texts. -/
def Commutes (f : Cursor → Step) : Prop :=
  ∀ c, f (φ.cursor c) = φ.step (f c)

theorem step_andThen {f : Cursor → Step} (hf : φ.Commutes f) (s : Step) :
    (φ.step s).andThen f = φ.step (s.andThen f) := by
  obtain ⟨events, marks, outcome, c⟩ := s
  cases outcome with
  | done => simp [Step.andThen, step, hf c]
  | halted | failed => rfl

theorem step_settle (s : Step) : (φ.step s).settle = φ.step s.settle := by
  obtain ⟨events, marks, outcome, c⟩ := s
  cases outcome <;> rfl

theorem map_warningEvents (w : Option WarningKind) (s : Span) :
    (Step.warningEvents w s).map φ.event = Step.warningEvents w s := by
  cases w <;> rfl

theorem token_cursor (kind : Option TokenKind) (v : TokenValue) (w : Option WarningKind)
    (c d : Cursor) : Step.token kind (φ.value v) w (φ.cursor c) (φ.cursor d) =
      φ.step (Step.token kind v w c d) := by
  simp only [Step.token, position_cursor]
  split
  · rfl
  · rfl
  · simp only [step, List.map_cons, map_warningEvents]
    rfl

theorem error_cursor (e : SyntaxError) (c d : Cursor) :
    Step.error (φ.error e) (φ.cursor c) (φ.cursor d) = φ.step (Step.error e c d) :=
  φ.token_cursor (some .error) (.error e) none c d

namespace Commutes

variable {φ} {f g : Cursor → Step}

theorem done : φ.Commutes Step.done := fun _ => rfl

theorem halt : φ.Commutes Step.halt := fun _ => rfl

theorem fail (fault : Fault) : φ.Commutes (Step.fail fault) := fun _ => rfl

theorem andThen (hf : φ.Commutes f) (hg : φ.Commutes g) :
    φ.Commutes fun c => (f c).andThen g := by
  intro c
  simp only [hf c, φ.step_andThen hg]

/-- What comes next may depend on where the step began. -/
theorem andThenAt (hf : φ.Commutes f) {g : Cursor → Cursor → Step} (hg : ∀ c, φ.Commutes (g c))
    (h : ∀ c, g (φ.cursor c) = g c) : φ.Commutes fun c => (f c).andThen (g c) := by
  intro c
  simp only [hf c, h c, φ.step_andThen (hg c)]

theorem settle (hf : φ.Commutes f) : φ.Commutes fun c => (f c).settle := by
  intro c
  simp only [hf c, φ.step_settle]

theorem comp (hf : φ.Commutes f) {m : Cursor → Cursor}
    (hm : ∀ c, m (φ.cursor c) = φ.cursor (m c)) : φ.Commutes fun c => f (m c) := by
  intro c
  simpa only [hm c] using hf (m c)

theorem ite {P : Cursor → Prop} [DecidablePred P] (hP : ∀ c, P (φ.cursor c) ↔ P c)
    (hf : φ.Commutes f) (hg : φ.Commutes g) : φ.Commutes fun c => if P c then f c else g c := by
  intro c
  by_cases hc : P c
  · simpa only [if_pos hc, if_pos ((hP c).mpr hc)] using hf c
  · simpa only [if_neg hc, if_neg ((hP c).not.mpr hc)] using hg c

/-- The number of rounds that the rest of the line allows is the same. -/
theorem onLine {f : Nat → Cursor → Step} (hf : ∀ fuel, φ.Commutes (f fuel)) :
    φ.Commutes fun c => f (c.line.length + 1) c := by
  intro c
  simpa only [φ.length_line_cursor] using hf _ c

section

variable {e : SyntaxError} (he : e.isFixed = true)
include he

theorem errorTo {m : Cursor → Cursor} (hm : ∀ c, m (φ.cursor c) = φ.cursor (m c)) :
    φ.Commutes fun c => Step.error e c (m c) := by
  intro c
  have herror := φ.error_cursor e c (m c)
  rwa [φ.error_of_isFixed he, ← hm c] at herror

theorem complain : φ.Commutes (Step.complain e) :=
  errorTo he fun _ => rfl

theorem refuse : φ.Commutes (Step.refuse e) :=
  (complain he).andThen halt

theorem sweep : φ.Commutes (Step.sweep e) :=
  errorTo he φ.toLineEnd_cursor

end

theorem argument {d : Dialect} (hd : d.selectorOptions.all isPlainWord = true) {a : Argument}
    (ha : d.Allows a) {next : a.Answer → Cursor → Step} (h : ∀ x, φ.Commutes (next x)) :
    φ.Commutes fun c => Step.argument a c next := by
  intro c
  simp only [Step.argument, φ.judges_read hd ha c, reading, φ.token_cursor]
  refine φ.step_andThen (fun c' => ?_) _
  split
  · exact h _ c'
  · rfl

theorem expect {x : Char} (hx : isPlainChar x = true) : φ.Commutes (Step.expect x) := by
  have hinert := notMem_inertChars_of_isPlainChar hx
  intro c
  rw [Step.expect, Step.expect, Reader.symbol_apply, Reader.symbol_apply,
    φ.isAt_cursor c hinert, φ.advance_cursor, φ.skipSpaces_cursor]
  cases c.isAt x with
  | true => rfl
  | false => exact refuse rfl c

/-! ## Lists and clauses -/

theorem close : φ.Commutes Step.close := by
  intro c
  rw [Step.close, Step.close, φ.advance_cursor, φ.skipSpaces_cursor]
  rfl

section

variable {b : Brackets} {element : Cursor → Step}

theorem closing_notMem (b : Brackets) : b.closing ∉ inertChars := by
  cases b <;> decide

theorem opening_notMem (b : Brackets) : b.opening ∉ inertChars := by
  cases b <;> decide

theorem afterElement (hf : φ.Commutes f) (fuel : Nat) :
    φ.Commutes (Step.afterElement b f fuel) := by
  induction fuel with
  | zero => exact fail _
  | succ fuel ih =>
    have hclosing (c : Cursor) := φ.isAt_cursor c (closing_notMem b)
    refine .ite (fun c => by rw [hclosing c]) close (.ite (fun c => ?_) (.ite (fun c => ?_)
      (andThen (errorTo rfl φ.advance_cursor) (comp close φ.skipSpaces_cursor))
      (comp hf φ.advance_cursor)) (.ite (fun c => by rw [φ.lineContinues_cursor])
      (refuse rfl) (andThen (errorTo rfl fun c => φ.toSeparator_cursor c (closing_notMem b)) ih)))
    · rw [φ.isAt_cursor c (by decide)]
    · rw [Step.isTrailing, Step.isTrailing, φ.advance_cursor, φ.skipSpaces_cursor, hclosing]

theorem elements (he : φ.Commutes element) (fuel : Nat) :
    φ.Commutes (Step.elements b element fuel) := by
  induction fuel with
  | zero => exact fail _
  | succ fuel ih =>
    have hgoesOn : φ.Commutes fun c => (element c.skipSpaces).settle.andThen fun c =>
        Step.afterElement b (Step.elements b element fuel) (c.line.length + 1) c :=
      (comp he φ.skipSpaces_cursor).settle.andThen (onLine (afterElement ih))
    refine ite (P := fun c => (element c.skipSpaces).outcome = .halted ∧
      (element c.skipSpaces).cursor.lineContinues = false) (fun c => ?_)
      (comp he φ.skipSpaces_cursor) hgoesOn
    rw [φ.skipSpaces_cursor, he c.skipSpaces]
    simp only [step, φ.lineContinues_cursor]

theorem list (mayBeEmpty : Bool) (he : φ.Commutes element) :
    φ.Commutes (Step.list b mayBeEmpty element) := by
  have hinside : φ.Commutes fun c => if c.isAt b.closing then
      if mayBeEmpty then Step.close c else (Step.complain .emptyList c).andThen Step.close
      else Step.elements b element (c.line.length + 1) c :=
    .ite (fun c => by rw [φ.isAt_cursor c (closing_notMem b)])
      (.ite (fun _ => Iff.rfl) close ((complain rfl).andThen close)) (onLine (elements he))
  refine .ite (fun c => by rw [φ.isAt_cursor c (opening_notMem b)]) (refuse rfl) ?_
  exact comp hinside fun c => by rw [φ.advance_cursor, φ.skipSpaces_cursor]

end

theorem clauses {d : Dialect} (hd : d.selectorOptions.all isPlainWord = true)
    {keywords : List String} (hk : keywords.all isPlainWord = true)
    {clause : String → Cursor → Step} {finish : Option String → Cursor → Step}
    (hc : ∀ w, φ.Commutes (clause w)) (hf : ∀ w, φ.Commutes (finish w)) (fuel : Nat)
    (last : Option String) : φ.Commutes (Step.clauses keywords clause finish fuel last) := by
  induction fuel generalizing last with
  | zero => exact fail _
  | succ fuel ih =>
    refine .ite (fun c => by rw [φ.lineContinues_cursor]) (hf last) ?_
    exact argument (a := .keyword keywords) hd hk fun w => (hc w).andThen (ih (some w))

theorem whole (hf : φ.Commutes f) : φ.Commutes fun c => (f c).whole :=
  hf.settle.andThen (.ite (fun c => by rw [φ.atEnd_cursor]) done (sweep rfl))

end Commutes

/-- Plain questions have the same answer in both texts. -/
theorem holds_cursor {q : Look} (hq : q.isPlain = true) (c : Cursor) :
    q.holds (φ.cursor c) = q.holds c := by
  have hat {x : Char} (hx : isPlainChar x = true) :=
    φ.isAt_cursor c (notMem_inertChars_of_isPlainChar hx)
  have hnumber : Reader.startsNumber (φ.cursor c) = Reader.startsNumber c :=
    φ.head?_any_cursor c (blind_of_all false (by decide))
  have hword {w : String} (hw : isPlainWord w = true) {p : Char → Bool} (hp : Blind p) :
      decide ((φ.cursor c).ahead p = w.toList) = decide (c.ahead p = w.toList) := by
    rw [φ.ahead_cursor c hp]
    exact decide_eq_decide.mpr (φ.map_eq_iff (lacksInert_of_isPlainWord hw))
  cases q with
  | line => exact φ.lineContinues_cursor c
  | char x => exact hat hq
  | number => exact hnumber
  | coordinate => rw [Look.holds, hnumber, hat (by decide), hat (by decide)]; rfl
  | angle => rw [Look.holds, hnumber, hat (by decide)]; rfl
  | text => rw [Look.holds, φ.terminated_cursor, hat (by decide)]; rfl
  | comparison => rw [Look.holds, hat (by decide), hat (by decide), hat (by decide)]; rfl
  | word w => exact hword hq blind_isTerminating.not
  | jsonNumber => rw [Look.holds, hat (by decide), φ.head?_any_cursor c blind_isDigit]; rfl
  | jsonConstant w => exact hword hq (blind_of_all false (by decide))

/-- A rule in plain words does in one text what it does in the other, if the commands inside it
do. -/
theorem commutes_run {env : Env} (hd : env.dialect.selectorOptions.all isPlainWord = true)
    {nests : Prop} (hn : nests → φ.Commutes env.nested) {r : Rule}
    (h : r.Plain env.dialect nests) : φ.Commutes (r.run env) := by
  induction r with
  | done => exact .done
  | read a next ih => exact .argument hd h.1 fun x => ih x (h.2 x)
  | expect x next ih => exact (Commutes.expect h.1).andThen (ih h.2)
  | spaces next ih => exact (ih h).comp φ.skipSpaces_cursor
  | negation next ih => exact (ih h).comp Keeps.negation.cursor
  | look q yes no ihy ihn =>
    exact .ite (fun c => by rw [φ.holds_cursor h.1]) (ihy h.2.1) (ihn h.2.2)
  | complain e next ih => exact (Commutes.complain h.1).andThen (ih h.2)
  | refuse e => exact .refuse h
  | refuseLine e => exact (Commutes.sweep h).andThen .halt
  | list b mayBeEmpty element next ihe ih =>
    intro c
    have hlist := Commutes.list (b := b) mayBeEmpty (ihe h.1) c
    simp only [Rule.run, hlist]
    exact φ.step_andThen (ih _ (h.2 _)) (Step.unmarked _)
  | mark name next ih =>
    have hmark : φ.Commutes fun c => ⟨[], [name], .done, c⟩ := fun _ => rfl
    exact hmark.andThen (ih h)
  | clauses keywords clause next ihc ih =>
    exact .onLine fun fuel =>
      .clauses hd h.1 (fun w => ihc w (h.2.1 w)) (fun w => ih w (h.2.2 w)) fuel none
  | nested next ih => exact (hn h.1).andThen (ih h.2)
  | embedded inner next ihi ih =>
    have hinner : φ.Commutes fun c => { (inner.run env ⟨Text.trimEnd c.line, c.position⟩).whole with
        cursor := c.toLineEnd } := by
      intro c
      simp only [φ.line_cursor, φ.trimEnd_map, position_cursor, φ.toLineEnd_cursor]
      exact congrArg (fun s : Step => { s with cursor := φ.cursor c.toLineEnd })
        ((ihi h.1).whole ⟨Text.trimEnd c.line, c.position⟩)
    have hreport (p : Position) : φ.Commutes (Step.report (.json p)) := fun _ => rfl
    exact (hinner.andThenAt (fun c => hreport c.position) fun _ => rfl).andThen (ih h.2)
  | noteTooDeep next ih =>
    have hreport : φ.Commutes fun c =>
        Step.report (.notice (.jsonTooDeep c.position maxNesting)) c := fun _ => rfl
    exact hreport.andThen (ih h)
  | ask next ih => exact ih _ h
  | fault f => exact .fail f

end BedrockCommand.Relabelling
