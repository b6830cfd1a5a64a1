import BedrockCommand.Proofs.Rule.Only
import BedrockCommand.Proofs.Rule.Orderly
import BedrockCommand.Proofs.Rule.Run
/-!
What holds of all that is reported along a line. A property of the reports that every single one of
them keeps, from a place of some sort, is kept by every rule from there on.
-/
namespace BedrockCommand

open Look (known_none known_of_holds)

/-- A property of lists of events that two of them together keep, and with them errors, notices and
what arguments become at places of some sort. Such places are followed by such places. -/
structure Event.Invariant (R : Cursor → Prop) (allowed : Argument → Bool)
    (P : List Event → Prop) : Prop where
  nil : P []
  append {es fs : List Event} (h : P es) (h' : P fs) : P (es ++ fs)
  error (e : SyntaxError) (s : Span) : P [.token ⟨.error, .error e, s⟩]
  warning (w : Warning) : P [.warning w]
  notice (n : Notice) : P [.notice n]
  json (p : Position) : P [.json p]
  onward {c d : Cursor} (h : R c) (ha : c.Ahead d) : R d
  argument {a : Argument} {known : Option Look} {c : Cursor} {kind : TokenKind} (hc : R c)
    (ha : allowed a = true) (hf : a.FitsAfter known)
    (hq : ∀ l ∈ known, l.holds ⟨c.line, .origin⟩ = true) (hk : (a.read c).kind = some kind) :
    P [.token ⟨kind, (a.read c).value, ⟨c.position, (a.read c).cursor.position⟩⟩]

/-- A step whose reports have a property. -/
def Step.Keeps (P : List Event → Prop) (s : Step) : Prop :=
  P s.events

namespace Step.Keeps

variable {version : Version} {R : Cursor → Prop} {allowed : Argument → Bool}
  {P : List Event → Prop} {s : Step} {f : Cursor → Step} {c d : Cursor}
  (hp : Event.Invariant R allowed P)
include hp

theorem silent (h : s.events = []) : s.Keeps P := by
  rw [Keeps, h]
  exact hp.nil

theorem andThen (hs : s.Keeps P) (hf : s.outcome = .done → (f s.cursor).Keeps P) :
    (s.andThen f).Keeps P := by
  by_cases hd : s.outcome = .done
  · unfold Keeps
    rw [events_andThen_of_done hd]
    exact hp.append hs (hf hd)
  · rwa [andThen_of_ne_done hd]

omit hp in
theorem settle (h : s.Keeps P) : s.settle.Keeps P := by
  rwa [Keeps, events_settle]

theorem warnings (w : Option WarningKind) (span : Span) : P (warningEvents w span) := by
  cases w with
  | none => exact hp.nil
  | some kind => exact hp.warning _

theorem error (e : SyntaxError) (c d : Cursor) : (Step.error e c d).Keeps P := by
  unfold Step.error Step.token
  split
  · exact hp.nil
  · exact hp.nil
  · next hk _ =>
    obtain rfl := Option.some.inj hk
    exact hp.error e _

theorem sweep (e : SyntaxError) (c : Cursor) : (Step.sweep e c).Keeps P :=
  error hp e c _

theorem complain (e : SyntaxError) (c : Cursor) : (Step.complain e c).Keeps P :=
  error hp e c c

theorem errorHalt (e : SyntaxError) (c d : Cursor) : ((Step.error e c d).andThen .halt).Keeps P :=
  (error hp e c d).andThen hp fun _ => silent hp rfl

theorem refuse (e : SyntaxError) (c : Cursor) : (Step.refuse e c).Keeps P :=
  errorHalt hp e c c

theorem expect (x : Char) (c : Cursor) : (Step.expect x c).Keeps P := by
  unfold Step.expect
  split
  · exact silent hp rfl
  · exact refuse hp _ _

/-! ## Lists -/

theorem afterElement {b : Brackets} (hf : ∀ d, R d → (f d).Keeps P) (fuel : Nat) (hc : R c) :
    (Step.afterElement b f fuel c).Keeps P := by
  induction fuel generalizing c with
  | zero => exact silent hp rfl
  | succ fuel ih =>
    unfold Step.afterElement
    split
    · exact silent hp rfl
    split
    · next hcomma =>
      split
      · exact (error hp _ _ _).andThen hp fun _ => silent hp rfl
      · exact hf _ (hp.onward hc (Cursor.ahead_advance (by decide) hcomma))
    split
    · exact refuse hp _ _
    · have hahead := c.ahead_toSeparator b.closing
      refine (error hp _ _ _).andThen hp fun _ => ?_
      rw [error_ahead _ hahead]
      exact ih (hp.onward hc hahead)

theorem elements {b : Brackets} (hs : ∀ d, (f d).Sound version d)
    (hf : ∀ d, R d → (f d).Keeps P) (fuel : Nat) (hc : R c) :
    (Step.elements b f fuel c).Keeps P := by
  induction fuel generalizing c with
  | zero => exact silent hp rfl
  | succ fuel ih =>
    have hstart := hp.onward hc c.ahead_skipSpaces
    unfold Step.elements
    simp only
    split
    · exact hf _ hstart
    · refine (hf _ hstart).settle.andThen hp fun _ => ?_
      exact afterElement hp (fun _ => ih) _ (hp.onward hstart (hs _).settle.ahead)

theorem list {b : Brackets} {mayBeEmpty : Bool} (hs : ∀ d, (f d).Sound version d)
    (hf : ∀ d, R d → (f d).Keeps P) (hc : R c) : (Step.list b mayBeEmpty f c).Keeps P := by
  unfold Step.list
  split
  · exact refuse hp _ _
  next ho =>
  have hopen : c.isAt b.opening = true := by simpa using ho
  have hahead := Cursor.ahead_advance (ne_newline_of_isStructural (isStructural_opening b)) hopen
  simp only
  split
  · split
    · exact silent hp rfl
    · exact (complain hp _ _).andThen hp fun _ => silent hp rfl
  · exact elements hp hs hf _ (hp.onward hc (hahead.trans c.advance.ahead_skipSpaces))

/-! ## Arguments -/

theorem argument {a : Argument} {known : Option Look} {next : a.Answer → Cursor → Step}
    (ha : allowed a = true) (hf : a.FitsAfter known)
    (hq : ∀ l ∈ known, l.holds ⟨c.line, .origin⟩ = true) (hc : R c)
    (hn : ∀ x, (a.read c).answer = some x → (next x (a.read c).cursor).Keeps P) :
    (Step.argument a c next).Keeps P := by
  obtain ⟨kind, hk⟩ := a.exists_kind_read c
  unfold Step.argument
  simp only [hk, token_ahead _ _ _ (a.ahead_read hf c hq)]
  refine andThen hp (hp.append (hp.argument hc ha hf hq hk) (warnings hp _ _)) fun _ => ?_
  split
  · next x hx => exact hn x hx
  · exact silent hp rfl

theorem clauses {keywords : List String} {clause : String → Cursor → Step}
    {finish : Option String → Cursor → Step} (hk : allowed (.keyword keywords) = true)
    (hs : ∀ w d, (clause w d).Sound version d) (hcl : ∀ w d, R d → (clause w d).Keeps P)
    (hf : ∀ w d, R d → (finish w d).Keeps P) (fuel : Nat) (last : Option String) (hc : R c) :
    (Step.clauses keywords clause finish fuel last c).Keeps P := by
  induction fuel generalizing c last with
  | zero => exact silent hp rfl
  | succ fuel ih =>
    unfold Step.clauses
    split
    · exact hf last c hc
    · have hahead := Argument.ahead_keyword keywords c
      refine argument hp hk (Argument.fitsAfter_keyword keywords) (known_none c) hc fun w _ => ?_
      refine (hcl w _ (hp.onward hc hahead)).andThen hp fun _ => ?_
      exact ih (some w) (hp.onward hc (hahead.trans (hs w _).ahead))

theorem whole (h : s.Keeps P) : s.whole.Keeps P := by
  refine h.settle.andThen hp fun _ => ?_
  split
  · exact silent hp rfl
  · exact sweep hp _ _

end Step.Keeps

/-- What a rule reports from a place of the sort has the property, if this holds of the commands
inside it and if JSON texts keep the property anywhere. -/
theorem Rule.keeps_run {version : Version} {env : Env} {R : Cursor → Prop}
    {allowed : Argument → Bool} {P : List Event → Prop} {nests : Prop}
    (hp : Event.Invariant R allowed P) (hj : Event.Invariant (fun _ => True) Argument.isJson P)
    (hs : ∀ c, (env.nested c).Sound version c)
    (hn : nests → ∀ c, R c → (env.nested c).Keeps P) {r : Rule} {known : Option Look}
    {flush : Bool} (hw : r.WellFormed env.dialect known) (ho : r.Orderly allowed nests flush)
    {c : Cursor} (hq : ∀ l ∈ known, l.holds ⟨c.line, .origin⟩ = true) (hc : R c) :
    (r.run env c).Keeps P := by
  induction r generalizing R allowed nests known flush c with
  | done => exact .silent hp rfl
  | read a next ih =>
    refine .argument hp ho.1 hw.1 hq hc fun x hx => ?_
    exact ih x hp hn (hw.2 x (Argument.answers_of_read hx)) (ho.2 x) (known_none _)
      (hp.onward hc (a.ahead_read hw.1 c hq))
  | expect x next ih =>
    have hsound : (Step.expect x c).Sound version c := .expect hw.1 c
    refine (Step.Keeps.expect hp x c).andThen hp fun _ => ?_
    exact ih hp hn hw.2 ho.2 (known_none _) (hp.onward hc hsound.ahead)
  | spaces next ih => exact ih hp hn hw ho (known_none _) (hp.onward hc c.ahead_skipSpaces)
  | negation next ih =>
    exact ih hp hn hw ho (known_none _)
      (hp.onward hc (Reader.OnLine.ahead Reader.onLine_negation c))
  | look q yes no ihy ihn =>
    obtain ⟨-, -, hyes, hno⟩ := ho
    unfold run
    split
    · next hholds => exact ihy hp hn hw.2.1 hyes (known_of_holds hw.1 hholds) hc
    · exact ihn hp hn hw.2.2 hno (known_none c) hc
  | complain e next ih =>
    refine (Step.Keeps.complain hp e c).andThen hp fun _ => ih hp hn hw ho (known_none _) ?_
    rwa [Step.complain, Step.error_ahead e (.refl c)]
  | refuse e => exact .refuse hp e c
  | refuseLine e => exact .errorHalt hp e c _
  | list b mayBeEmpty element next ihe ih =>
    have helement (d : Cursor) : (element.run env d).Sound version d :=
      sound_run hs hw.1 (known_none d)
    have hlist : (Step.list b mayBeEmpty (element.run env) c).Keeps P :=
      .list hp helement (fun d => ihe hp hn hw.1 ho.1 (known_none d)) hc
    refine Step.Keeps.andThen (s := (Step.list ..).unmarked) hp hlist fun _ => ?_
    exact ih _ hp hn (hw.2 _) (ho.2 _) (known_none _)
      (hp.onward hc (Step.Sound.list helement c).ahead)
  | mark name next ih =>
    exact Step.Keeps.andThen (s := ⟨[], _, _, _⟩) hp hp.nil fun _ =>
      ih hp hn hw ho (known_none _) hc
  | clauses keywords clause next ihc ih =>
    exact .clauses hp ho.2.1 (fun w d => sound_run hs (hw.1 w) (known_none d))
      (fun w d => ihc w hp hn (hw.1 w) (ho.2.2.1 w) (known_none d))
      (fun w d => ih w hp hn (hw.2 w) (ho.2.2.2 w) (known_none d)) _ none hc
  | nested next ih =>
    refine (hn ho.1 c hc).andThen hp fun _ => ?_
    exact ih hp hn hw ho.2 (known_none _) (hp.onward hc (hs c).ahead)
  | embedded inner next ihi ih =>
    have hsound : (inner.run env ⟨Text.trimEnd c.line, c.position⟩).Sound version
        ⟨Text.trimEnd c.line, c.position⟩ := sound_run hs hw.1 (known_none _)
    have hinner := ihi hj False.elim hw.1 ho.1
      (known_none ⟨Text.trimEnd c.line, c.position⟩) trivial
    have hjson : (Step.andThen { (inner.run env _).whole with cursor := c.toLineEnd }
        (Step.report (.json c.position))).Keeps P :=
      Step.Keeps.andThen (s := { (inner.run env _).whole with cursor := c.toLineEnd }) hp
        (hinner.whole hj) fun _ => hp.json _
    exact hjson.andThen hp fun _ => ih hp hn hw.2 ho.2 (known_none _)
      (hp.onward hc (Step.Sound.embedded hsound).ahead)
  | noteTooDeep next ih =>
    exact Step.Keeps.andThen (s := Step.report _ c) hp (hp.notice _) fun _ =>
      ih hp hn hw ho (known_none _) hc
  | ask next ih => exact ih env.dialect hp hn hw (ho _) hq hc
  | fault f => exact .silent hp rfl

end BedrockCommand
