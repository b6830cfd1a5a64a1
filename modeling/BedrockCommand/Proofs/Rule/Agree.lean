import BedrockCommand.Proofs.Rule.Only
import BedrockCommand.Proofs.Rule.Sound
/-!
Steps that report the same in different places: the events of one are the events of the other,
moved. Where the two steps end is compared by a relation of cursors.
-/
namespace BedrockCommand

/-- A span taken elsewhere. -/
def Span.moved (m : Position → Position) (s : Span) : Span :=
  ⟨m s.start, m s.stop⟩

/-- A notice about another place. -/
def Notice.moved (m : Position → Position) : Notice → Notice
  | commandRead span name typed => commandRead (span.moved m) name typed
  | commandTooDeep place limit => commandTooDeep (m place) limit
  | jsonTooDeep place limit => jsonTooDeep (m place) limit

/-- The same event in another place. -/
def Event.moved (m : Position → Position) : Event → Event
  | token t => token { t with span := t.span.moved m }
  | warning w => warning { w with span := w.span.moved m }
  | notice n => notice (n.moved m)
  | json p => json (m p)

@[simp] theorem Event.moved_id : Event.moved id = id := by
  funext e
  cases e with
  | notice n => cases n <;> rfl
  | _ => rfl

theorem Step.map_warningEvents (m : Position → Position) (w : Option WarningKind) (s : Span) :
    (Step.warningEvents w s).map (Event.moved m) = Step.warningEvents w (s.moved m) := by
  cases w <;> rfl

/-- A relation of cursors of which one is where a map takes the other. -/
def Cursor.Follow (R : Cursor → Cursor → Prop) (m : Position → Position) : Prop :=
  ∀ {c d}, R c d → d.position = m c.position

/-- Two relations of cursors, one around a list and one inside it: what a list asks about such
cursors has the same answer, and where it moves they stay in a relation. -/
structure Cursor.Nests (b : Brackets) (R' R : Cursor → Cursor → Prop) : Prop where
  isAt_opening : ∀ {c d}, R' c d → d.isAt b.opening = c.isAt b.opening
  opening : ∀ {c d}, R' c d → c.isAt b.opening = true → R c.advance d.advance
  spaces : ∀ {c d}, R c d → R c.skipSpaces d.skipSpaces
  isAt_closing : ∀ {c d}, R c d → d.isAt b.closing = c.isAt b.closing
  isAt_comma : ∀ {c d}, R c d → d.isAt ',' = c.isAt ','
  lineContinues : ∀ {c d}, R c d → d.lineContinues = c.lineContinues
  comma : ∀ {c d}, R c d → c.isAt ',' = true → R c.advance d.advance
  separator : ∀ {c d}, R c d → R (c.toSeparator b.closing) (d.toSeparator b.closing)
  closing : ∀ {c d}, R c d → c.isAt b.closing = true →
    R' c.advance.skipSpaces d.advance.skipSpaces
  lineEnd : ∀ {c d}, R c d → c.lineContinues = false → R' c d

/-- Two steps that report the same, one where a map takes the other, and end in the same way at
cursors in a relation. -/
structure Step.Agree (R : Cursor → Cursor → Prop) (m : Position → Position) (s t : Step) :
    Prop where
  events : t.events = s.events.map (Event.moved m)
  marks : t.marks = s.marks
  outcome : t.outcome = s.outcome
  cursor : R s.cursor t.cursor

namespace Step.Agree

variable {R R' : Cursor → Cursor → Prop} {m : Position → Position} {c c' d d' : Cursor} {s t : Step}
  {next next' : Cursor → Step}

theorem done (h : R c d) : Agree R m (Step.done c) (Step.done d) :=
  ⟨rfl, rfl, rfl, h⟩

theorem halt (h : R c d) : Agree R m (Step.halt c) (Step.halt d) :=
  ⟨rfl, rfl, rfl, h⟩

theorem fail (f : Fault) (h : R c d) : Agree R m (Step.fail f c) (Step.fail f d) :=
  ⟨rfl, rfl, rfl, h⟩

theorem report {e e' : Event} (he : e' = e.moved m) (h : R c d) :
    Agree R m (Step.report e c) (Step.report e' d) :=
  ⟨by simp [Step.report, he], rfl, rfl, h⟩

/-- What goes on from where a step is done may end at cursors in another relation. -/
theorem andThen_of_done (h : Agree R m s t) (hd : s.outcome = .done)
    (hn : R s.cursor t.cursor → Agree R' m (next s.cursor) (next' t.cursor)) :
    Agree R' m (s.andThen next) (t.andThen next') := by
  have hn := hn h.cursor
  simp only [Step.andThen, h.outcome, hd]
  exact ⟨by simp [h.events, hn.events], by simp [h.marks, hn.marks], hn.outcome, hn.cursor⟩

theorem andThen (h : Agree R m s t)
    (hn : R s.cursor t.cursor → Agree R m (next s.cursor) (next' t.cursor)) :
    Agree R m (s.andThen next) (t.andThen next') := by
  by_cases hd : s.outcome = .done
  · exact h.andThen_of_done hd hn
  · rw [andThen_of_ne_done hd, andThen_of_ne_done (h.outcome ▸ hd)]
    exact h

theorem settle (h : Agree R m s t) : Agree R m s.settle t.settle := by
  unfold Step.settle
  rw [h.outcome]
  split
  · exact ⟨h.events, h.marks, rfl, h.cursor⟩
  · exact h

theorem unmarked (h : Agree R m s t) : Agree R m s.unmarked t.unmarked :=
  ⟨h.events, rfl, h.outcome, h.cursor⟩

section

variable (hR : Cursor.Follow R m)
include hR

theorem token (kind : TokenKind) (value : TokenValue) (w : Option WarningKind) (h : R c d)
    (h' : R c' d') (hc : c.Ahead c') (hd : d.Ahead d') :
    Agree R m (Step.token (some kind) value w c c') (Step.token (some kind) value w d d') := by
  rw [token_ahead _ _ _ hc, token_ahead _ _ _ hd]
  refine ⟨?_, rfl, rfl, h'⟩
  simp only [List.map_cons, map_warningEvents, Event.moved, Span.moved, hR h, hR h']

theorem error (e : SyntaxError) (h : R c d) (h' : R c' d') (hc : c.Ahead c') (hd : d.Ahead d') :
    Agree R m (Step.error e c c') (Step.error e d d') :=
  token hR _ _ _ h h' hc hd

theorem errorThen {e : SyntaxError} (h : R c d) (h' : R c' d') (hc : c.Ahead c') (hd : d.Ahead d')
    (hn : Agree R' m (next c') (next' d')) :
    Agree R' m ((Step.error e c c').andThen next) ((Step.error e d d').andThen next') := by
  refine (error hR e h h' hc hd).andThen_of_done (by rw [error_ahead e hc]) fun _ => ?_
  rw [error_ahead e hc, error_ahead e hd]
  exact hn

theorem complain (e : SyntaxError) (h : R c d) :
    Agree R m (Step.complain e c) (Step.complain e d) :=
  error hR e h h (.refl c) (.refl d)

theorem refuse (e : SyntaxError) (h : R c d) : Agree R m (Step.refuse e c) (Step.refuse e d) :=
  (complain hR e h).andThen halt

theorem expect {x : Char} (hx : d.isAt x = c.isAt x) (h : R c d)
    (h' : c.isAt x = true → R c.advance.skipSpaces d.advance.skipSpaces) :
    Agree R m (Step.expect x c) (Step.expect x d) := by
  unfold Step.expect
  rw [Reader.symbol_apply, Reader.symbol_apply, hx]
  cases hat : c.isAt x with
  | true => exact done (h' hat)
  | false => exact refuse hR _ h

/-- Two readings of an argument that differ in nothing but where they end. -/
theorem argument {a : Argument} {next next' : a.Answer → Cursor → Step} (h : R c d)
    (hr : a.read d = (a.read c).endAt (a.read d).cursor)
    (h' : R (a.read c).cursor (a.read d).cursor) (hc : c.Ahead (a.read c).cursor)
    (hd : d.Ahead (a.read d).cursor)
    (hn : ∀ x, (a.read c).answer = some x →
      Agree R m (next x (a.read c).cursor) (next' x (a.read d).cursor)) :
    Agree R m (Step.argument a c next) (Step.argument a d next') := by
  obtain ⟨kind, hk⟩ := a.exists_kind_read c
  have hk' : (a.read d).kind = some kind := (congrArg Reading.kind hr).trans hk
  have hvalue : (a.read d).value = (a.read c).value :=
    (congrArg Reading.value hr).trans rfl
  have hwarning : (a.read d).warning = (a.read c).warning :=
    (congrArg Reading.warning hr).trans rfl
  have hanswer : (a.read d).answer = (a.read c).answer :=
    (congrArg Reading.answer hr).trans rfl
  unfold Step.argument
  simp only [hk, hk', hvalue, hwarning, hanswer]
  refine (token hR _ _ _ h h' hc hd).andThen fun _ => ?_
  rw [token_ahead _ _ _ hc, token_ahead _ _ _ hd]
  split
  · next x hx => exact hn x hx
  · exact halt h'

end

/-! ## Lists -/

section

variable {b : Brackets} {element element' : Cursor → Step} {fuel fuel' : Nat} {version : Version}
  (hR : Cursor.Follow R m) (hR' : Cursor.Follow R' m) (hb : Cursor.Nests b R' R)

include hb in
theorem close (h : R c d) (hc : c.isAt b.closing = true) :
    Agree R' m (Step.close c) (Step.close d) :=
  done (hb.closing h hc)

include hR hR' hb

/-- What is left of the lines need not be equally long, so that the fuel may differ. -/
theorem afterElement (h : R c d) (hf : c.line.length < fuel) (hf' : d.line.length < fuel')
    (hn : ∀ {c' d'}, R c' d' → c'.line.length < c.line.length → d'.line.length < d.line.length →
      Agree R' m (next c') (next' d')) :
    Agree R' m (Step.afterElement b next fuel c) (Step.afterElement b next' fuel' d) := by
  have hcomma := ne_newline_of_isStructural isStructural_comma
  induction fuel generalizing c d fuel' with
  | zero => omega
  | succ fuel ih =>
    obtain _ | fuel' := fuel'
    · omega
    unfold Step.afterElement
    rw [hb.isAt_closing h, hb.isAt_comma h, hb.lineContinues h]
    split
    · next hc => exact close hb h hc
    · next hclose =>
      split
      · next hc =>
        have hd : d.isAt ',' = true := hb.isAt_comma h ▸ hc
        have hadvance := hb.comma h hc
        have htrailing : isTrailing b.closing d = isTrailing b.closing c :=
          hb.isAt_closing (hb.spaces hadvance)
        rw [htrailing]
        split
        · next ht =>
          exact errorThen hR h hadvance (Cursor.ahead_advance hcomma hc)
            (Cursor.ahead_advance hcomma hd) (close hb (hb.spaces hadvance) ht)
        · exact hn hadvance (Cursor.length_line_advance hcomma hc)
            (Cursor.length_line_advance hcomma hd)
      · next hc =>
        split
        · next hl => exact refuse hR' _ (hb.lineEnd h (by simpa using hl))
        · next hl =>
          have hseparator := hb.separator h
          have hl : c.lineContinues = true := by simpa using hl
          have hlt := Cursor.length_line_toSeparator hl (by simpa using hclose) (by simpa using hc)
          have hlt' : (d.toSeparator b.closing).line.length < d.line.length :=
            Cursor.length_line_toSeparator (hb.lineContinues h ▸ hl)
              (hb.isAt_closing h ▸ by simpa using hclose) (hb.isAt_comma h ▸ by simpa using hc)
          refine errorThen hR h hseparator (c.ahead_toSeparator _) (d.ahead_toSeparator _) ?_
          exact ih hseparator (by omega) (by omega) fun h' hc' hd' => hn h' (by omega) (by omega)

variable (he : ∀ {c d}, R c d → Agree R m (element c) (element' d))
  (hs : ∀ d, (element d).Sound version d) (hs' : ∀ d, (element' d).Sound version d)
include he hs hs'

theorem elements (h : R c d) (hf : c.line.length < fuel) (hf' : d.line.length < fuel') :
    Agree R' m (Step.elements b element fuel c) (Step.elements b element' fuel' d) := by
  induction fuel generalizing c d fuel' with
  | zero => omega
  | succ fuel ih =>
    obtain _ | fuel' := fuel'
    · omega
    have helement := he (hb.spaces h)
    have hc := (hs c.skipSpaces).settle.ahead.length_line_le
    have hd := (hs' d.skipSpaces).settle.ahead.length_line_le
    have hcs := c.ahead_skipSpaces.length_line_le
    have hds := d.ahead_skipSpaces.length_line_le
    unfold Step.elements
    simp only [helement.outcome, hb.lineContinues helement.cursor]
    split
    · next hl =>
      exact ⟨helement.events, helement.marks, helement.outcome,
        hb.lineEnd helement.cursor hl.2⟩
    · refine helement.settle.andThen_of_done (hs _).outcome_settle fun h' => ?_
      exact afterElement hR hR' hb h' (Nat.lt_succ_self _) (Nat.lt_succ_self _)
        fun h' hc' hd' => ih h' (by omega) (by omega)

theorem list {mayBeEmpty : Bool} (h : R' c d) :
    Agree R' m (Step.list b mayBeEmpty element c) (Step.list b mayBeEmpty element' d) := by
  unfold Step.list
  rw [hb.isAt_opening h]
  split
  · exact refuse hR' _ h
  · next ho =>
    have hinner := hb.spaces (hb.opening h (by simpa using ho))
    simp only [hb.isAt_closing hinner]
    split
    · next hc =>
      split
      · exact close hb hinner hc
      · exact errorThen hR hinner hinner (.refl _) (.refl _) (close hb hinner hc)
    · exact elements hR hR' hb he hs hs' hinner (Nat.lt_succ_self _) (Nat.lt_succ_self _)

end

end Step.Agree
end BedrockCommand
