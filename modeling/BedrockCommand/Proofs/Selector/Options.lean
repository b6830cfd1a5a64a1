import BedrockCommand.Proofs.Grammar.Shared
import BedrockCommand.Proofs.Selector.Rule
/-!
The options of a selector are read one by one: whatever is wrong in one of them, each becomes the
tokens that it becomes alone.
-/
namespace BedrockCommand

variable {version : Version} {w : Places} {c d : Cursor} {e u tail : List Char}

/-! ## Options -/

/-- The text of an option: a part of a line, not of spaces only, in which brackets and quotes match
and no comma is outside of them. -/
structure IsOption (e : List Char) : Prop where
  newline : '\n' ∉ e
  closed : closes [] false e = true
  nonblank : ∃ x ∈ e, x ≠ ' '

/-- An event that is not the error for an unknown option. -/
def Event.KnowsOption : Event → Prop
  | .token t => ∀ name, t.value ≠ .error (.invalidSelectorOption name)
  | _ => True

/-- The rule for an option, which holds no command. -/
def readOption (version : Version) : Cursor → Step :=
  Rule.selectorEntry.run ⟨Grammar.dialect version, Step.done⟩

theorem wellFormed_selectorEntry :
    Rule.selectorEntry.WellFormed (Grammar.dialect version) none :=
  ⟨trivial, fun _ hname =>
    ⟨Rule.isStructural_equals, .selectorValue (Rule.mem_selectorValues hname)⟩⟩

theorem sound_readOption (version : Version) (c : Cursor) :
    (readOption version c).Sound version c :=
  Rule.sound_run (fun c => .done c) wellFormed_selectorEntry (by simp)

theorem staysIn_selectorValue {name : String} {around : Option Brackets}
    (h : name ∈ Rule.selectorValues.map Prod.fst) :
    (Rule.selectorValue name).StaysIn around := by
  obtain ⟨r, hr, hvalue⟩ := Rule.exists_selectorValue h
  exact hvalue ▸ Rule.staysIn_selectorValues _ hr

/-- What an argument reports holds its value. -/
theorem Step.Only.exists_value {Q : Event → Prop} {a : Argument}
    {next : a.Answer → Cursor → Step} (ha : a.FitsAfter none)
    (h : (Step.argument a c next).Only Q) :
    ∃ kind span, Q (.token ⟨kind, (a.read c).value, span⟩) := by
  obtain ⟨kind, hk⟩ := a.exists_kind_read c
  have htoken := Step.Only.left h
  rw [hk, Step.token_ahead _ _ _ (a.ahead_read ha c (by simp))] at htoken
  exact ⟨kind, _, htoken _ (List.mem_cons_self ..)⟩

/-- An option that has a name of its own is read in the same way in both places. -/
theorem agree_readOption (h : Cursor.Inside w [] c d)
    (hk : (readOption version c).Only Event.KnowsOption) :
    Step.Agree (Cursor.Inside w []) w.move (readOption version c) (readOption version d) := by
  have hfits : (Argument.selectorOption (Grammar.dialect version).selectorOptions).FitsAfter none :=
    trivial
  obtain ⟨kind, span, hvalue⟩ := hk.exists_value hfits
  have hread : Reading.InsideAt w []
      (Argument.selectorOption (Grammar.dialect version).selectorOptions).read c d := by
    refine Reading.insideAt_of (Reader.staysInside_word w [] c d h) fun name c' d' hc h' => ?_
    split
    · exact Reading.stays_accept.insideAt h'
    · next hname =>
      -- An unknown name is an error, against what is known of the events.
      exact absurd (by simp [Argument.read, Reading.of, hc, hname, Reading.refuse]) (hvalue name)
  refine .argument Cursor.follow_inside h hread.1 hread.2 (Argument.ahead_read _ hfits c (by simp))
    (Argument.ahead_read _ hfits d (by simp)) fun name hname => ?_
  have hname := Rule.mem_selectorValues (Argument.answers_of_read hname)
  have hequals : Step.Agree (Cursor.Inside w []) w.move (Step.expect '=' _) (Step.expect '=' _) :=
    .expect Cursor.follow_inside (hread.2.isAt_of_notMem (by decide)) hread.2 fun hat =>
      (hread.2.advance_neutral (by decide) hat).skipSpaces
  have hsound : ∀ c, (Step.done c).Sound version c := Step.Sound.done
  have hvalue : (Rule.selectorValue name).WellFormed (Grammar.dialect version) none :=
    .selectorValue hname
  exact hequals.andThen (Rule.agree_run hsound hvalue (staysIn_selectorValue hname))

/-! ## What is left of an option -/

/-- The list of options goes on behind an option. -/
theorem toSeparator_option (hn : '\n' ∉ u) (hc : closes [] false u = true) (ht : Separates tail)
    (p : Position) : (Cursor.mk (u ++ tail) p).toSeparator ']' = ⟨tail, p.after u⟩ := by
  have hinner : closes ([] ++ []) false u = true := hc
  obtain ⟨hoff, hclosed⟩ := separatorOffset_closes hinner hn ht
  change separatorOffset ']' false 0 (u ++ tail) = separatorOffset ']' false 0 u at hoff
  change closes [] false (u.drop (separatorOffset ']' false 0 u)) = true at hclosed
  have hle := separatorOffset_le ']' false 0 u
  -- At the separator of the option itself nothing of it is left.
  have hdrop : u.drop (separatorOffset ']' false 0 u) = [] := by
    cases hd : u.drop (separatorOffset ']' false 0 u) with
    | nil => rfl
    | cons x v =>
      have hx := closes_nil_cons (hd ▸ hclosed)
      have hmem : x ∈ u := List.mem_of_mem_drop (hd ▸ List.mem_cons_self ..)
      rcases separatorOffset_stops ']' false 0 u x (by rw [hd]; rfl) with rfl | rfl | rfl
      · exact absurd hmem hn
      · exact absurd rfl hx.1
      · exact absurd rfl (hx.2 .square)
  have hlen : separatorOffset ']' false 0 u = u.length :=
    Nat.le_antisymm hle (List.drop_eq_nil_iff.mp hdrop)
  rw [Cursor.toSeparator, hoff, hlen, Cursor.skip_append_of_length u tail p rfl]

/-- The error for what is left of an option. -/
def leftover (u : List Char) (p : Position) : List Event :=
  if u.isEmpty then []
  else [.token ⟨.error, .error (.expectedSeparator ']'), ⟨p, p.after u⟩⟩]

theorem map_leftover (hn : '\n' ∉ u) (p : Position) :
    (leftover u p).map (Event.moved w.move) = leftover u (w.move p) := by
  unfold leftover
  split
  · rfl
  · simp [Event.moved, Span.moved, w.moves.after hn]

theorem events_afterElement_leftover {next : Cursor → Step} {fuel : Nat} {events : List Event}
    (hn : '\n' ∉ u) (hc : closes [] false u = true) (ht : Separates tail) (p : Position)
    (hf : 1 < fuel) (htail : ∀ fuel, 0 < fuel →
      (Step.afterElement .square next fuel ⟨tail, p.after u⟩).events = events) :
    (Step.afterElement .square next fuel ⟨u ++ tail, p⟩).events = leftover u p ++ events := by
  obtain _ | _ | fuel := fuel
  · omega
  · omega
  cases u with
  | nil => exact htail _ (by omega)
  | cons x v =>
    obtain ⟨hcomma, hclosing⟩ := closes_nil_cons hc
    have hsquare : x ≠ ']' := hclosing .square
    have hahead : (Cursor.mk (x :: v ++ tail) p).Ahead ⟨tail, p.after (x :: v)⟩ :=
      ⟨x :: v, hn, rfl, rfl⟩
    have hat {y : Char} (hy : x ≠ y) : (Cursor.mk (x :: v ++ tail) p).isAt y = false := by
      simpa using hy
    have hline := Cursor.Inside.lineContinues_append hn ht p
    have hseparator := toSeparator_option hn hc ht p
    unfold Step.afterElement
    simp only [Brackets.closing, hat hsquare, hat hcomma, hline, hseparator, Bool.false_eq_true,
      if_false, Bool.not_true, Step.error_ahead _ hahead]
    rw [Step.events_andThen_of_done rfl, htail _ (by omega)]
    rfl

/-! ## One option after another -/

/-- The options as they are read from a cursor on. -/
def readOptions (version : Version) : Nat → Cursor → Step :=
  Step.elements .square (readOption version)

/-- An option is more than the end of the list. -/
theorem IsOption.isAt_skipSpaces (he : IsOption e) (ht : Separates tail) (p : Position) :
    (Cursor.mk (e ++ tail) p).skipSpaces.isAt ']' = false := by
  have hclosed := closes_dropWhile (p := (· = ' ')) rfl he.closed
  rw [Cursor.skipSpaces, Cursor.skipWhile_append rfl ht]
  cases hd : e.dropWhile (· = ' ') with
  | nil =>
    obtain ⟨x, hx, hspace⟩ := he.nonblank
    exact absurd (List.dropWhile_eq_nil_iff.mp hd x hx) (by simpa using hspace)
  | cons x u =>
    have hx : x ≠ ']' := (closes_nil_cons (hd ▸ hclosed)).2 .square
    simpa using hx

theorem events_afterElement_closing {next : Cursor → Step} {fuel : Nat} (hf : 0 < fuel)
    (rest : List Char) (p : Position) :
    (Step.afterElement .square next fuel ⟨']' :: rest, p⟩).events = [] := by
  obtain _ | fuel := fuel
  · omega
  · rfl

/-- Behind a comma the next option is read: there is one. -/
theorem IsOption.events_afterElement_comma (he : IsOption e) {next : Cursor → Step} {fuel : Nat}
    (hf : 0 < fuel) (ht : Separates tail) (p : Position) :
    (Step.afterElement .square next fuel ⟨',' :: (e ++ tail), p⟩).events =
      (next ⟨e ++ tail, p.next ','⟩).events := by
  obtain _ | fuel := fuel
  · omega
  have htrailing : Step.isTrailing ']' ⟨',' :: (e ++ tail), p⟩ = false :=
    he.isAt_skipSpaces ht (p.next ',')
  unfold Step.afterElement
  rw [if_neg (by simp [Brackets.closing]), if_pos (by simp), Brackets.closing, htrailing]
  rfl

theorem Step.Only.of_elements {Q : Event → Prop} {b : Brackets} {element : Cursor → Step}
    {fuel : Nat} (h : (Step.elements b element (fuel + 1) c).Only Q) :
    (element c.skipSpaces).Only Q := by
  unfold Step.elements at h
  simp only at h
  split at h
  · exact h
  · exact fun x hx => h.left x (by rwa [Step.events_settle])

/-- What is read of an option ends inside of it, so that the list goes on where the option ends. -/
theorem events_readOptions_of_cursor {fuel : Nat} {events : List Event} {p : Position}
    (hn : '\n' ∉ u) (hc : closes [] false u = true) (ht : Separates tail)
    (hcursor : (readOption version c.skipSpaces).cursor = ⟨u ++ tail, p⟩)
    (htail : ∀ n, 0 < n → (Step.afterElement .square (readOptions version fuel) n
      ⟨tail, p.after u⟩).events = events) :
    (readOptions version (fuel + 1) c).events =
      (readOption version c.skipSpaces).events ++ leftover u p ++ events := by
  have hline := Cursor.Inside.lineContinues_append hn ht p
  have hfuel : 1 < (Cursor.mk (u ++ tail) p).line.length + 1 := by
    have := List.length_pos_iff.mpr (Cursor.lineContinues_iff.mp hline)
    omega
  unfold readOptions at htail ⊢
  unfold Step.elements
  simp only [hcursor, hline, Bool.true_eq_false, and_false, if_false]
  rw [Step.events_andThen_of_done (sound_readOption version _).outcome_settle, Step.events_settle,
    Step.cursor_settle, hcursor, events_afterElement_leftover hn hc ht p hfuel htail,
    List.append_assoc]

/-- Where the option ends that is read from a cursor on. -/
theorem after_readOption {p q : Position}
    (h : (readOption version (Cursor.mk (e ++ tail) p).skipSpaces).cursor = ⟨u ++ tail, q⟩) :
    q.after u = p.after e := by
  have hsound := sound_readOption version (Cursor.mk (e ++ tail) p).skipSpaces
  obtain ⟨cs, -, hr, hq⟩ := (Cursor.ahead_skipSpaces _).trans hsound.ahead
  rw [h] at hr hq
  rw [← List.append_assoc] at hr
  obtain rfl := List.append_cancel_right hr
  rw [Position.after_append, ← hq]

/-- One round: what is reported of an option in one place is reported of it in the other place. -/
theorem events_round {fuel fuel' : Nat} {events : List Event} {p : Position} (he : IsOption e)
    (hk : (readOptions version (fuel + 1) ⟨e ++ w.first, p⟩).Only Event.KnowsOption)
    (hfirst : ∀ n, 0 < n → (Step.afterElement .square (readOptions version fuel) n
      ⟨w.first, p.after e⟩).events = [])
    (hsecond : ∀ n, 0 < n → (Step.afterElement .square (readOptions version fuel') n
      ⟨w.second, (w.move p).after e⟩).events = events) :
    (readOptions version (fuel' + 1) ⟨e ++ w.second, w.move p⟩).events =
      (readOptions version (fuel + 1) ⟨e ++ w.first, p⟩).events.map (Event.moved w.move) ++
        events := by
  have hin : Cursor.Inside w [] ⟨e ++ w.first, p⟩ ⟨e ++ w.second, w.move p⟩ :=
    ⟨⟨e, he.newline, he.closed, rfl, rfl⟩, rfl⟩
  have hagree := agree_readOption hin.skipSpaces hk.of_elements
  obtain ⟨u, q, hn, hc, hcursor, hcursor'⟩ := hagree.cursor.cases
  have hq := after_readOption hcursor
  have hq' := after_readOption hcursor'
  rw [events_readOptions_of_cursor hn hc w.separates_first hcursor fun n hpos => hq ▸ hfirst n hpos,
    events_readOptions_of_cursor hn hc w.separates_second hcursor'
      fun n hpos => hq' ▸ hsecond n hpos,
    hagree.events, List.append_nil, List.map_append, map_leftover hn]

end BedrockCommand
