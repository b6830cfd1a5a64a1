import BedrockCommand.Proofs.Grammar.Enclosed
import BedrockCommand.Proofs.Tokenize.Lines
/-!
Reading again from the keyword of a command: what is reported from there on to the end of the line
is what that part of the line gives by itself.
-/
namespace BedrockCommand

variable {version : Version} {nested : Cursor → Step} {c d : Cursor} {t : Token}
  {front back : List Event}

/-- A word starts with a character that ends no word. -/
theorem Reader.exists_of_word {w : String} (h : word c = (.ok w, d)) :
    ∃ x cs, c.rest = x :: cs ∧ isTerminating x = false := by
  obtain ⟨w', c', hraw, -⟩ := bind_eq_ok.mp h
  obtain ⟨cs, c'', hcs, hraw⟩ := bind_eq_ok.mp hraw
  obtain rfl : c.ahead (fun x => !isTerminating x) = cs := Except.ok.inj (Prod.mk.inj hcs).1
  unfold Cursor.ahead at hraw
  cases hr : c.rest with
  | nil => simp [hr] at hraw
  | cons x cs =>
    cases hx : isTerminating x with
    | false => exact ⟨x, cs, rfl, hx⟩
    | true => simp [hr, hx] at hraw

/-- An element of two lists together stands in the first or in the second one. -/
theorem append_eq_append_cons_cases {xs ys front back : List α} {x : α}
    (h : xs ++ ys = front ++ x :: back) :
    (∃ back', xs = front ++ x :: back' ∧ back = back' ++ ys) ∨
      ∃ front', front = xs ++ front' ∧ ys = front' ++ x :: back := by
  rcases List.append_eq_append_iff.mp h with ⟨front', hf, hy⟩ | ⟨zs, hz, hy⟩
  · exact .inr ⟨front', hf, hy⟩
  · cases zs with
    | nil => exact .inr ⟨[], by simpa using hz.symm, by simpa using hy.symm⟩
    | cons z zs =>
      obtain ⟨rfl, rfl⟩ := List.cons.inj hy
      exact .inl ⟨zs, hz, rfl⟩

namespace Command

/-- What a command with others inside it reports: nothing about commands, or its keyword and then
what its rule reports. -/
inductive Reports (version : Version) (nested : Cursor → Step) (c : Cursor)
    (events : List Event) : Prop where
  | plain (h : ∀ e ∈ events, e.IsPlain)
  | keyword {typed : String} {n : Notice} {t : Token} {own : List Event} {d : Cursor} {s : Step}
    (hw : Reader.word c = (.ok typed, d)) (hp : t.span.start = c.position)
    (ht : Trace version isStructural c (.notice n :: .token t :: own) d)
    (ho : ∀ e ∈ own, e.IsPlain) (hs : s.Encloses version nested d)
    (he : events = .notice n :: .token t :: (own ++ s.events))

theorem reports_closeCommand_body (hs : ∀ d, (nested d).Sound version d)
    (hl : ∀ d, (nested d).cursor.line = []) (c : Cursor) :
    Reports version nested c (body version nested c).closeCommand.events := by
  have hsweep (e : SyntaxError) :
      ((Step.sweep e c).andThen .halt).closeCommand.Only Event.IsPlain := by
    refine .andThen (.settle (.andThen (.sweep Event.isPlain_errors e c) .halt))
      fun d => ?_
    split
    · exact .sweep Event.isPlain_errors _ d
    · exact .done d
  unfold body
  split
  · exact .plain (hsweep _)
  next typed d hw =>
  simp only
  split
  · exact .plain (hsweep _)
  next rule hr =>
  have hahead := Reader.ahead_word hw
  have htrace := (Step.Sound.keyword hw hr).trace
  rw [Step.keyword_ahead hahead] at htrace ⊢
  rw [closeCommand_andThen rfl]
  exact .keyword hw rfl htrace (Step.Only.warningEvents fun _ _ => trivial)
    (Rule.encloses_run hr hs hl d).closeCommand rfl

/-- The events before and after a keyword, as seen from where the keyword stands: a command there
reports the keyword and what comes after it. -/
def ReadsFrom (version : Version) (depth : Nat) (c : Cursor) (front : List Event) (t : Token)
    (back : List Event) : Prop :=
  ∃ own n d k typed e, k ≤ depth ∧ front = own ++ [.notice n] ∧ t.span.start = d.position ∧
    Trace version isStructural c own d ∧ Reader.word d = (.ok typed, e) ∧
    (read version k d).events = .notice n :: .token t :: back

theorem readsFrom_of_reports {depth : Nat} (hk : t.kind = .command)
    (hr : Reports version nested c (read version depth c).events)
    (hn : ∀ d front, (nested d).events = front ++ .token t :: back →
      ReadsFrom version depth d front t back)
    (h : (read version depth c).events = front ++ .token t :: back) :
    ReadsFrom version depth c front t back := by
  have hplain {es : List Event} (hes : ∀ e ∈ es, e.IsPlain) : .token t ∉ es :=
    fun ht => hes _ ht hk
  cases hr with
  | plain hes => exact absurd (h ▸ List.mem_append_right _ (List.mem_cons_self ..)) (hplain hes)
  | @keyword typed n t' own d s hw hp ht ho hs he =>
    rw [he] at h
    cases front with
    | nil => simp at h
    | cons x front =>
      obtain ⟨rfl, htail⟩ := List.cons.inj h
      cases front with
      | nil =>
        -- The keyword is that of the command itself.
        obtain ⟨htoken, rfl⟩ := List.cons.inj htail
        obtain rfl := Event.token.inj htoken
        exact ⟨[], n, c, depth, typed, d, Nat.le_refl _, rfl, hp, .nil c, hw, he⟩
      | cons y front =>
        obtain ⟨rfl, hsplit⟩ := List.cons.inj htail
        cases hs with
        | nothing hes =>
          have hmem : .token t ∈ own ++ s.events :=
            hsplit ▸ List.mem_append_right _ (List.mem_cons_self ..)
          exact absurd hmem (hplain fun e he => (List.mem_append.mp he).elim (ho e) (hes e))
        | @last own' d' ht' ho' he' _ =>
          rw [he', ← List.append_assoc] at hsplit
          have hfree : .token t ∉ own ++ own' :=
            hplain fun e he => (List.mem_append.mp he).elim (ho e) (ho' e)
          obtain ⟨front', rfl, hinner⟩ := (append_eq_append_cons_cases hsplit).resolve_left
            fun ⟨_, hown, _⟩ => hfree (hown ▸ List.mem_append_right _ (List.mem_cons_self ..))
          obtain ⟨own'', m, e, k, typed', e', hk', rfl, hp', ht'', hw', hread⟩ :=
            hn d' front' hinner
          refine ⟨.notice n :: .token t' :: (own ++ own') ++ own'', m, e, k, typed', e', hk',
            by simp, hp', ?_, hw', hread⟩
          have htrace := (ht.append ht').append ht''
          simpa using htrace

/-- Wherever a keyword is read, a command is read from there on. -/
theorem readsFrom_read (depth : Nat) (hk : t.kind = .command)
    (h : (read version depth c).events = front ++ .token t :: back) :
    ReadsFrom version depth c front t back := by
  induction depth generalizing c front with
  | zero =>
    have hends (d : Cursor) : (tooDeep d).cursor.line = [] := by
      rw [tooDeep_eq]
      exact d.line_toLineEnd
    refine readsFrom_of_reports hk (reports_closeCommand_body sound_tooDeep hends c) ?_ h
    intro d front hd
    -- A command that is not read has no keyword.
    have hmem : .token t ∈ (tooDeep d).events :=
      hd ▸ List.mem_append_right _ (List.mem_cons_self ..)
    rw [tooDeep_eq] at hmem
    rcases List.mem_cons.mp hmem with h | h
    · simp at h
    · obtain rfl := Event.token.inj (List.mem_singleton.mp h)
      simp at hk
  | succ depth ih =>
    refine readsFrom_of_reports hk
      (reports_closeCommand_body (sound_read depth) (fun d => (read_ends depth d).2) c) ?_ h
    intro d front hd
    obtain ⟨own, n, e, k, typed, e', hle, hrest⟩ := ih hd
    exact ⟨own, n, e, k, typed, e', Nat.le_succ_of_le hle, hrest⟩

end Command

/-! ## Lines -/

/-- Where a word starts, a line is read as a command. -/
theorem readLine_of_word {w : String} (h : Reader.word c = (.ok w, d)) :
    readLine version c = Command.read version maxNesting c := by
  obtain ⟨x, cs, hr, hx⟩ := Reader.exists_of_word h
  have hne (y : Char) (hy : isTerminating y = true) : c.isAt y = false := by
    have hxy : x ≠ y := fun e => by simp [e, hy] at hx
    simpa [Cursor.isAt, hr] using hxy
  have hspaces : c.skipSpaces = c := by
    have hspace : x ≠ ' ' := fun e => by simp [e, show isTerminating ' ' = true from rfl] at hx
    exact Cursor.skipSpaces_eq_self (by simpa [hr] using hspace)
  have hline : c.skipSpaces.line ≠ [] := by
    rw [hspaces]
    exact Cursor.line_ne_nil (by simp [Cursor.atEnd, hr]) (hne '\n' rfl)
  rw [readLine_of_line hline, hspaces, hne '#' rfl]
  rfl

/-- A line with a keyword on it is read as a command. -/
theorem readLine_of_keyword (hk : t.kind = .command)
    (h : .token t ∈ (readLine version c).events) :
    readLine version c = Command.read version maxNesting c.skipSpaces := by
  have hl : c.skipSpaces.line ≠ [] := fun hl => by
    simp [events_readLine_of_line_eq_nil hl] at h
  rw [readLine_of_line hl] at h ⊢
  split at h
  · -- A comment has no keyword.
    rw [readComment_eq] at h
    obtain rfl := Event.token.inj (List.mem_singleton.mp h)
    simp at hk
  · next hcomment => rw [if_neg hcomment]

/-- Reading a line again from a keyword on it. -/
theorem readLine_from_keyword (hk : t.kind = .command)
    (hdeep : (readLine version c).Only Event.IsShallow)
    (h : (readLine version c).events = front ++ .token t :: back) :
    ∃ own n d, front = own ++ [.notice n] ∧ t.span.start = d.position ∧
      Trace version isStructural c own d ∧
      (readLine version d).events = .notice n :: .token t :: back := by
  have hcommand : readLine version c = Command.read version maxNesting c.skipSpaces :=
    readLine_of_keyword hk (h ▸ List.mem_append_right _ (List.mem_cons_self ..))
  rw [hcommand] at h hdeep
  obtain ⟨own, n, d, k, typed, e, hle, rfl, hp, ht, hw, hread⟩ :=
    Command.readsFrom_read maxNesting hk h
  have hshallow : (Command.read version k d).Only Event.IsShallow := by
    intro e he
    refine hdeep e ?_
    rw [h]
    rw [hread] at he
    rcases List.mem_cons.mp he with rfl | he
    · simp
    · exact List.mem_append_right _ he
  have hdepth : Command.read version maxNesting d = Command.read version k d := by
    have := Command.follows_deeper k (maxNesting - k) d hshallow
    rwa [Nat.add_sub_cancel' hle] at this
  refine ⟨own, n, d, rfl, hp, ?_, ?_⟩
  · exact (Trace.skipSpaces isStructural_space c).append ht
  · rw [readLine_of_word hw, hdepth, hread]

/-! ## Texts -/

/-- An event about a place on one of some lines. -/
def Event.OnLines (P : Nat → Prop) : Event → Prop
  | .token t => P t.span.start.line
  | .warning w => P w.span.start.line
  | .notice _ => True
  | .json _ => True

theorem Event.OnLines.mono {P Q : Nat → Prop} {e : Event} (h : e.OnLines P) (hq : ∀ n, P n → Q n) :
    e.OnLines Q := by
  cases e with
  | token | warning => exact hq _ h
  | notice | json => trivial

theorem Event.Between.onLines {p q : Position} {e : Event} (h : e.Between p q)
    (hl : q.line = p.line) : e.OnLines (· = p.line) := by
  have hline {r : Position} (hp : p ≤ r) (hq : r ≤ q) : r.line = p.line := by
    rcases hp with hp | ⟨hp, -⟩ <;> rcases hq with hq | ⟨hq, -⟩ <;> omega
  cases e with
  | token t => exact hline h.1 h.2
  | warning w => exact hline h.1 (Position.le_of_lt h.2)
  | notice | json => trivial

theorem onLines_readLine {line : List Char} (hl : '\n' ∉ line) (p : Position) :
    ∀ e ∈ (readLine version ⟨line, p⟩).events, e.OnLines (· = p.line) := by
  intro e he
  have ht : Trace version isSeparating ⟨line, p⟩ _ _ := trace_readLine _
  obtain ⟨cs, hr, hp, -⟩ := ht.laidOut
  have hcs : '\n' ∉ cs := fun h => hl (by
    rw [show line = _ from hr]
    exact List.mem_append_left _ h)
  refine (ht.between e he).onLines ?_
  rw [hp, Position.after_of_notMem hcs]

theorem splitLines_line {line : List Char} (hl : '\n' ∉ line) : splitLines line = [line] := by
  simpa [splitLines] using splitLines_append hl lineEnd_nil

theorem splitLines_line_append {line : List Char} (hl : '\n' ∉ line) (below : List Char) :
    splitLines (line ++ '\n' :: below) = line :: splitLines below := by
  rw [splitLines_append_newline, splitLines_line hl, List.singleton_append]

/-- A text is one line, or a line and a text below it. -/
@[elab_as_elim]
theorem lines_induction {motive : List Char → Prop} (last : ∀ line, '\n' ∉ line → motive line)
    (more : ∀ line below, '\n' ∉ line → motive below → motive (line ++ '\n' :: below))
    (cs : List Char) : motive cs := by
  obtain ⟨tail, ht, hc⟩ := (Cursor.mk cs .origin).exists_line
  have hl := (Cursor.mk cs .origin).newline_notMem_line
  obtain hcs : cs = _ ++ tail := congrArg Cursor.rest hc
  rcases ht.cases with rfl | ⟨below, rfl⟩
  · rw [hcs, List.append_nil]
    exact last _ hl
  · have hlt : below.length < cs.length := by
      rw [hcs]
      simp only [List.length_append, List.length_cons]
      omega
    rw [hcs]
    exact more _ below hl (lines_induction last more below)
termination_by cs.length

theorem onLines_linesEvents (cs : List Char) (p : Position) :
    ∀ e ∈ linesEvents version (splitLines cs) p, e.OnLines (p.line ≤ ·) := by
  have hfirst {line : List Char} (hl : '\n' ∉ line) (p : Position) :
      ∀ e ∈ (readLine version ⟨line, p⟩).events, e.OnLines (p.line ≤ ·) :=
    fun e he => (onLines_readLine hl p e he).mono fun _ h => Nat.le_of_eq h.symm
  induction cs using lines_induction generalizing p with
  | last line hl =>
    rw [splitLines_line hl]
    simpa [linesEvents] using hfirst hl p
  | more line below hl ih =>
    rw [splitLines_line_append hl]
    intro e he
    rcases List.mem_append.mp he with he | he
    · exact hfirst hl p e he
    · exact (ih _ e he).mono fun _ => Nat.le_of_succ_le

/-- An event of a text comes from one of its lines, with the events of earlier lines before it and
those of later lines behind it. -/
inductive FromLine (version : Version) (cs : List Char) (p : Position) (front : List Event)
    (e : Event) (back : List Event) : Prop where
  | intro (above line below : List Char) (earlier front' back' later : List Event)
    (hc : cs = above ++ line ++ below) (hl : '\n' ∉ line) (hb : LineEnd below)
    (hf : front = earlier ++ front') (hba : back = back' ++ later)
    (he : ∀ e ∈ earlier, e.OnLines (· < (p.after above).line))
    (hla : ∀ e ∈ later, e.OnLines ((p.after above).line < ·))
    (h : (readLine version ⟨line, p.after above⟩).events = front' ++ e :: back')

theorem fromLine_linesEvents {cs : List Char} {p : Position} {e : Event}
    (h : linesEvents version (splitLines cs) p = front ++ e :: back) :
    FromLine version cs p front e back := by
  induction cs using lines_induction generalizing p front with
  | last line hl =>
    rw [splitLines_line hl, linesEvents, linesEvents, List.append_nil] at h
    exact .intro [] line [] [] front back [] (by simp) hl lineEnd_nil rfl (by simp) (by simp)
      (by simp) h
  | more line below hl ih =>
    rw [splitLines_line_append hl, linesEvents] at h
    rcases append_eq_append_cons_cases h with ⟨back', hline, rfl⟩ | ⟨front', rfl, hrest⟩
    · refine .intro [] line ('\n' :: below) [] front back' _ (by simp) hl
        (by simp [LineEnd]) rfl rfl (by simp) ?_ hline
      exact fun e he => (onLines_linesEvents below _ e he).mono fun _ => Nat.lt_of_succ_le
    · obtain ⟨above, line', below', earlier, front'', back', later, rfl, hl', hb, rfl, hba, he, hla,
        hread⟩ := ih hrest
      have hplace : p.after (line ++ '\n' :: above) = Position.after ⟨p.line + 1, 0⟩ above := by
        rw [Position.after_append, Position.after_of_notMem hl]
        rfl
      have hle : p.line + 1 ≤ (Position.after ⟨p.line + 1, 0⟩ above).line := by
        rcases Position.le_after ⟨p.line + 1, 0⟩ above with h | ⟨h, -⟩
        · exact Nat.le_of_lt h
        · exact Nat.le_of_eq h
      refine .intro (line ++ '\n' :: above) line' below' (_ ++ earlier) front'' back' later
        (by simp) hl' hb (List.append_assoc ..).symm hba ?_ (by rwa [hplace])
        (by rwa [hplace])
      intro e hmem
      rw [hplace]
      rcases List.mem_append.mp hmem with hmem | hmem
      · exact (onLines_readLine hl p e hmem).mono fun n hn =>
          Nat.lt_of_le_of_lt (Nat.le_of_eq hn) hle
      · exact he e hmem

namespace Tokenized

variable {es fs : List Event}

/-- The warnings among some events that a test keeps, if it keeps those behind a token. -/
theorem filter_warnings_token {gs : List Event} {keeps : Warning → Bool}
    (he : ∀ w, .warning w ∈ es → keeps w = false) (hf : ∀ w, .warning w ∈ fs → keeps w = true)
    (hg : ∀ w, .warning w ∈ gs → keeps w = false) :
    (ofEvents (es ++ .token t :: (fs ++ gs))).warnings.filter keeps = (ofEvents fs).warnings := by
  have hes : (ofEvents es).warnings.filter keeps = [] :=
    List.filter_eq_nil_iff.mpr fun w hw => by simp [he w (mem_warnings.mp hw)]
  have hfs : (ofEvents fs).warnings.filter keeps = (ofEvents fs).warnings :=
    List.filter_eq_self.mpr fun w hw => hf w (mem_warnings.mp hw)
  have hgs : (ofEvents gs).warnings.filter keeps = [] :=
    List.filter_eq_nil_iff.mpr fun w hw => by simp [hg w (mem_warnings.mp hw)]
  rw [warnings_append, warnings_token, warnings_append, List.filter_append, List.filter_append,
    hes, hfs, hgs, List.nil_append, List.append_nil]

/-- The tokens of some events that stand on a line, if the events behind a part of them do not. -/
theorem filter_tokens_line {n : Nat} (he : ∀ e ∈ es, e.OnLines (· = n))
    (hf : ∀ e ∈ fs, e.OnLines (· ≠ n)) :
    (ofEvents (es ++ fs)).tokens.filter (·.span.start.line = n) = (ofEvents es).tokens := by
  have hes : (ofEvents es).tokens.filter (·.span.start.line = n) = (ofEvents es).tokens :=
    List.filter_eq_self.mpr fun u hu => decide_eq_true (he _ (mem_tokens.mp hu))
  have hfs : (ofEvents fs).tokens.filter (·.span.start.line = n) = [] :=
    List.filter_eq_nil_iff.mpr fun u hu => by
      simpa [Event.OnLines] using hf _ (mem_tokens.mp hu)
  rw [tokens_append, List.filter_append, hes, hfs, List.append_nil]

/-- A token among those of some events is one of the events. -/
theorem exists_of_tokens {before after : List Token}
    (h : (ofEvents es).tokens = before ++ t :: after) : ∃ front back,
      es = front ++ .token t :: back ∧ (ofEvents front).tokens = before ∧
      (ofEvents back).tokens = after := by
  obtain ⟨front, rest, rfl, hfront, hrest⟩ := List.filterMap_eq_append_iff.mp h
  obtain ⟨skipped, e, back, rfl, hnone, he, hback⟩ := List.filterMap_eq_cons_iff.mp hrest
  refine ⟨front ++ skipped, back, ?_, ?_, hback⟩
  · cases e <;> simp_all
  · rw [tokens_append, show (ofEvents front).tokens = before from hfront,
      show (ofEvents skipped).tokens = [] from List.filterMap_eq_nil_iff.mpr hnone,
      List.append_nil]

end Tokenized

theorem tokenize_line {line : List Char} (hl : '\n' ∉ line) (p : Position) (version : Version) :
    tokenize (String.ofList line) p version =
      .ok (.ofEvents (readLine version ⟨line, p⟩).events) := by
  have hlines : splitLines line = [line] := by
    simpa [splitLines] using splitLines_append hl lineEnd_nil
  rw [tokenize_eq, events_readText, String.toList_ofList, hlines, linesEvents, linesEvents,
    List.append_nil]

/-- Reading again from the keyword of a command. Unless something on its line lies too deep, the
rest of the line gives by itself what the whole text gives from there on: the keyword with all
tokens behind it on the line, and the warnings of the line from the keyword on. -/
theorem tokenize_from_keyword {text : String} {start : Position} {result : Tokenized}
    {before after : List Token} (h : tokenize text start version = .ok result)
    (ht : result.tokens = before ++ t :: after) (hk : t.kind = .command)
    (hdeep : ∀ u ∈ result.tokens, u.span.start.line = t.span.start.line →
      ∀ limit, u.value ≠ .error (.nestingTooDeep limit)) :
    ∃ above rest below again, text.toList = above ++ rest ++ below ∧ '\n' ∉ rest ∧
      LineEnd below ∧ start.after above = t.span.start ∧
      tokenize (String.ofList rest) t.span.start version = .ok again ∧
      again.tokens = t :: after.filter (·.span.start.line = t.span.start.line) ∧
      again.warnings = result.warnings.filter fun w =>
        w.span.start.line = t.span.start.line ∧ t.span.start ≤ w.span.start := by
  rw [tokenize_eq, events_readText] at h
  obtain rfl := Except.ok.inj h
  obtain ⟨front, back, hevents, -, rfl⟩ := Tokenized.exists_of_tokens ht
  obtain ⟨above, line, below, earlier, front', back', later, hc, hl, hb, rfl, rfl, he, hla,
    hread⟩ := fromLine_linesEvents hevents
  have hline : ∀ e ∈ (readLine version ⟨line, start.after above⟩).events, _ :=
    onLines_readLine hl (start.after above)
  have htl : t.span.start.line = (start.after above).line :=
    hline (.token t) (hread ▸ List.mem_append_right _ (List.mem_cons_self ..))
  have hshallow : (readLine version ⟨line, start.after above⟩).Only Event.IsShallow := by
    intro e hmem
    cases e with
    | token u =>
      refine hdeep u (Tokenized.mem_tokens.mpr ?_) ((hline _ hmem).trans htl.symm)
      rw [hevents]
      rw [hread] at hmem
      simp only [List.mem_append, List.mem_cons] at hmem ⊢
      tauto
    | warning | notice | json => trivial
  obtain ⟨own, n, d, rfl, hp, htrace, hagain⟩ := readLine_from_keyword hk hshallow hread
  obtain ⟨cs, hcs, hr, hposition⟩ := htrace.ahead not_isStructural_newline
  obtain rfl : line = cs ++ d.rest := hr
  have hrest : '\n' ∉ d.rest := fun h => hl (List.mem_append_right _ h)
  have hback (e : Event) (hmem : e ∈ back') : e.OnLines (· = t.span.start.line) := by
    rw [htl]
    exact hline e (hread ▸ List.mem_append_right _ (List.mem_cons_of_mem _ hmem))
  have hlater (e : Event) (hmem : e ∈ later) : e.OnLines (· ≠ t.span.start.line) :=
    (hla e hmem).mono fun _ hlt => htl ▸ Nat.ne_of_gt hlt
  refine ⟨above ++ cs, d.rest, below, _, by rw [hc]; simp, hrest, hb, ?_,
    tokenize_line hrest _ _, ?_, ?_⟩
  · rw [Position.after_append, hp, hposition]
  · rw [hp, hagain, ← hp, Tokenized.tokens_notice, Tokenized.tokens_token,
      Tokenized.filter_tokens_line hback hlater]
  · rw [hp, hagain, ← hp, hevents, Tokenized.filter_warnings_token, Tokenized.warnings_notice,
      Tokenized.warnings_token]
    · -- Warnings before the keyword stand on earlier lines or start in front of it.
      intro w hw
      simp only [decide_eq_false_iff_not]
      rintro ⟨hl, hle⟩
      rcases List.mem_append.mp hw with hw | hw
      · exact Nat.ne_of_lt (he _ hw) (htl ▸ hl)
      · have hown : .warning w ∈ own := by simpa using hw
        exact Position.not_le_of_lt (htrace.between _ hown).2 (hp ▸ hle)
    · intro w hw
      have hfrom : (Event.warning w).Between d.position (readLine version d).cursor.position :=
        (trace_readLine d).between _ (by simp [hagain, hw])
      exact decide_eq_true ⟨hback _ hw, hp ▸ hfrom.1⟩
    · exact fun w hw => decide_eq_false fun hkept => hlater _ hw hkept.1

/-- The command behind `run` can be read again by itself. -/
theorem tokenize_from_keyword_run :
    ∃ above rest below again, "execute run op x\nlist".toList = above ++ rest ++ below ∧
      '\n' ∉ rest ∧ LineEnd below ∧ Position.after ⟨0, 0⟩ above = ⟨0, 12⟩ ∧
      tokenize (String.ofList rest) ⟨0, 12⟩ .latest = .ok again ∧
      again.tokens = [⟨.command, .command "op", ⟨⟨0, 12⟩, ⟨0, 15⟩⟩⟩,
        ⟨.selector, .none, ⟨⟨0, 15⟩, ⟨0, 16⟩⟩⟩] ∧
      again.warnings = [⟨.noPermission "op", ⟨⟨0, 12⟩, ⟨0, 15⟩⟩⟩] := by
  have h : tokenize "execute run op x\nlist" ⟨0, 0⟩ .latest = .ok
      ⟨[⟨.command, .command "execute", ⟨⟨0, 0⟩, ⟨0, 8⟩⟩⟩, ⟨.option, .none, ⟨⟨0, 8⟩, ⟨0, 12⟩⟩⟩] ++
        ⟨.command, .command "op", ⟨⟨0, 12⟩, ⟨0, 15⟩⟩⟩ :: [⟨.selector, .none, ⟨⟨0, 15⟩, ⟨0, 16⟩⟩⟩,
          ⟨.command, .command "list", ⟨⟨1, 0⟩, ⟨1, 4⟩⟩⟩],
        [⟨.noPermission "op", ⟨⟨0, 12⟩, ⟨0, 15⟩⟩⟩],
        [.commandRead ⟨⟨0, 0⟩, ⟨0, 8⟩⟩ "execute" "execute",
          .commandRead ⟨⟨0, 12⟩, ⟨0, 15⟩⟩ "op" "op",
          .commandRead ⟨⟨1, 0⟩, ⟨1, 4⟩⟩ "list" "list"]⟩ := by rfl
  exact tokenize_from_keyword h rfl rfl (by simp)

end BedrockCommand
