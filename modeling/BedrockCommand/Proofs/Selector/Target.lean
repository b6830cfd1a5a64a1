import BedrockCommand.Proofs.Selector.Options
import BedrockCommand.Proofs.Tokenize.Spans
/-!
Selectors with options: their tokens are the tokens that each option has alone, taken to its place.
Each round of the list compares the option among others with the option alone, and goes on with
what stands behind the comma.
-/
namespace BedrockCommand

variable {version : Version} {e : List Char} {es : List (List Char)}

/-- So many columns further along the line. -/
def Position.shift (k : Nat) (p : Position) : Position :=
  ⟨p.line, p.column + k⟩

theorem Position.movesLines_shift (k : Nat) : MovesLines (shift k) := by
  intro p x hx
  simp only [next, if_neg hx, shift]
  congr 1
  omega

/-- Behind an option and the comma after it. -/
theorem Position.next_after_shift (k : Nat) (hn : '\n' ∉ e) (p : Position) :
    ((p.shift k).after e).next ',' = p.shift (k + e.length + 1) := by
  rw [after_of_notMem hn, next, if_neg (by decide)]
  simp only [shift]
  congr 1
  omega

/-! ## Lists of options -/

/-- The tokens of options with commas between them: each option has those that it has alone, as
many columns further as it stands behind the first one. -/
def tokensInPlace (alone : List Char → List Token) : Nat → List (List Char) → List Token
  | _, [] => []
  | k, e :: es =>
    (alone e).map (Token.moved (Position.shift k)) ++ tokensInPlace alone (k + e.length + 1) es

theorem tokensInPlace_congr {f g : List Char → List Token} (k : Nat) (h : ∀ e ∈ es, f e = g e) :
    tokensInPlace f k es = tokensInPlace g k es := by
  induction es generalizing k with
  | nil => rfl
  | cons e es ih =>
    obtain ⟨he, hes⟩ := List.forall_mem_cons.mp h
    rw [tokensInPlace, tokensInPlace, he, ih _ hes]

/-- The options of a list start with the first one and what separates it from what follows. -/
theorem exists_separates (e : List Char) (es : List (List Char)) (rest : List Char) :
    ∃ tail, Separates tail ∧ [','].intercalate (e :: es) ++ ']' :: rest = e ++ tail := by
  cases es with
  | nil => exact ⟨']' :: rest, separates_closing rest, by simp⟩
  | cons e' es =>
    refine ⟨',' :: ([','].intercalate (e' :: es) ++ ']' :: rest), separates_comma _, ?_⟩
    rw [List.intercalate_cons_cons, List.append_assoc, List.append_assoc, List.singleton_append]

/-- Where an option has a comma behind it, less is left of the line after that. -/
theorem IsOption.length_line_lt (he : IsOption e) (more : List Char) (p q : Position) :
    (Cursor.mk more q).line.length < (Cursor.mk (e ++ ',' :: more) p).skipSpaces.line.length := by
  have hahead : (Cursor.mk (e ++ ',' :: more) p).skipSpaces.Ahead ⟨',' :: more, p.after e⟩ := by
    rw [Cursor.skipSpaces, Cursor.skipWhile_append rfl (separates_comma more)]
    have hn : '\n' ∉ e.dropWhile (· = ' ') := fun h =>
      he.newline ((List.dropWhile_suffix _).subset h)
    refine ⟨e.dropWhile (· = ' '), hn, rfl, ?_⟩
    rw [← Position.after_append, List.takeWhile_append_dropWhile]
  have hcomma : (Cursor.mk (',' :: more) (p.after e)).isAt ',' = true := by simp
  have hlt := Cursor.length_line_advance (by decide) hcomma
  rw [Cursor.advance_of_rest rfl] at hlt
  exact Nat.lt_of_lt_of_le hlt hahead.length_line_le

/-- What is read of options at a cursor and of the bracket that closes them. A round for each
character of the line is enough. -/
def readList (version : Version) (c : Cursor) : Step :=
  readOptions version (c.skipSpaces.line.length + 1) c

/-- The tokens of an option that stands alone at a place. -/
def tokensAlone (version : Version) (p : Position) (e : List Char) : List Token :=
  (readList version ⟨e ++ [']'], p⟩).tokens

/-- An option among others: the tokens that it has alone, and those of what is read behind it. -/
theorem tokens_round {fuel k : Nat} {tail : List Char} {events : List Event} {p : Position}
    (he : IsOption e) (hk : (readList version ⟨e ++ [']'], p⟩).Only Event.KnowsOption)
    (ht : Separates tail) (hrest : ∀ n, 0 < n → (Step.afterElement .square
      (readOptions version fuel) n ⟨tail, (p.shift k).after e⟩).events = events) :
    (readOptions version (fuel + 1) ⟨e ++ tail, p.shift k⟩).tokens =
      (tokensAlone version p e).map (Token.moved (Position.shift k)) ++
        (Tokenized.ofEvents events).tokens := by
  have hround := events_round (w := ⟨Position.shift k, [']'], tail, Position.movesLines_shift k,
    separates_closing [], ht⟩) he hk (fun n hn => events_afterElement_closing hn _ _) hrest
  rw [Step.tokens, hround, Tokenized.tokens_append, Tokenized.tokens_moved]
  rfl

/-- A round for each option. -/
theorem tokens_readOptions {fuel k : Nat} {p : Position} (he : ∀ e' ∈ e :: es, IsOption e')
    (hk : ∀ e' ∈ e :: es, (readList version ⟨e' ++ [']'], p⟩).Only Event.KnowsOption)
    (rest : List Char) (hf : (Cursor.mk ([','].intercalate (e :: es) ++ ']' :: rest)
      (p.shift k)).skipSpaces.line.length < fuel) :
    (readOptions version fuel ⟨[','].intercalate (e :: es) ++ ']' :: rest, p.shift k⟩).tokens =
      tokensInPlace (tokensAlone version p) k (e :: es) := by
  induction es generalizing e fuel k with
  | nil =>
    obtain _ | fuel := fuel
    · omega
    rw [List.intercalate_singleton]
    exact tokens_round (he e (List.mem_cons_self ..)) (hk e (List.mem_cons_self ..))
      (separates_closing rest) fun n hn => events_afterElement_closing hn _ _
  | cons e' es ih =>
    obtain _ | fuel := fuel
    · omega
    obtain ⟨he, hes⟩ := List.forall_mem_cons.mp he
    obtain ⟨hk, hks⟩ := List.forall_mem_cons.mp hk
    have hnext := @ih e' fuel (k + e.length + 1) hes hks
    rw [List.intercalate_cons_cons, List.append_assoc, List.append_assoc,
      List.singleton_append] at hf ⊢
    -- What is left after the comma starts with an option too.
    obtain ⟨tail, ht, hmore⟩ := exists_separates e' es rest
    generalize [','].intercalate (e' :: es) ++ ']' :: rest = more at *
    have hcomma (n : Nat) (hn : 0 < n) : (Step.afterElement .square (readOptions version fuel) n
        ⟨',' :: more, (p.shift k).after e⟩).events =
        (readOptions version fuel ⟨more, p.shift (k + e.length + 1)⟩).events := by
      rw [hmore, (hes e' (List.mem_cons_self ..)).events_afterElement_comma hn ht,
        Position.next_after_shift k he.newline]
    have hlt := he.length_line_lt more (p.shift k) (p.shift (k + e.length + 1))
    have hle := (Cursor.ahead_skipSpaces ⟨more, p.shift (k + e.length + 1)⟩).length_line_le
    rw [tokens_round he hk (separates_comma more) hcomma]
    exact congrArg (_ ++ ·) (hnext (by omega))

/-! ## Selectors -/

/-- No option holds a command. -/
theorem run_selectorEntry (version : Version) (nested : Cursor → Step) :
    Rule.selectorEntry.run ⟨Grammar.dialect version, nested⟩ = readOption version := by
  have hvalue (name : String) : (Rule.selectorValue name).run ⟨Grammar.dialect version, nested⟩ =
      (Rule.selectorValue name).run ⟨Grammar.dialect version, Step.done⟩ := by
    unfold Rule.selectorValue
    cases hr : Rule.selectorValues.lookup name with
    | none => rfl
    | some r =>
      exact (@Rule.staysIn_selectorValues none _ (Rule.mem_of_lookup hr)).run_nested _ _ _
  funext c
  simp only [readOption, Rule.selectorEntry, Rule.run, hvalue]

theorem read_selectorVariable {t : String} (ht : t ∈ Argument.selectorVariables)
    (body : List Char) (s : Position) :
    Argument.selectorVariable.read ⟨'@' :: (t.toList ++ '[' :: body), s⟩ =
      .accept .selector .none () ⟨'[' :: body, s.after ('@' :: t.toList)⟩ := by
  simp only [Argument.selectorVariables, List.mem_cons, List.not_mem_nil, or_false] at ht
  rcases ht with rfl | rfl | rfl | rfl | rfl | rfl | rfl | rfl
  all_goals rfl

/-- The bracket that opens a list of options, and the options. -/
theorem events_list_square (he : IsOption e) {tail : List Char} (ht : Separates tail)
    (p : Position) :
    (Step.list .square false (readOption version) ⟨'[' :: (e ++ tail), p⟩).events =
      (readList version ⟨e ++ tail, p.next '['⟩).events := by
  have hadvance : (Cursor.mk ('[' :: (e ++ tail)) p).advance = ⟨e ++ tail, p.next '['⟩ :=
    Cursor.advance_of_rest rfl
  unfold Step.list readList readOptions
  simp only [Brackets.opening, Brackets.closing, Cursor.isAt_cons, decide_true, Bool.not_true,
    Bool.false_eq_true, if_false, hadvance, he.isAt_skipSpaces ht]
  -- The spaces in front of the first option are skipped twice.
  unfold Step.elements
  rw [Cursor.skipSpaces_skipSpaces]

/-- A selector variable and the options of it. -/
theorem events_target {t : String} (ht : t ∈ Argument.selectorVariables) (version : Version)
    (nested : Cursor → Step) (body : List Char) (s : Position) :
    (Rule.target.run ⟨Grammar.dialect version, nested⟩
      ⟨'@' :: (t.toList ++ '[' :: body), s⟩).events =
      .token ⟨.selector, .none, ⟨s, s.after ('@' :: t.toList)⟩⟩ ::
        (Step.list .square false (readOption version)
          ⟨'[' :: body, s.after ('@' :: t.toList)⟩).events := by
  have hahead : (Cursor.mk ('@' :: (t.toList ++ '[' :: body)) s).Ahead
      ⟨'[' :: body, s.after ('@' :: t.toList)⟩ := by
    have hline : (Look.char '@').holds
        ⟨(Cursor.mk ('@' :: (t.toList ++ '[' :: body)) s).line, .origin⟩ = true := rfl
    have := Argument.selectorVariable.ahead_read rfl
      ⟨'@' :: (t.toList ++ '[' :: body), s⟩ fun l hl => Option.some.inj hl ▸ hline
    rwa [read_selectorVariable ht] at this
  unfold Rule.target
  simp only [Rule.run, run_selectorEntry, Look.holds, Cursor.isAt_cons, Step.argument,
    read_selectorVariable ht, Reading.accept, Step.token_ahead _ _ _ hahead, if_true, decide_true]
  rw [Step.events_andThen_of_done rfl]
  exact congrArg (_ :: ·) (Step.events_andThen_of_silent (f := fun c => .done c.skipSpaces) rfl)

/-- The text of a selector with options. -/
def selectorText (t : String) (es : List (List Char)) : List Char :=
  '@' :: (t.toList ++ '[' :: ([','].intercalate es ++ [']']))

/-- The tokens of a target. What a command inside the command does is given, but not needed. -/
def targetTokens (version : Version) (nested : Cursor → Step) (c : Cursor) : List Token :=
  (Rule.target.run ⟨Grammar.dialect version, nested⟩ c).tokens

theorem targetTokens_selectorText (version : Version) (nested : Cursor → Step) {t : String}
    (ht : t ∈ Argument.selectorVariables) (he : IsOption e) (es : List (List Char))
    (rest : List Char) (s : Position) :
    targetTokens version nested ⟨selectorText t (e :: es) ++ rest, s⟩ =
      ⟨.selector, .none, ⟨s, s.after ('@' :: t.toList)⟩⟩ ::
        (readList version ⟨[','].intercalate (e :: es) ++ ']' :: rest,
          (s.after ('@' :: t.toList)).next '['⟩).tokens := by
  obtain ⟨tail, htail, hmore⟩ := exists_separates e es rest
  have htext : selectorText t (e :: es) ++ rest =
      '@' :: (t.toList ++ '[' :: ([','].intercalate (e :: es) ++ ']' :: rest)) := by
    simp [selectorText]
  rw [targetTokens, Step.tokens, htext, hmore, events_target ht, events_list_square he htail]
  rfl

/-- Whatever is wrong in one option of a selector, the other ones have the tokens that they have
alone. Only the error for an unknown option takes the rest of the line with it. -/
theorem targetTokens_options (version : Version) (nested : Cursor → Step) {t : String}
    (ht : t ∈ Argument.selectorVariables) {es : List (List Char)} (hne : es ≠ [])
    (he : ∀ e ∈ es, IsOption e) (s : Position)
    (hk : ∀ e ∈ es, ∀ token ∈ targetTokens version nested ⟨selectorText t [e], s⟩,
      ∀ name, token.value ≠ .error (.invalidSelectorOption name)) (rest : List Char) :
    targetTokens version nested ⟨selectorText t es ++ rest, s⟩ =
      ⟨.selector, .none, ⟨s, s.after ('@' :: t.toList)⟩⟩ ::
        tokensInPlace (fun e => (targetTokens version nested ⟨selectorText t [e], s⟩).tail)
          0 es := by
  obtain ⟨e, es, rfl⟩ := List.exists_cons_of_ne_nil hne
  let q := (s.after ('@' :: t.toList)).next '['
  have halone (e' : List Char) (he' : e' ∈ e :: es) :
      targetTokens version nested ⟨selectorText t [e'], s⟩ =
        ⟨.selector, .none, ⟨s, s.after ('@' :: t.toList)⟩⟩ :: tokensAlone version q e' := by
    have h := targetTokens_selectorText version nested ht (he e' he') [] [] s
    rwa [List.append_nil, List.intercalate_singleton] at h
  have hknown (e' : List Char) (he' : e' ∈ e :: es) :
      (readList version ⟨e' ++ [']'], q⟩).Only Event.KnowsOption := by
    intro event hevent
    cases event with
    | token token =>
      refine hk e' he' token ?_
      rw [halone e' he']
      exact List.mem_cons_of_mem _ (Tokenized.mem_tokens.mpr hevent)
    | _ => trivial
  have htail : tokensInPlace (tokensAlone version q) 0 (e :: es) = tokensInPlace _ 0 (e :: es) :=
    tokensInPlace_congr 0 fun e' he' => (congrArg List.tail (halone e' he')).symm
  have hlist : (readList version ⟨[','].intercalate (e :: es) ++ ']' :: rest, q⟩).tokens = _ :=
    tokens_readOptions (k := 0) he hknown rest (Nat.lt_succ_self _)
  rw [targetTokens_selectorText version nested ht (he e (List.mem_cons_self ..)), hlist, htail]

/-- An entry of `scores` without a value is an error between two tokens of one option; the tag
behind it is read as it is alone. -/
theorem targetTokens_options_scores :
    targetTokens .latest Step.done
      ⟨selectorText "e" ["scores=\x7bkills\x7d".toList, " tag=red".toList] ++ " 1".toList, ⟨1, 0⟩⟩ =
      [⟨.selector, .none, ⟨⟨1, 0⟩, ⟨1, 2⟩⟩⟩, ⟨.option, .none, ⟨⟨1, 3⟩, ⟨1, 9⟩⟩⟩,
        ⟨.scoreboard, .none, ⟨⟨1, 11⟩, ⟨1, 16⟩⟩⟩,
        ⟨.error, .error (.expectedChar '='), ⟨⟨1, 16⟩, ⟨1, 16⟩⟩⟩,
        ⟨.option, .none, ⟨⟨1, 19⟩, ⟨1, 22⟩⟩⟩, ⟨.tag, .none, ⟨⟨1, 23⟩, ⟨1, 26⟩⟩⟩] := by
  have hvalues : ∀ e ∈ ["scores=\x7bkills\x7d".toList, " tag=red".toList],
      ∀ token ∈ targetTokens .latest Step.done ⟨selectorText "e" [e], ⟨1, 0⟩⟩,
        token.value = .none ∨ token.value = .error (.expectedChar '=') := by decide
  refine (targetTokens_options .latest Step.done (by decide) (by decide) ?_ ⟨1, 0⟩ ?_ _).trans rfl
  · simp only [List.forall_mem_cons, List.not_mem_nil, false_implies, implies_true, and_true]
    exact ⟨⟨by decide, rfl, 's', by decide, by decide⟩, ⟨by decide, rfl, 't', by decide, by decide⟩⟩
  · intro e he token ht name h
    rcases hvalues e he token ht with h' | h' <;> simp [h'] at h

end BedrockCommand
