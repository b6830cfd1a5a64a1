import BedrockCommand.Proofs.Reader.Word
import BedrockCommand.Proofs.Source.Relabelling
import BedrockCommand.Reader.Number
/-!
Readers of texts in which control characters stand for one another: what is read from one text is
what is read from another, with the characters of the other in the words. No control is part of a
number.
-/
namespace BedrockCommand

/-! ## Numbers -/

namespace Numeral

theorem lacksInert_of_isDigits {cs : List Char} (h : isDigits cs = true) : LacksInert cs :=
  lacksInert_of_all_isDigit (List.all_eq_true.mp (Bool.and_eq_true_iff.mp h).2)

theorem exists_splitSign_append (cs : List Char) :
    ∃ sign, LacksInert sign ∧ cs = sign ++ (splitSign cs).2 := by
  unfold splitSign
  split
  · exact ⟨['-'], lacksInert_of_all (by decide), rfl⟩
  · exact ⟨['+'], lacksInert_of_all (by decide), rfl⟩
  · exact ⟨[], List.forall_mem_nil _, rfl⟩

theorem lacksInert_of_splitSign {cs : List Char} (h : LacksInert (splitSign cs).2) :
    LacksInert cs := by
  obtain ⟨sign, hs, hcs⟩ := exists_splitSign_append cs
  exact hcs ▸ hs.append h

theorem lacksInert_of_exponent? {cs : List Char} (h : (exponent? cs).isSome) :
    LacksInert cs := by
  unfold exponent? at h
  split at h
  · exact List.forall_mem_nil _
  next c cs =>
  split at h
  · next hc =>
    have hdigits : isDigits (splitSign cs).2 = true := by
      by_contra hn
      simp [hn] at h
    refine List.forall_mem_cons.mpr
      ⟨?_, lacksInert_of_splitSign (lacksInert_of_isDigits hdigits)⟩
    rcases hc with rfl | rfl <;> decide
  · simp at h

theorem lacksInert_of_decimal? {negative : Bool} {cs : List Char}
    (h : (decimal? negative cs).isSome) : LacksInert cs := by
  have htake (ds : List Char) : LacksInert (ds.takeWhile Char.isDigit) :=
    lacksInert_of_all_isDigit fun _ => List.mem_takeWhile_imp
  rw [← List.takeWhile_append_dropWhile (p := Char.isDigit) (l := cs)]
  refine (htake cs).append ?_
  have hsome {P : Prop} [Decidable P] {e : Option Int} {f : Int → Binary64}
      (h : (if P then none else e.map f).isSome) : e.isSome := by
    split at h
    · simp at h
    · simpa using h
  unfold decimal? at h
  simp only at h
  split at h
  · next rest hrest =>
    rw [hrest, ← List.takeWhile_append_dropWhile (p := Char.isDigit) (l := rest)]
    exact List.forall_mem_cons.mpr
      ⟨by decide, (htake rest).append (lacksInert_of_exponent? (hsome h))⟩
  · exact lacksInert_of_exponent? (hsome h)

/-- What reads as a number is written without inert characters. -/
theorem lacksInert_of_isNumeric {cs : List Char} (h : isNumeric cs = true) : LacksInert cs := by
  refine lacksInert_of_splitSign ?_
  have hname {name : String} (hn : isPlainWord name = true)
      (heq : (splitSign cs).2.map Char.toLower = name.toList) : LacksInert (splitSign cs).2 := by
    have hlower : inertChars.all (fun y => y.toLower == y) = true := by decide
    intro x hx hinert
    have hmem : x.toLower ∈ name.toList := heq ▸ List.mem_map_of_mem hx
    rw [eq_of_beq (List.all_eq_true.mp hlower x hinert)] at hmem
    exact lacksInert_of_isPlainWord hn x hmem hinert
  unfold isNumeric number? at h
  simp only at h
  split at h
  · next hinf =>
    rcases hinf with hinf | hinf
    · exact hname rfl hinf
    · exact hname rfl hinf
  split at h
  · next hnan => exact hname rfl hnan
  · exact lacksInert_of_decimal? h

end Numeral

theorem blind_isDigit : Blind Char.isDigit :=
  blind_of_all false (by decide)

namespace Relabelling

variable (φ : Relabelling) {p : Char → Bool} {q : Char}

theorem isNumeric_map (cs : List Char) :
    Numeral.isNumeric (cs.map φ.char) = Numeral.isNumeric cs := by
  rw [Bool.eq_iff_iff]
  constructor
  · intro h
    have heq := (φ.map_eq_iff (Numeral.lacksInert_of_isNumeric h)).mp rfl
    exact heq ▸ h
  · intro h
    rwa [φ.map_of_lacksInert (Numeral.lacksInert_of_isNumeric h)]

/-! ## Readers out of smaller ones -/

/-- What is said about another text, where a message quotes it. -/
def error : SyntaxError → SyntaxError
  | .expectedBooleanOr keywords => .expectedBooleanOr (keywords.map φ.word)
  | .unknownCommand name => .unknownCommand (φ.word name)
  | .invalidOption word allowed => .invalidOption (φ.word word) (allowed.map φ.word)
  | .invalidSelectorOption name => .invalidSelectorOption (φ.word name)
  | .invalidHasitemKey name => .invalidHasitemKey (φ.word name)
  | .invalidSelectorVariable name => .invalidSelectorVariable (φ.word name)
  | e => e

theorem error_of_isFixed {e : SyntaxError} (h : e.isFixed = true) : φ.error e = e := by
  cases e with
  | expectedBooleanOr | unknownCommand | invalidOption | invalidSelectorOption
  | invalidHasitemKey | invalidSelectorVariable => simp [SyntaxError.isFixed] at h
  | _ => rfl

/-- What a reader gives in another text. -/
def result (f : α → β) : Except SyntaxError α × Cursor → Except SyntaxError β × Cursor
  | (.ok x, c) => (.ok (f x), φ.cursor c)
  | (.error e, c) => (.error (φ.error e), φ.cursor c)

/-- Two readers of which one gives in the other text what the other one gives in the one. -/
def Mirrors (f : α → β) (r : Reader α) (s : Reader β) : Prop :=
  ∀ c, s (φ.cursor c) = φ.result f (r c)

/-- A reader of values that are the same in every text. -/
def Keeps (r : Reader α) : Prop :=
  φ.Mirrors id r r

namespace Mirrors

open Reader

variable {φ} {f : α → β} {g : α' → β'} {r r' : Reader α} {s s' : Reader β}

/-- Where a reader stops in the other text. -/
theorem cursor (h : φ.Mirrors f r s) (c : Cursor) : (s (φ.cursor c)).2 = φ.cursor (r c).2 := by
  rw [h c]
  obtain ⟨e | x, d⟩ := r c <;> rfl

theorem pure {x : α} {y : β} (h : y = f x) :
    φ.Mirrors f (pure x : Reader α) (pure y : Reader β) :=
  fun _ => h ▸ rfl

theorem fail {e : SyntaxError} (h : e.isFixed = true) :
    φ.Mirrors f (fail e : Reader α) (fail e : Reader β) :=
  fun c => congrArg (fun e => (Except.error e, φ.cursor c)) (φ.error_of_isFixed h).symm

theorem bind (h : φ.Mirrors f r s) {k : α → Reader α'} {k' : β → Reader β'}
    (hk : ∀ x, φ.Mirrors g (k x) (k' (f x))) : φ.Mirrors g (r >>= k) (s >>= k') := by
  intro c
  rw [bind_apply, bind_apply, h c]
  obtain ⟨e | x, d⟩ := r c
  · rfl
  · exact hk x d

theorem ite {P P' : Prop} [Decidable P] [Decidable P'] (hP : P' ↔ P) (h : φ.Mirrors f r s)
    (h' : φ.Mirrors f r' s') :
    φ.Mirrors f (if P then r else r') (if P' then s else s') := by
  by_cases hp : P
  · rwa [if_pos hp, if_pos (hP.mpr hp)]
  · rwa [if_neg hp, if_neg (hP.not.mpr hp)]

theorem look {h : Cursor → α} {h' : Cursor → β} (hf : ∀ c, h' (φ.cursor c) = f (h c)) :
    φ.Mirrors f (look h) (look h') :=
  fun c => congrArg (fun y => (Except.ok y, φ.cursor c)) (hf c)

theorem takeWhile (hp : Blind p) :
    φ.Mirrors (List.map φ.char) (takeWhile p) (takeWhile p) := by
  intro c
  rw [Reader.takeWhile, Reader.takeWhile, φ.ahead_cursor c hp, φ.skipWhile_cursor c hp]
  rfl

end Mirrors

namespace Keeps

open Reader

variable {φ} {r r' : Reader α}

theorem pure (x : α) : φ.Keeps (pure x : Reader α) :=
  Mirrors.pure rfl

theorem fail {e : SyntaxError} (h : e.isFixed = true) : φ.Keeps (fail e : Reader α) :=
  Mirrors.fail h

theorem bind (h : φ.Keeps r) {k : α → Reader β} (hk : ∀ x, φ.Keeps (k x)) :
    φ.Keeps (r >>= k) :=
  Mirrors.bind h hk

theorem ite {P : Prop} [Decidable P] (h : φ.Keeps r) (h' : φ.Keeps r') :
    φ.Keeps (if P then r else r') :=
  Mirrors.ite Iff.rfl h h'

theorem look {h : Cursor → α} (hf : ∀ c, h (φ.cursor c) = h c) : φ.Keeps (look h) :=
  Mirrors.look hf

theorem move {h : Cursor → Cursor} (hf : ∀ c, h (φ.cursor c) = φ.cursor (h c)) :
    φ.Keeps (move h) :=
  fun c => congrArg (Prod.mk (Except.ok ())) (hf c)

theorem isAt (hq : q ∉ inertChars) : φ.Keeps (Reader.look (·.isAt q)) :=
  look fun c => φ.isAt_cursor c hq

theorem advance : φ.Keeps (Reader.move Cursor.advance) :=
  move φ.advance_cursor

theorem spaces : φ.Keeps spaces :=
  move φ.skipSpaces_cursor

theorem exactly (hq : q ∉ inertChars) : φ.Keeps (exactly q) := by
  intro c
  unfold Reader.exactly
  rw [φ.isAt_cursor c hq, φ.advance_cursor]
  cases c.isAt q <;> rfl

theorem symbol (hq : q ∉ inertChars) : φ.Keeps (symbol q) :=
  .bind (exactly hq) fun _ => spaces

theorem argumentEnd : φ.Keeps argumentEnd :=
  .bind (look φ.terminated_cursor) fun _ => .ite spaces (fail rfl)

theorem negation : φ.Keeps negation :=
  .bind (isAt (by decide)) fun _ => .ite (symbol (by decide)) (pure _)

theorem spacesBefore (hp : Blind p) : φ.Keeps (spacesBefore p) := by
  intro c
  unfold Reader.spacesBefore
  rw [φ.skipSpaces_cursor, rest_cursor]
  cases c.skipSpaces.rest with
  | nil => rfl
  | cons x cs =>
    simp only [List.map_cons, φ.apply_char hp]
    cases p x <;> rfl

/-! ## Numbers, words and lines -/

/-- A character that is passed if it is there. -/
theorem passing (hq : q ∉ inertChars) (x : α) (h : φ.Keeps r) :
    φ.Keeps (fun c => if c.isAt q then (.ok x, c.advance) else r c : Reader α) := by
  intro c
  simp only [φ.isAt_cursor c hq, φ.advance_cursor, h c]
  cases c.isAt q <;> rfl

theorem sign : φ.Keeps sign := by
  have hsign : Reader.sign = fun c => if c.isAt '-' then (.ok true, c.advance)
      else if c.isAt '+' then (.ok false, c.advance) else (.ok false, c) := by
    funext c
    unfold Reader.sign
    split <;> simp_all [Cursor.isAt_iff]
  exact hsign ▸ passing (by decide) true (passing (by decide) false (pure false))

theorem digits {e : SyntaxError} (h : e.isFixed = true) : φ.Keeps (digits e) := by
  have htake : φ.Keeps (takeWhile Char.isDigit) := by
    intro c
    have hdigits : LacksInert (c.ahead Char.isDigit) :=
      lacksInert_of_all_isDigit fun _ => List.mem_takeWhile_imp
    rw [Mirrors.takeWhile blind_isDigit c]
    simp only [result, takeWhile, φ.map_of_lacksInert hdigits, id]
  exact htake.bind fun _ => .ite (fail h) (pure _)

theorem rawInteger : φ.Keeps rawInteger :=
  .bind sign fun _ => .bind (digits rfl) fun _ => .ite (pure _) (fail rfl)

theorem integer : φ.Keeps integer :=
  .bind rawInteger fun _ => .bind argumentEnd fun _ => pure _

theorem unsigned (negative : Bool) : φ.Keeps (unsigned negative) :=
  .bind (digits rfl) fun _ => .bind (isAt (by decide)) fun _ =>
    .ite (.bind advance fun _ => .bind (digits rfl) fun _ => pure _) (pure _)

theorem rawNumber : φ.Keeps rawNumber :=
  .bind sign unsigned

theorem number : φ.Keeps number :=
  .bind rawNumber fun _ => .bind argumentEnd fun _ => pure _

theorem startsNumber : φ.Keeps (Reader.look startsNumber) :=
  look fun c => φ.head?_any_cursor c (blind_of_all false (by decide))

theorem bound? : φ.Keeps bound? :=
  .bind startsNumber fun _ => .ite (.bind rawInteger fun _ => pure _) (pure _)

theorem upperBound? : φ.Keeps upperBound? :=
  .bind (spacesBefore (blind_eq (by decide))) fun _ => .ite
    (.bind advance fun _ => .bind (exactly (by decide)) fun _ =>
      .bind (spacesBefore (blind_of_all false (by decide))) fun _ =>
        .ite (.bind rawInteger fun _ => pure _) (pure _))
    (pure _)

theorem range : φ.Keeps range := by
  refine .bind negation fun _ => .bind bound? fun low => .bind upperBound? fun high => ?_
  cases low <;> cases high
  case none.none => exact fail rfl
  case some.some => exact .ite (fail rfl) argumentEnd
  all_goals exact argumentEnd

theorem offset : φ.Keeps offset :=
  .bind startsNumber fun _ => .ite (.bind rawNumber fun _ => pure _) (pure _)

theorem coordinate : φ.Keeps coordinate :=
  .bind (isAt (by decide)) fun _ => .ite
    (.bind advance fun _ => .bind offset fun _ => .bind argumentEnd fun _ => pure _)
    (.bind (isAt (by decide)) fun _ => .ite
      (.bind advance fun _ => .bind offset fun _ => .bind argumentEnd fun _ => pure _)
      (.bind startsNumber fun _ => .ite
        (.bind rawNumber fun _ => .bind argumentEnd fun _ => pure _) (fail rfl)))

theorem angle : φ.Keeps angle :=
  .bind (isAt (by decide)) fun _ => .ite
    (.bind advance fun _ => .bind startsNumber fun _ =>
      .ite (.bind number fun _ => pure _) (pure _))
    (.bind number fun _ => pure _)

theorem experience : φ.Keeps experience :=
  .bind rawInteger fun _ => .bind (look fun c => by
    rw [φ.isAt_cursor c (by decide), φ.isAt_cursor c (by decide)]) fun _ =>
      .ite (.bind advance fun _ => .bind argumentEnd fun _ => pure _)
        (.bind argumentEnd fun _ => pure _)

theorem jsonNumber : φ.Keeps jsonNumber := by
  have hsign : Reader.jsonNumber = ((fun c =>
      if c.isAt '-' then (.ok true, c.advance) else (.ok false, c) : Reader Bool) >>=
        fun negative => Reader.unsigned negative >>= fun x => Reader.spaces >>= fun _ =>
          Pure.pure x) := by
    unfold Reader.jsonNumber
    congr 1
    funext c
    split <;> simp_all [Cursor.isAt_iff]
  rw [hsign]
  exact .bind (passing (by decide) true (pure false)) fun _ => .bind (unsigned _) fun _ =>
    .bind spaces fun _ => pure _

end Keeps

/-! ## Words and lines -/

open Reader

theorem quoted?_map (cs : List Char) : quoted? (cs.map φ.char) =
    (quoted? cs).map fun (text, after) => (text.map φ.char, after.map φ.char) := by
  fun_induction quoted? cs with
  | case1 => rfl
  | case2 rest => rw [List.map_cons, φ.char_of_notMem (by decide)]; simp [quoted?]
  | case3 rest ih =>
    rw [List.map_cons, List.map_cons, φ.char_of_notMem (by decide),
      φ.char_of_notMem (by decide)]
    simp [quoted?, ih, Function.comp_def, φ.char_of_notMem (by decide : '"' ∉ inertChars)]
  | case4 rest => rw [List.map_cons, φ.char_of_notMem (by decide)]; simp [quoted?]
  | case5 x rest hq he hx ih =>
    have hq' : φ.char x = '"' → False := (φ.char_eq_iff (by decide)).not.mpr hq
    rw [List.map_cons, quoted?.eq_4 _ _ hq' (φ.escape_map he), if_neg, ih]
    · simp [Function.comp_def]
    · exact (φ.char_eq_iff (by decide)).not.mpr hx

theorem mirrors_rawWord : φ.Mirrors φ.word rawWord rawWord :=
  .bind (.takeWhile (.not blind_isTerminating)) fun w =>
    .ite (by rw [List.isEmpty_map]) (.fail rfl)
      (.ite (by rw [φ.isNumeric_map]) (.fail rfl) (.pure (φ.word_ofList w).symm))

theorem mirrors_word : φ.Mirrors φ.word Reader.word Reader.word :=
  .bind φ.mirrors_rawWord fun _ => .bind Keeps.argumentEnd fun _ => .pure rfl

theorem mirrors_rawQuoted : φ.Mirrors φ.word rawQuoted rawQuoted := by
  refine .bind (Keeps.exactly (by decide)) fun _ c => ?_
  rw [rest_cursor, φ.quoted?_map]
  cases quoted? c.rest with
  | none => simp only [Option.map_none, φ.toLineEnd_cursor]; rfl
  | some r => simp [result, φ.skip_cursor, φ.word_ofList]

theorem mirrors_quoted : φ.Mirrors φ.word quoted quoted :=
  .bind φ.mirrors_rawQuoted fun _ => .bind Keeps.spaces fun _ => .pure rfl

theorem mirrors_text : φ.Mirrors φ.word text text :=
  .bind (Keeps.isAt (by decide)) fun _ => .ite Iff.rfl φ.mirrors_quoted φ.mirrors_word

theorem mirrors_identifier : φ.Mirrors φ.word identifier identifier := by
  refine .bind (.takeWhile (.not blind_isTerminating)) fun w => ?_
  have hall : (w.map φ.char).all isIdentifierChar = w.all isIdentifierChar :=
    φ.all_map (blind_of_all false (by decide)) w
  have hcount : (w.map φ.char).count ':' = w.count ':' := by
    rw [List.count, List.countP_map]
    have hcolon : Blind (· == ':') := blind_of_all false (by decide)
    exact congrArg (List.countP · w) (φ.comp_char hcolon)
  refine .ite (by rw [List.isEmpty_map]) (.fail rfl) ?_
  refine .ite (by rw [hall]) (.fail rfl) ?_
  refine .ite (by rw [hcount]) (.fail rfl) ?_
  refine .ite (by rw [φ.isNumeric_map]) (.fail rfl) ?_
  exact .bind Keeps.spaces fun _ => .pure (φ.word_ofList w).symm

theorem keeps_boolean : φ.Keeps boolean :=
  Mirrors.bind φ.mirrors_rawWord fun _ =>
    Mirrors.ite (φ.word_eq_iff rfl) (.bind Keeps.argumentEnd fun _ => .pure rfl)
      (Mirrors.ite (φ.word_eq_iff rfl) (.bind Keeps.argumentEnd fun _ => .pure rfl) (.fail rfl))

theorem mirrors_line : φ.Mirrors φ.word line line := by
  intro c
  rw [Reader.line, Reader.line, φ.lineText_cursor, φ.toLineEnd_cursor]
  rfl

end Relabelling
end BedrockCommand
