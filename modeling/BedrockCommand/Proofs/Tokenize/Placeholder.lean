import BedrockCommand.Proofs.Grammar.Upgrade
import BedrockCommand.Proofs.Rule.Relabelling
import BedrockCommand.Proofs.Tokenize.Termination
/-!
The placeholder in a text. What stands for the end of a text where a character is wanted may also
stand in the text, and there it is a character like any other control: with another one in its
place, the text has the same tokens and the same warnings.
-/
namespace BedrockCommand

variable {version : Version}

namespace Grammar

theorem isPlainWord_abbreviations :
    (abbreviations.map Prod.fst).all isPlainWord = true ∧
      (abbreviations.map Prod.snd).all isPlainWord = true := by
  decide

theorem isPlainWord_commands : (commands.map Prod.fst).all isPlainWord = true := by
  decide

theorem isPlainWord_selectorOptions (version : Version) :
    (dialect version).selectorOptions.all isPlainWord = true := by
  rw [selectorOptions_dialect]
  split <;> decide

theorem isPlainWord_of_lookup {table : List (String × α)}
    (h : (table.map Prod.fst).all isPlainWord = true) {name : String} {x : α}
    (hx : table.lookup name = some x) : isPlainWord name = true :=
  List.all_eq_true.mp h _ (List.mem_map_of_mem (Rule.mem_of_lookup hx))

/-- What is typed for a command is a plain word. -/
theorem isPlainWord_of_command? {typed : String} {rule : Rule}
    (h : command? (canonicalName typed) version = some rule) : isPlainWord typed = true := by
  obtain ⟨rules, hl, -⟩ := Option.bind_eq_some_iff.mp h
  cases hf : abbreviations.lookup typed with
  | none =>
    rw [canonicalName, hf, Option.getD_none] at hl
    exact isPlainWord_of_lookup isPlainWord_commands hl
  | some full => exact isPlainWord_of_lookup isPlainWord_abbreviations.1 hf

end Grammar

namespace Relabelling

variable (φ : Relabelling)

theorem lookup_word {table : List (String × β)} (h : (table.map Prod.fst).all isPlainWord = true)
    (w : String) : table.lookup (φ.word w) = table.lookup w := by
  induction table with
  | nil => rfl
  | cons entry table ih =>
    obtain ⟨key, x⟩ := entry
    obtain ⟨hkey, h⟩ := Bool.and_eq_true_iff.mp (List.all_cons ▸ List.map_cons ▸ h)
    have hbeq : (φ.word w == key) = (w == key) := by
      rw [Bool.eq_iff_iff, beq_iff_eq, beq_iff_eq, φ.word_eq_iff hkey]
    rw [List.lookup_cons, List.lookup_cons, hbeq, ih h]

theorem canonicalName_word (typed : String) :
    Grammar.canonicalName (φ.word typed) = φ.word (Grammar.canonicalName typed) := by
  obtain ⟨hkeys, hnames⟩ := Grammar.isPlainWord_abbreviations
  rw [Grammar.canonicalName, Grammar.canonicalName, φ.lookup_word hkeys]
  cases h : Grammar.abbreviations.lookup typed with
  | none => rfl
  | some full => exact (φ.word_of_mem hnames (List.mem_map_of_mem (Rule.mem_of_lookup h))).symm

theorem command?_word (name : String) :
    Grammar.command? (φ.word name) version = Grammar.command? name version := by
  rw [Grammar.command?, Grammar.command?, φ.lookup_word Grammar.isPlainWord_commands]

theorem keyword_cursor (name typed : String) (c d : Cursor) :
    Step.keyword name typed (φ.cursor c) (φ.cursor d) = φ.step (Step.keyword name typed c d) := by
  simp only [Step.keyword, Step.between, position_cursor]
  split
  · rfl
  · simp only [step, List.map_cons, map_warningEvents]
    rfl

namespace Commutes

open Step

variable {φ} {f : Cursor → Step}

theorem closeCommand (hf : φ.Commutes f) : φ.Commutes fun c => (f c).closeCommand :=
  hf.settle.andThen (.ite (fun c => by rw [φ.lineContinues_cursor]) (sweep rfl) done)

theorem body (hf : φ.Commutes f) : φ.Commutes (Command.body version f) := by
  intro c
  simp only [Command.body, φ.mirrors_word c]
  obtain ⟨e | typed, d⟩ := Reader.word c
  · exact ((sweep rfl).andThen halt) c
  · simp only [result, φ.canonicalName_word, φ.command?_word]
    cases hr : Grammar.command? (Grammar.canonicalName typed) version with
    | none =>
      have herror := φ.error_cursor (.unknownCommand (Grammar.canonicalName typed)) c c.toLineEnd
      rw [← φ.toLineEnd_cursor] at herror
      simp only [Step.sweep]
      exact herror ▸ φ.step_andThen halt _
    | some rule =>
      have hrun : φ.Commutes (rule.run ⟨Grammar.dialect version, f⟩) :=
        φ.commutes_run (Grammar.isPlainWord_selectorOptions version) (fun _ => hf)
          (Rule.composed_command? hr).plain
      have htyped := φ.word_of_isPlainWord (Grammar.isPlainWord_of_command? hr)
      simp only [htyped, ← φ.canonicalName_word]
      rw [φ.keyword_cursor]
      exact φ.step_andThen hrun _

theorem tooDeep : φ.Commutes Command.tooDeep := by
  have hreport : φ.Commutes fun c =>
      Step.report (.notice (.commandTooDeep c.position maxNesting)) c := fun _ => rfl
  exact hreport.andThen ((sweep rfl).andThen halt)

theorem read (depth : Nat) : φ.Commutes (Command.read version depth) := by
  induction depth with
  | zero => exact (body tooDeep).closeCommand
  | succ depth ih => exact (body ih).closeCommand

theorem readLine : φ.Commutes (readLine version) := by
  have hcomment : φ.Commutes readComment := by
    intro c
    rw [readComment, φ.toLineEnd_cursor]
    exact φ.token_cursor (some .comment) .none none c c.toLineEnd
  have hline : φ.Commutes fun c => if c.atEnd then .done c else if c.isAt '#' then readComment c
      else if c.isAt '\n' then .done c.advance else Command.read version maxNesting c :=
    .ite (fun c => by rw [φ.atEnd_cursor]) done <|
    .ite (fun c => by rw [φ.isAt_cursor c (by decide)]) hcomment <|
    .ite (fun c => by rw [φ.isAt_cursor c (by decide)]) (done.comp φ.advance_cursor)
      (read maxNesting)
  exact hline.comp φ.skipSpaces_cursor

theorem readLines (fuel : Nat) : φ.Commutes (readLines version fuel) := by
  induction fuel with
  | zero => exact fail _
  | succ fuel ih => exact .ite (fun c => by rw [φ.atEnd_cursor]) done (readLine.andThen ih)

end Commutes

/-- The result for another text. -/
def tokenized (t : Tokenized) : Tokenized :=
  { t with tokens := t.tokens.map φ.token }

theorem ofEvents_map (events : List Event) :
    Tokenized.ofEvents (events.map φ.event) = φ.tokenized (.ofEvents events) := by
  simp only [Tokenized.ofEvents, tokenized, List.filterMap_map, List.map_filterMap,
    Tokenized.mk.injEq]
  refine ⟨List.filterMap_congr fun e _ => ?_, List.filterMap_congr fun e _ => ?_,
    List.filterMap_congr fun e _ => ?_⟩
  all_goals cases e <;> rfl

theorem readText_word (text : String) (start : Position) (version : Version) :
    readText (φ.word text) start version = φ.step (readText text start version) := by
  have hcursor : Cursor.ofText (φ.word text) start = φ.cursor (.ofText text start) := by
    rw [Cursor.ofText, toList_word]
    rfl
  have hlength : (φ.word text).length = text.length := String.length_map
  rw [readText, hcursor, hlength]
  exact Commutes.readLines _ _

/-- A text has the same tokens and the same warnings as the other text, but for the words that
errors quote. -/
theorem tokenize_word (text : String) (start : Position) (version : Version) :
    tokenize (φ.word text) start version = (tokenize text start version).map φ.tokenized := by
  rw [tokenize_eq, tokenize_eq, readText_word]
  exact congrArg Except.ok (φ.ofEvents_map _)

/-- Another control character in place of the placeholder. -/
def placeholder : Relabelling where
  char x := if x = Cursor.placeholder then '\x05' else x
  inert x := by
    split
    · next h => exact .inr ⟨h ▸ by decide, by decide⟩
    · exact .inl rfl

end Relabelling

/-! ## Cursors on the placeholder -/

namespace Cursor

/-- What is under a cursor ends nothing: neither the text nor the line, and no word, no quoted
string and no list. -/
structure EndsNothing (c : Cursor) : Prop where
  text : c.atEnd = false
  line : c.lineContinues = true
  word : c.terminated = false
  string : (Reader.quoted? c.rest).map Prod.snd = (Reader.quoted? c.advance.rest).map Prod.snd
  list (b : Brackets) (quoted : Bool) (depth : Nat) :
    separatorOffset b.closing quoted depth c.rest =
      1 + separatorOffset b.closing quoted depth c.advance.rest

theorem endsNothing_of_isAt {c : Cursor} (h : c.isAt placeholder = true) : c.EndsNothing := by
  obtain ⟨rest, p⟩ := c
  obtain ⟨cs, rfl : rest = '\x04' :: cs⟩ := isAt_iff.mp h
  have hadvance : (⟨'\x04' :: cs, p⟩ : Cursor).advance.rest = cs := rfl
  refine ⟨rfl, rfl, rfl, ?_, fun b quoted depth => ?_⟩ <;> rw [hadvance]
  · rw [Reader.quoted?.eq_4 _ _ (by decide) (by simp), if_neg (by decide), Option.map_map]
    rfl
  · rw [separatorOffset.eq_3 _ _ _ _ _ (by simp)]
    cases quoted <;> cases b <;> simp [Brackets.closing]

/-- What is shown where the text has ended does not matter to a test that the placeholder fails. -/
theorem any_charAt {p : Char → Bool} (hp : p placeholder = false) (c : Cursor) (k : Nat) :
    (c.charAt k).any p = p ((c.charAt k).getD placeholder) := by
  cases c.charAt k with
  | none => exact hp.symm
  | some x => rfl

end Cursor

/-- The placeholder in a text is an ordinary character. With another control in its place, every
token is the same as before, but for the words that errors quote, and so is every warning. A cursor
on it is not at the end of anything. And all that is asked about the character under a cursor, or
about one further on, has the answer that it has for what is shown there, since nothing that is
asked for is the placeholder. -/
theorem placeholder_is_ordinary (text : String) (start : Position) (version : Version) :
    (∃ result, tokenize text start version = .ok result ∧
      tokenize (text.map fun x => if x = Cursor.placeholder then '\x05' else x) start version =
        .ok { result with tokens := result.tokens.map Relabelling.placeholder.token }) ∧
    (∀ c : Cursor, c.isAt Cursor.placeholder = true → c.EndsNothing) ∧
    ∀ (c : Cursor) (p : Char → Bool), p Cursor.placeholder = false →
      (c.charAt 0).any p = p c.current ∧ ∀ k, (c.charAt (k + 1)).any p = p (c.peek k) := by
  refine ⟨⟨_, tokenize_eq .., ?_⟩, fun c => Cursor.endsNothing_of_isAt,
    fun c p hp => ⟨c.any_charAt hp 0, fun k => c.any_charAt hp (k + 1)⟩⟩
  have hword := Relabelling.placeholder.tokenize_word text start version
  rw [tokenize_eq text] at hword
  exact hword

/-- An error that quotes the placeholder. -/
example : tokenize "a\x04" .origin .latest =
    .ok ⟨[⟨.error, .error (.unknownCommand "a\x04"), ⟨⟨1, 0⟩, ⟨1, 2⟩⟩⟩], [], []⟩ := by
  rfl

end BedrockCommand
