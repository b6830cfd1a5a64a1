import BedrockCommand.Proofs.Reader.Exact
import BedrockCommand.Proofs.Tokenize.Frame
import BedrockCommand.Proofs.Tokenize.Kinds
import BedrockCommand.Proofs.Tokenize.Reread
/-!
Abbreviations stand for the names of commands. What is read behind a keyword depends on the command
and on where the keyword ends, and not on how the keyword was typed.
-/
namespace BedrockCommand

theorem WordText.newline_notMem {w : List Char} {s : String} (h : WordText w s) : '\n' ∉ w := by
  obtain ⟨-, hw, -⟩ := h
  exact fun hmem => by simpa [show isTerminating '\n' = true from rfl] using hw _ hmem

namespace Grammar

variable {a n : String}

theorem canonicalName_of_notMem (h : n ∉ abbreviations.map Prod.fst) : canonicalName n = n := by
  have hnone : abbreviations.lookup n = none :=
    List.lookup_eq_none_iff.mpr fun p hp => by
      simpa using fun e : n = p.1 => h (e ▸ List.mem_map_of_mem hp)
  rw [canonicalName, hnone, Option.getD_none]

/-- An abbreviation stands for a name, and the name for itself. -/
theorem canonicalName_abbreviation (h : (a, n) ∈ abbreviations) :
    canonicalName a = n ∧ canonicalName n = n := by
  have hall : ∀ p ∈ abbreviations, canonicalName p.1 = p.2 := by decide
  have ha : canonicalName a = n := hall _ h
  exact ⟨ha, canonicalName_of_notMem (ha ▸ canonicalName_notMem a)⟩

/-- Whether a text is read as a word. -/
def isWord (w : String) : Bool :=
  !w.toList.isEmpty && w.toList.all (fun x => !isTerminating x) && !Numeral.isNumeric w.toList

theorem wordText_of_isWord {w : String} (h : isWord w = true) : WordText w.toList w := by
  simp only [isWord, Bool.and_eq_true, Bool.not_eq_true', List.isEmpty_eq_false_iff] at h
  obtain ⟨⟨hne, hw⟩, hn⟩ := h
  have hw : ∀ x ∈ w.toList, isTerminating x = false := by simpa using hw
  simpa using WordText.intro hne hw hn

theorem wordText_abbreviation (h : (a, n) ∈ abbreviations) :
    WordText a.toList a ∧ WordText n.toList n := by
  have hall : ∀ p ∈ abbreviations, isWord p.1 = true ∧ isWord p.2 = true := by decide
  exact (hall _ h).imp wordText_of_isWord wordText_of_isWord

/-- The commands that have abbreviations exist in every version. -/
theorem exists_command_abbreviation (h : (a, n) ∈ abbreviations) (version : Version) :
    ∃ rule, command? n version = some rule := by
  have halways {rule : Rule} (hr : commands.lookup n = some (.always rule)) :
      ∃ rule, command? n version = some rule :=
    ⟨rule, by rw [command?, hr, Option.bind_some, Versioned.resolve?_always]⟩
  simp only [abbreviations, List.mem_cons, Prod.mk.injEq, List.not_mem_nil, or_false] at h
  rcases h with ⟨-, rfl⟩ | ⟨-, rfl⟩ | ⟨-, rfl⟩ | ⟨-, rfl⟩ | ⟨-, rfl⟩ | ⟨-, rfl⟩ | ⟨-, rfl⟩
  all_goals exact halways rfl

end Grammar

/-! ## Behind a keyword -/

/-- What is reported behind the keyword of a command, as if the keyword ended at line 0 and
column 0. -/
def eventsBehind (version : Version) (rule : Rule) (rest : List Char) : List Event :=
  let c : Cursor := ⟨rest, ⟨0, 0⟩⟩
  let s := rule.run ⟨Grammar.dialect version, Command.inner version maxNesting⟩ c.skipSpaces
  s.closeCommand.events ++ linesEvents version (splitLines c.toLineEnd.rest).tail ⟨1, 0⟩

section

variable {version : Version} {typed rest : String} {rule : Rule}

/-- What is reported about a text that begins with a keyword: the keyword itself, and behind it
what does not depend on the keyword but for its place. -/
theorem events_readText_keyword (hw : WordText typed.toList typed)
    (hr : Grammar.command? (Grammar.canonicalName typed) version = some rule)
    (he : endsWord rest.toList = true) (start : Position) :
    let behind := Position.framed ⟨start.line, start.column + typed.length⟩
    let span : Span := ⟨start, behind (Cursor.mk rest.toList ⟨0, 0⟩).skipSpaces.position⟩
    let name := Grammar.canonicalName typed
    (readText (typed ++ rest) start version).events =
      .notice (.commandRead span name typed) :: .token ⟨.command, .command name, span⟩ ::
        (Step.warningEvents
            (if name ∈ Grammar.restricted then some (.noPermission typed) else none) span ++
          (eventsBehind version rule rest.toList).map (Event.moved behind)) := by
  intro behind span name
  let c : Cursor := ⟨typed.toList ++ rest.toList, start⟩
  let d : Cursor := ⟨rest.toList, start.after typed.toList⟩
  let e : Cursor := ⟨rest.toList, ⟨0, 0⟩⟩
  have hm := Position.movesTexts_framed ⟨start.line, start.column + typed.length⟩
  have hnewline := hw.newline_notMem
  have hplace : start.after typed.toList = behind ⟨0, 0⟩ := by
    rw [Position.after_of_notMem hnewline, String.length_toList]
    rfl
  have halike : Cursor.Alike behind e.skipSpaces d.skipSpaces :=
    Cursor.Alike.skipSpaces ⟨rfl, hplace⟩ hm.movesLines
  have hword : Reader.word c = (.ok typed, d.skipSpaces) := Reader.word_append hw he start
  have hahead := Reader.ahead_word hword
  have hrest : c.toLineEnd.rest = e.toLineEnd.rest := by
    have hbehind : c.Ahead d := ⟨typed.toList, hnewline, rfl, rfl⟩
    rw [← hbehind.toLineEnd_eq]
    rfl
  -- Behind the keyword the line is read as if it started there, and so are the lines below.
  let env : Env := ⟨Grammar.dialect version, Command.inner version maxNesting⟩
  have hrun : Step.Alike behind (rule.run env e.skipSpaces) (rule.run env d.skipSpaces) :=
    Rule.alike_run hm.movesLines (Command.sound_inner maxNesting)
      (Command.alike_inner hm.movesLines maxNesting) (Rule.wellFormed_command? hr) (by simp) halike
  have hclosed := Command.alike_closeCommand hm.movesLines hrun
  have hbelow : linesEvents version (splitLines e.toLineEnd.rest).tail ⟨start.line + 1, 0⟩ =
      (linesEvents version (splitLines e.toLineEnd.rest).tail ⟨1, 0⟩).map (Event.moved behind) :=
    linesEvents_moved hm _ ⟨1, 0⟩
  have htext : (typed ++ rest).toList = c.rest := String.toList_append
  rw [events_readText, htext, linesEvents_splitLines c, readLine_of_word hword,
    Command.read_of_command hword hr, Step.keyword_ahead hahead, Step.events_andThen_of_done rfl,
    hclosed.events, hrest, hbelow, halike.position, List.append_assoc, ← List.map_append]
  rfl

/-- The tokens and the warnings of a text that begins with a keyword: those of the keyword, and
others behind them. -/
structure Tokenized.StartsWith (result : Tokenized) (typed name : String) (span : Span)
    (ts : List Token) (ws : List Warning) : Prop where
  tokens : result.tokens = ⟨.command, .command name, span⟩ :: ts
  warnings : result.warnings =
    (if name ∈ Grammar.restricted then [⟨.noPermission typed, span⟩] else []) ++ ws

theorem startsWith_keyword (hw : WordText typed.toList typed)
    (hr : Grammar.command? (Grammar.canonicalName typed) version = some rule)
    (he : endsWord rest.toList = true) (start : Position) :
    let behind := Position.framed ⟨start.line, start.column + typed.length⟩
    let events := (eventsBehind version rule rest.toList).map (Event.moved behind)
    (Tokenized.ofEvents (readText (typed ++ rest) start version).events).StartsWith typed
      (Grammar.canonicalName typed)
      ⟨start, behind (Cursor.mk rest.toList ⟨0, 0⟩).skipSpaces.position⟩
      (Tokenized.ofEvents events).tokens (Tokenized.ofEvents events).warnings := by
  have hevents := events_readText_keyword hw hr he start
  constructor
  · simp only [hevents, Tokenized.tokens_notice, Tokenized.tokens_token, Tokenized.tokens_append,
      Tokenized.tokens_warningEvents, List.nil_append]
  · simp only [hevents, Tokenized.warnings_notice, Tokenized.warnings_token,
      Tokenized.warnings_append, Tokenized.warnings_warningEvents]
    split <;> rfl

end

/-- An abbreviation makes no difference. In front of the same text, an abbreviation and the name
that it stands for give the same tokens and the same warnings, with the same kinds and the same
values. They differ in where the keyword ends, and so in the columns of what is behind it on the
first line, and in that a warning about the keyword gives it as it was typed. -/
theorem tokenize_abbreviation {a n rest : String} (h : (a, n) ∈ Grammar.abbreviations)
    (he : endsWord rest.toList = true) (start : Position) (version : Version) :
    ∃ result result' stop stop' ts ts' ws ws',
      tokenize (a ++ rest) start version = .ok result ∧
      tokenize (n ++ rest) start version = .ok result' ∧
      result.StartsWith a n ⟨start, stop⟩ ts ws ∧
      result'.StartsWith n n ⟨start, stop'⟩ ts' ws' ∧
      Position.Corresponds ⟨start.line, start.column + a.length⟩
        ⟨start.line, start.column + n.length⟩ stop stop' ∧
      List.Forall₂ (Token.Corresponds ⟨start.line, start.column + a.length⟩
        ⟨start.line, start.column + n.length⟩) ts ts' ∧
      List.Forall₂ (Warning.Corresponds ⟨start.line, start.column + a.length⟩
        ⟨start.line, start.column + n.length⟩) ws ws' := by
  obtain ⟨ha, hn⟩ := Grammar.canonicalName_abbreviation h
  obtain ⟨hwa, hwn⟩ := Grammar.wordText_abbreviation h
  obtain ⟨rule, hr⟩ := Grammar.exists_command_abbreviation h version
  have habbreviated := startsWith_keyword hwa (ha.symm ▸ hr) he start
  have hnamed := startsWith_keyword hwn (hn.symm ▸ hr) he start
  rw [ha] at habbreviated
  rw [hn] at hnamed
  have hbehind := Tokenized.corresponds_framed ⟨start.line, start.column + a.length⟩
    ⟨start.line, start.column + n.length⟩ (eventsBehind version rule rest.toList)
  exact ⟨_, _, _, _, _, _, _, _, tokenize_eq .., tokenize_eq .., habbreviated, hnamed,
    Position.corresponds_framed .., hbehind.1, hbehind.2⟩

/-- The warning about this command gives the keyword as it was typed, and what is behind it on the
line stands one column further to the left. -/
theorem tokenize_abbreviation_connect : ∃ result result' stop stop' ts ts' ws ws',
    tokenize ("connect" ++ " x\nlist") ⟨0, 0⟩ .latest = .ok result ∧
    tokenize ("wsserver" ++ " x\nlist") ⟨0, 0⟩ .latest = .ok result' ∧
    result.StartsWith "connect" "wsserver" ⟨⟨0, 0⟩, stop⟩ ts ws ∧
    result'.StartsWith "wsserver" "wsserver" ⟨⟨0, 0⟩, stop'⟩ ts' ws' ∧
    Position.Corresponds ⟨0, 7⟩ ⟨0, 8⟩ stop stop' ∧
    List.Forall₂ (Token.Corresponds ⟨0, 7⟩ ⟨0, 8⟩) ts ts' ∧
    List.Forall₂ (Warning.Corresponds ⟨0, 7⟩ ⟨0, 8⟩) ws ws' := by
  have hmem : ("connect", "wsserver") ∈ Grammar.abbreviations := by decide
  have hends : endsWord " x\nlist".toList = true := by decide
  exact tokenize_abbreviation hmem hends ⟨0, 0⟩ .latest

end BedrockCommand
