import BedrockCommand.Proofs.Command.Accepts
import BedrockCommand.Proofs.Grammar.Orderly
import BedrockCommand.Proofs.Json.Text
import BedrockCommand.Proofs.Rule.Padding
import BedrockCommand.Proofs.Tokenize.Reread
/-!
Spaces at the end of a line are neutral: with more of them or fewer, a line without errors has the
same tokens and the same warnings, and a line with errors has some.
-/
namespace BedrockCommand

open Cursor (Padded Flush)

variable {version : Version} {nested : Cursor → Step} {s t : Step} {c d : Cursor}

/-- Every command of a version is orderly. -/
theorem Rule.orderly_of_command? {name : String} {rule : Rule}
    (h : Grammar.command? name version = some rule) : rule.Orderly (fun _ => true) True true := by
  rcases orderly_command? (fun _ _ => rfl) h with h | ⟨-, rfl⟩
  · exact h
  · exact .argument rfl rfl

namespace Command

theorem matches_closeCommand (hs : s.Clean → s.Matches Flush t) (hc : s.closeCommand.Clean) :
    s.closeCommand.Matches Flush t.closeCommand := by
  refine (hs hc.left.of_settle).settle.andThen_clean hc fun h hend => ?_
  simp only [h.lineContinues] at hend ⊢
  split
  · next hl =>
    rw [if_pos hl] at hend
    exact absurd hend (Step.not_clean_error _ _ _)
  · exact .done h

theorem matches_keyword (name typed : String) {c' d' : Cursor} (hc : c.Ahead c') (hd : d.Ahead d')
    (h : Flush c' d') :
    (Step.keyword name typed c c').Matches Flush (Step.keyword name typed d d') := by
  rw [Step.keyword_ahead hc, Step.keyword_ahead hd]
  refine ⟨?_, rfl, rfl, rfl, h⟩
  simp [Event.placeless, Step.map_warningEvents, Event.moved, Notice.moved, Span.moved]

theorem pads_body (hs : ∀ d, (nested d).Sound version d) (hn : Step.Pads Padded nested) :
    Step.Pads Padded (body version nested) := by
  intro c d h hc
  unfold body at hc ⊢
  rcases hw : Reader.word c with ⟨_ | typed, c'⟩
  · rw [hw] at hc
    exact absurd hc.left (Step.not_clean_error _ _ _)
  obtain ⟨d', hd, hflush⟩ := Reader.pads_word c d typed c' h hw
  simp only [hw, hd] at hc ⊢
  cases hr : Grammar.command? (Grammar.canonicalName typed) version with
  | none =>
    rw [hr] at hc
    exact absurd hc.left (Step.not_clean_error _ _ _)
  | some rule =>
    rw [hr] at hc
    have hahead := Reader.ahead_word hw
    have hkeyword := matches_keyword (Grammar.canonicalName typed) typed hahead
      (Reader.ahead_word hd) hflush
    refine hkeyword.andThen_clean hc fun h' hrule => ?_
    exact Rule.pads_run hs hn (Rule.wellFormed_command? hr) (Rule.orderly_of_command? hr)
      h'.padded (fun _ => h') (by simp) (by simp) hrule

/-- A command inside others, on one level after another. -/
theorem pads_inner (levels : Nat) : Step.Pads Padded (inner version levels) := by
  induction levels with
  | zero =>
    intro c d _ hc
    rw [inner, tooDeep_eq] at hc
    exact absurd rfl (hc.only _ (List.mem_cons_of_mem _ (List.mem_singleton_self _)))
  | succ levels ih =>
    intro c d h hc
    simp only [inner, read_eq_body] at hc ⊢
    exact matches_closeCommand (pads_body (sound_inner levels) ih c d h) hc

theorem pads_read (levels : Nat) : Step.Pads Padded (read version levels) :=
  pads_inner (levels + 1)

end Command

theorem pads_readLine : Step.Pads Padded (readLine version) := by
  intro c d h hc
  have hflush := h.skipSpaces
  unfold readLine at hc ⊢
  simp only [hflush.atEnd, hflush.padded.isAt (by decide : '#' ≠ ' '),
    hflush.padded.isAt (by decide : '\n' ≠ ' ')] at hc ⊢
  split
  · exact .done hflush
  next he =>
  rw [if_neg he] at hc
  split
  · exact .token _ _ _ (Cursor.ahead_toLineEnd _) (Cursor.ahead_toLineEnd _)
      hflush.padded.toLineEnd
  next hcomment =>
  rw [if_neg hcomment] at hc
  split
  · next hnewline =>
    obtain ⟨cs, hr⟩ := Cursor.isAt_iff.mp hnewline
    exact absurd (hr ▸ List.mem_cons_self ..) hflush.padded.newline
  · next hnewline =>
    rw [if_neg hnewline] at hc
    exact Command.pads_read maxNesting _ _ hflush.padded hc

namespace Tokenized

variable {es fs : List Event}

/-- What tokens and warnings say does not depend on their places. -/
theorem eq_of_placeless (h : fs.map Event.placeless = es.map Event.placeless) :
    (ofEvents fs).tokens.map (fun t => (t.kind, t.value)) =
        (ofEvents es).tokens.map (fun t => (t.kind, t.value)) ∧
      (ofEvents fs).warnings.map Warning.kind = (ofEvents es).warnings.map Warning.kind := by
  have htokens := congrArg (fun es => (ofEvents es).tokens.map fun t => (t.kind, t.value)) h
  have hwarnings := congrArg (fun es => (ofEvents es).warnings.map Warning.kind) h
  simp only [Event.placeless, tokens_moved, warnings_moved, List.map_map] at htokens hwarnings
  exact ⟨htokens, hwarnings⟩

theorem hasErrors_of_placeless (h : fs.map Event.placeless = es.map Event.placeless) :
    (ofEvents fs).hasErrors = (ofEvents es).hasErrors := by
  have hany (events : List Event) : (ofEvents events).hasErrors =
      ((ofEvents events).tokens.map fun t => (t.kind, t.value)).any fun p => p.1 = .error := by
    rw [List.any_map]
    rfl
  rw [hany, hany, (eq_of_placeless h).1]

end Tokenized

/-- The events of a line that stands alone. -/
theorem events_readText_line {text : String} (hn : '\n' ∉ text.toList) (start : Position) :
    (readText text start version).events = (readLine version ⟨text.toList, start⟩).events := by
  rw [events_readText, splitLines_line hn, linesEvents, linesEvents, List.append_nil]

/-- A line without errors has none with other spaces at its end either. -/
theorem placeless_readLine (h : Padded c d)
    (hc : (Tokenized.ofEvents (readLine version c).events).hasErrors = false) :
    (readLine version d).events.map Event.placeless =
      (readLine version c).events.map Event.placeless := by
  refine (pads_readLine c d h ⟨fun f hf => ?_, Tokenized.hasErrors_ofEvents.mp hc⟩).events
  rcases readLine_cases version c with ⟨-, hs⟩ | ⟨-, hs⟩ | ⟨-, -, ho, -⟩
  · simp [hs, Step.done] at hf
  · simp [hs, Step.done] at hf
  · simp [ho] at hf

/-- Spaces at the end of a line are neutral. With them the line has an error just if it has one
without them, and if it has none, its tokens say the same and it is warned about the same. -/
theorem tokenize_append_spaces {text : String} (hn : '\n' ∉ text.toList) (n : Nat)
    (start : Position) (version : Version) :
    ∃ result padded, tokenize text start version = .ok result ∧
      tokenize (text ++ String.ofList (List.replicate n ' ')) start version = .ok padded ∧
      (result.hasErrors = false ↔ padded.hasErrors = false) ∧
      (result.hasErrors = false →
        padded.tokens.map (fun t => (t.kind, t.value)) =
            result.tokens.map (fun t => (t.kind, t.value)) ∧
          padded.warnings.map Warning.kind = result.warnings.map Warning.kind) := by
  refine ⟨_, _, tokenize_eq .., tokenize_eq .., ?_⟩
  have htext : (text ++ String.ofList (List.replicate n ' ')).toList =
      text.toList ++ List.replicate n ' ' := by
    rw [String.toList_append, String.toList_ofList]
  have hpadded : Padded ⟨text.toList, start⟩
      ⟨(text ++ String.ofList (List.replicate n ' ')).toList, start⟩ :=
    ⟨htext ▸ .append_spaces _ n, hn⟩
  rw [events_readText_line hn, events_readText_line hpadded.newline']
  refine ⟨⟨fun h => ?_, fun h => ?_⟩, fun h => ?_⟩
  · rw [Tokenized.hasErrors_of_placeless (placeless_readLine hpadded h), h]
  · rw [Tokenized.hasErrors_of_placeless (placeless_readLine hpadded.symm h), h]
  · exact Tokenized.eq_of_placeless (placeless_readLine hpadded h)

/-- Spaces behind the last argument are no arguments, and the warning about the keyword stays. -/
theorem tokenize_append_spaces_op :
    '\n' ∉ "op @a".toList ∧ ∃ padded,
      tokenize ("op @a" ++ String.ofList (List.replicate 2 ' ')) ⟨1, 0⟩ .latest = .ok padded ∧
      padded.hasErrors = false ∧
      padded.tokens.map (fun t => (t.kind, t.value)) =
        [(.command, .command "op"), (.selector, .none)] ∧
      padded.warnings.map Warning.kind = [.noPermission "op"] := by
  have hn : '\n' ∉ "op @a".toList := by decide
  obtain ⟨result, padded, hresult, hpadded, herrors, hsame⟩ :=
    tokenize_append_spaces hn 2 ⟨1, 0⟩ .latest
  obtain rfl := Except.ok.inj ((tokenize_eq ..).symm.trans hresult)
  have hclean : (Tokenized.ofEvents (readText "op @a" ⟨1, 0⟩ .latest).events).hasErrors = false :=
    by decide +kernel
  obtain ⟨htokens, hwarnings⟩ := hsame hclean
  refine ⟨hn, padded, hpadded, herrors.mp hclean, htokens.trans ?_, hwarnings.trans ?_⟩
  · decide +kernel
  · decide +kernel

end BedrockCommand
