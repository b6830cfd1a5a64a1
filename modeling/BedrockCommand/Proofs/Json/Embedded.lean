import BedrockCommand.Proofs.Json.Blanks
import BedrockCommand.Proofs.Json.Nesting
import BedrockCommand.Proofs.Json.Text
import BedrockCommand.Proofs.Tokenize.Events
/-!
JSON at the end of a command and JSON that stands alone. A command reads what is left of its line
without the blanks at its end, as a text that begins where it stands in the line. So both agree on
what is JSON, up to blanks at the end that are not spaces.
-/
namespace BedrockCommand

open Phrase

variable {dialect : JsonDialect} {shape : JsonShape} {start : Position} {r tail : List Char}
  {ls : List JsonLeaf}

/-! ## What is left over -/

/-- What is left over is one error, up to the end, after the tokens of the value. -/
theorem Step.Gives.tokens_whole {s : Step} {d : Cursor} (h : s.Gives ls d) (hd : d.rest ≠ [])
    (hn : '\n' ∉ d.rest) : ∃ ts, ts.map Token.leaf = ls ∧ ts.any Token.isError = false ∧
      s.whole.tokens =
        ts ++ [⟨.error, .error .tooMuchJson, ⟨d.position, d.position.after d.rest⟩⟩] := by
  have hend : d.toLineEnd = ⟨[], d.position.after d.rest⟩ := by
    simpa using Cursor.toLineEnd_append (p := d.position) lineEnd_nil hn
  refine ⟨s.tokens, (Tokenized.map_leaf_ofEvents _).trans h.leaves,
    Tokenized.hasErrors_ofEvents.mpr h.only, ?_⟩
  unfold Step.whole
  rw [h.settle]
  simp only [Step.tokens, Step.andThen, h.outcome, h.cursor,
    if_neg fun he => hd (Cursor.atEnd_iff.mp he), Step.sweep_eq, hend, Tokenized.tokens_append,
    Tokenized.tokens_token, Tokenized.tokens_nil]

/-- A text that goes on after a complete value, neither with a space nor with anything that would
go on with a number or a name at its end, has the tokens of the value and one error for the rest. -/
theorem tokens_readJson_of_leftover {pre post : List Char} {x : Char}
    (h : IsJson dialect shape start pre ls) (hx : x ≠ ' ') (hp : ¬ Reader.Continues x pre)
    (hn : '\n' ∉ pre ++ x :: post) : ∃ ts, ts.map Token.leaf = ls ∧
      ts.any Token.isError = false ∧
      (readJson (String.ofList (pre ++ x :: post)) start shape dialect).tokens = ts ++
        [⟨.error, .error .tooMuchJson, ⟨start.after pre, start.after (pre ++ x :: post)⟩⟩] := by
  obtain ⟨c, hs, hphrase⟩ := h.append (x :: post)
  have hbreaks : (Cursor.mk (pre ++ x :: post) start).BreaksAt ⟨x :: post, start.after pre⟩ := by
    refine ⟨by simpa using hx, fun cs hcs y hy => ?_⟩
    obtain rfl : pre = cs := List.append_cancel_right hcs
    exact Option.some.inj hy ▸ hp
  have hgives := gives_jsonText ⟨⟨none, []⟩, Step.done⟩ hs hphrase hn hbreaks
  rw [readJson, Cursor.ofText, String.toList_ofList, Position.after_append]
  exact hgives.tokens_whole (by simp) fun hpost => hn (List.mem_append_right _ hpost)

/-! ## In a command -/

/-- A text is read in a command as it is by itself. -/
theorem whole_run_jsonText (env : Env) (text : List Char) :
    ((Rule.jsonText dialect shape).run env ⟨text, start⟩).whole =
      readJson (String.ofList text) start shape dialect := by
  rw [readJson, Cursor.ofText, String.toList_ofList]
  -- With the counter of containers both are the same run, in which no environment occurs.
  exact (tracks_countJson dialect shape env _).step.symm.trans
    (tracks_countJson dialect shape _ _).step

/-- A command reads what is left of its line without the blanks at its end. -/
theorem run_json (env : Env) (shape : JsonShape) (start : Position) (hn : '\n' ∉ r)
    (ht : LineEnd tail) :
    let s := readJson (String.ofList (Text.trimEnd r)) start shape .strict
    (Rule.json shape).run env ⟨r ++ tail, start⟩ =
      ⟨s.events ++ [.json start], s.marks, .done, ⟨tail, start.after r⟩⟩ := by
  intro s
  have hdone : s.outcome = .done := (sound_jsonText .strict shape _).outcome_whole
  have hline : (Cursor.mk (r ++ tail) start).line = r := Cursor.line_append ht hn
  simp only [Rule.json, Rule.run, hline, whole_run_jsonText, Cursor.toLineEnd_append ht hn]
  simp [Step.andThen, Step.report, Step.done, s, hdone]

/-- A command has the tokens that its line has as a text of its own, without the blanks at the end.
So the line is JSON by itself if and only if it is in the command and the blanks at its end are
spaces. In both, what stands after a complete value is one error, up to the end. -/
theorem json_agrees_up_to_blanks (env : Env) (shape : JsonShape) (start : Position)
    (hn : '\n' ∉ r) (ht : LineEnd tail) :
    let embedded := (Rule.json shape).run env ⟨r ++ tail, start⟩
    let standalone := fun text => readJson (String.ofList text) start shape .strict
    (embedded.outcome = .done ∧ embedded.cursor = ⟨tail, start.after r⟩ ∧
        embedded.tokens = (standalone (Text.trimEnd r)).tokens) ∧
      ((standalone r).outcome = .done ∧
        ((standalone r).tokens.any Token.isError = false ↔
          embedded.tokens.any Token.isError = false ∧
            ∀ x ∈ r.drop (Text.trimEnd r).length, x = ' ')) ∧
      ∀ text ∈ [r, Text.trimEnd r], ∀ pre x post ls, text = pre ++ x :: post →
        IsJson .strict shape start pre ls → x ≠ ' ' → ¬ Reader.Continues x pre →
        ∃ ts, ts.map Token.leaf = ls ∧ ts.any Token.isError = false ∧ (standalone text).tokens =
          ts ++ [⟨.error, .error .tooMuchJson, ⟨start.after pre, start.after text⟩⟩] := by
  intro embedded standalone
  have hembedded := run_json env shape start hn ht
  have htokens : embedded.tokens = (standalone (Text.trimEnd r)).tokens := by
    simp [embedded, standalone, hembedded, Step.tokens]
  have htrim : '\n' ∉ Text.trimEnd r := fun h => hn (Text.mem_of_mem_trimEnd h)
  have hjson {text : List Char} (h : '\n' ∉ text) :
      (standalone text).tokens.any Token.isError = false ↔
        ∃ ls, IsJson .strict shape start text ls := by
    have hexact := hasErrors_readJson (String.ofList text) start shape .strict
      (by rwa [String.toList_ofList])
    rwa [String.toList_ofList] at hexact
  refine ⟨⟨by simp [embedded, hembedded], by simp [embedded, hembedded], htokens⟩,
    ⟨(sound_jsonText .strict shape _).outcome_whole, ?_⟩, ?_⟩
  · rw [hjson hn, htokens, hjson htrim]
    have hiff (ls : List JsonLeaf) : IsJson .strict shape start r ls ↔ _ := isJson_iff_trimEnd
    simp only [hiff, exists_and_right]
  · intro text htext pre x post ls heq h hx hp
    have hnewline : '\n' ∉ text := by
      rcases List.mem_pair.mp htext with rfl | rfl
      exacts [hn, htrim]
    subst heq
    exact tokens_readJson_of_leftover h hx hp hnewline

/-- A second point behind a number, with a space and a tab after it. -/
theorem json_agrees_up_to_blanks_number :
    let r := "1.5. \t".toList
    let embedded := (Rule.json .any).run ⟨⟨none, []⟩, Step.done⟩ ⟨r ++ "\nsay".toList, ⟨1, 11⟩⟩
    embedded.cursor = ⟨"\nsay".toList, ⟨1, 17⟩⟩ ∧ embedded.tokens.map Token.leaf =
      [⟨.number, .number (.ofDecimal false 15 (-1)), ⟨1, 11⟩⟩,
        ⟨.error, .error .tooMuchJson, ⟨1, 14⟩⟩] ∧
      ∃ ts, ts.any Token.isError = false ∧
        (readJson (String.ofList r) ⟨1, 11⟩ .any .strict).tokens =
          ts ++ [⟨.error, .error .tooMuchJson, ⟨⟨1, 14⟩, ⟨1, 17⟩⟩⟩] := by
  intro r embedded
  have hjson : IsJson .strict .any ⟨1, 11⟩ "1.5".toList
      [⟨.number, .number (.ofDecimal false 15 (-1)), ⟨1, 11⟩⟩] := by
    have hnumber : Phrase.Number "1.5".toList .number (.number (.ofDecimal false 15 (-1))) :=
      .intro (.intro false (.fraction (show Numeral.isDigits ['1'] = true by decide)
        (show Numeral.isDigits ['5'] = true by decide) (Binary64.roundsTo_places_iff.mpr rfl)))
    exact ⟨_, ⟨[], ⟨1, 14⟩⟩, .nil _, Phrase.choice.number (.intro hnumber (.nil _)), rfl⟩
  have hpoint : ¬ Reader.Continues '.' "1.5".toList := by
    rintro ⟨y, hy, ⟨-, hd | ⟨-, hf⟩⟩ | ⟨-, ha⟩⟩
    · simp at hd
    · exact hf ⟨['1'], ['5'], rfl, by simp⟩
    · simp at ha
  obtain ⟨⟨-, hcursor, htokens⟩, -, hleftover⟩ := json_agrees_up_to_blanks ⟨⟨none, []⟩, Step.done⟩
    .any ⟨1, 11⟩ (show '\n' ∉ r by decide) (show LineEnd "\nsay".toList by simp [LineEnd])
  obtain ⟨ts, hts, -, htrimmed⟩ := hleftover (Text.trimEnd r) (by simp) "1.5".toList '.' [] _ rfl
    hjson (by decide) hpoint
  obtain ⟨us, -, hclean, hwhole⟩ := hleftover r (by simp) "1.5".toList '.' " \t".toList _ rfl hjson
    (by decide) hpoint
  refine ⟨hcursor, ?_, us, hclean, hwhole⟩
  rw [htokens, htrimmed, List.map_append, hts]
  rfl

/-- A tab at the end of a line is read over in a command, and an error in a text of its own. -/
theorem json_disagrees_behind_tab :
    ¬ ∀ (env : Env) (shape : JsonShape) (start : Position) (r : List Char), '\n' ∉ r →
      (((Rule.json shape).run env ⟨r, start⟩).tokens.any Token.isError = false ↔
        (readJson (String.ofList r) start shape .strict).tokens.any Token.isError = false) := by
  intro h
  have hcommand : ((Rule.json .object).run ⟨⟨none, []⟩, Step.done⟩
      ⟨"\x7b\x7d\t".toList, ⟨1, 11⟩⟩).tokens = [] := by decide
  have htext : (readJson "\x7b\x7d\t" ⟨1, 11⟩ .object .strict).tokens =
      [⟨.error, .error .tooMuchJson, ⟨⟨1, 13⟩, ⟨1, 14⟩⟩⟩] := by decide
  have hiff := h ⟨⟨none, []⟩, Step.done⟩ .object ⟨1, 11⟩ "\x7b\x7d\t".toList (by decide)
  rw [hcommand, String.ofList_toList, htext] at hiff
  exact absurd (hiff.mp rfl) (by decide)

end BedrockCommand
