import BedrockCommand.Proofs.Grammar.Shared
import BedrockCommand.Proofs.Json.Value
import BedrockCommand.Proofs.Rule.Run
import BedrockCommand.Tokenize
/-!
A text is read without an error if and only if it is a JSON text of the shape that is asked for,
and then its tokens are its leaves.
-/
namespace BedrockCommand

open Phrase Step

theorem exists_exact_jsonText (env : Env) (dialect : JsonDialect) (shape : JsonShape) :
    ∃ f, (shaped dialect shape).Exact f ∧
      ∀ c, (Rule.jsonText dialect shape).run env c = f c.skipSpaces := by
  have hvalue := exact_value env dialect maxNesting
  cases shape with
  | any => exact ⟨_, hvalue, fun _ => rfl⟩
  | object => exact ⟨_, exact_object hvalue, fun _ => rfl⟩
  | array => exact ⟨_, exact_array hvalue, fun _ => rfl⟩

/-- Spaces and a phrase of the shape are read up to where the phrase ends. -/
theorem gives_jsonText (env : Env) {dialect : JsonDialect} {shape : JsonShape} {c d e : Cursor}
    {ls : List JsonLeaf} (hs : Spaces c d) (hp : shaped dialect shape d ls e) (hn : '\n' ∉ c.rest)
    (he : c.BreaksAt e) : ((Rule.jsonText dialect shape).run env c).Gives ls e := by
  obtain ⟨f, hexact, hrun⟩ := exists_exact_jsonText env dialect shape
  have hstart : c.skipSpaces = d := hs.eq_skipSpaces fun hx =>
    hexact.starts hp ' ' hx (List.mem_cons_self ..)
  rw [hrun, hstart]
  exact hexact.completes hp (fun hmem => hn (hs.suffix.subset hmem)) (he.after_spaces hs)

/-- A value outside of commands is read soundly: its rule holds no command. -/
theorem sound_jsonText (dialect : JsonDialect) (shape : JsonShape) (c : Cursor) :
    Step.Sound .latest c ((Rule.jsonText dialect shape).run ⟨⟨none, []⟩, Step.done⟩ c) :=
  Rule.sound_run (fun c => .done c) (.jsonText dialect shape : Rule.WellFormed _ _ none) (by simp)

namespace Step

variable {s : Step} {ls : List JsonLeaf} {d : Cursor}

theorem Gives.whole (h : s.Gives ls d) (hd : d.rest = []) : s.whole.Gives ls d := by
  unfold Step.whole
  rw [h.settle]
  refine List.append_nil ls ▸ h.andThen ?_
  rw [if_pos (Cursor.atEnd_iff.mpr hd)]
  exact .done d

theorem Clean.of_whole (h : s.whole.Clean) : s.Clean :=
  h.left.of_settle

/-- What is left over is an error. -/
theorem Gives.rest_eq_nil (h : s.Gives ls d) (hw : s.whole.Clean) : d.rest = [] := by
  unfold Step.whole at hw
  rw [h.settle] at hw
  have hend := hw.right h.outcome
  rw [h.cursor] at hend
  split at hend
  · next he => exact Cursor.atEnd_iff.mp he
  · exact absurd hend (not_clean_error _ _ _)

end Step

namespace Tokenized

theorem hasErrors_ofEvents {events : List Event} :
    (ofEvents events).hasErrors = false ↔ ∀ e ∈ events, e.IsClean := by
  induction events with
  | nil => simp [ofEvents, hasErrors]
  | cons e events ih =>
    rw [List.forall_mem_cons, ← ih]
    cases e <;> simp [ofEvents, hasErrors, Event.IsClean, Token.isError]

theorem map_leaf_ofEvents (events : List Event) :
    (ofEvents events).tokens.map Token.leaf = events.filterMap Event.leaf? := by
  rw [ofEvents, List.map_filterMap]
  congr 1
  funext e
  cases e <;> rfl

end Tokenized

section

variable {text : String} {start : Position} {shape : JsonShape} {dialect : JsonDialect}
  {leaves : List JsonLeaf}

theorem gives_readJson (h : IsJson dialect shape start text.toList leaves)
    (hn : '\n' ∉ text.toList) : ∃ d, (readJson text start shape dialect).Gives leaves d := by
  obtain ⟨c, d, hs, hp, hd⟩ := h
  have hstops : d.Stops := by simp [Cursor.Stops, hd]
  exact ⟨d, (gives_jsonText _ hs hp hn (hstops.breaksAt _)).whole hd⟩

theorem isJson_of_clean (h : (readJson text start shape dialect).Clean) :
    ∃ leaves, IsJson dialect shape start text.toList leaves := by
  obtain ⟨f, hexact, hrun⟩ := exists_exact_jsonText ⟨⟨none, []⟩, Step.done⟩ dialect shape
  rw [readJson, hrun] at h
  obtain ⟨leaves, d, hp, hg⟩ := hexact.sound h.of_whole
  exact ⟨leaves, _, d, .skipSpaces _, hp, hg.rest_eq_nil h⟩

theorem hasErrors_readJson (text : String) (start : Position) (shape : JsonShape)
    (dialect : JsonDialect) (hn : '\n' ∉ text.toList) :
    (Tokenized.ofEvents (readJson text start shape dialect).events).hasErrors = false ↔
      ∃ leaves, IsJson dialect shape start text.toList leaves := by
  refine ⟨fun h => ?_, fun ⟨leaves, h⟩ => ?_⟩
  · have hdone := (sound_jsonText dialect shape (.ofText text start)).outcome_whole
    exact isJson_of_clean ⟨by simp [readJson, hdone], Tokenized.hasErrors_ofEvents.mp h⟩
  · obtain ⟨d, hg⟩ := gives_readJson h hn
    exact Tokenized.hasErrors_ofEvents.mpr hg.only

end

/-- A text without line breaks is read to its end. It has no error if and only if it is a JSON text
of the shape, and then its tokens are the leaves. -/
theorem readJson_exact (text : String) (start : Position) (shape : JsonShape)
    (dialect : JsonDialect) (hn : '\n' ∉ text.toList) :
    (readJson text start shape dialect).outcome = .done ∧
      ((Tokenized.ofEvents (readJson text start shape dialect).events).hasErrors = false ↔
        ∃ leaves, IsJson dialect shape start text.toList leaves) ∧
      ∀ leaves, IsJson dialect shape start text.toList leaves →
        (Tokenized.ofEvents (readJson text start shape dialect).events).tokens.map Token.leaf =
          leaves := by
  refine ⟨(sound_jsonText dialect shape _).outcome_whole, hasErrors_readJson _ _ _ _ hn,
    fun leaves h => ?_⟩
  obtain ⟨d, hg⟩ := gives_readJson h hn
  rw [Tokenized.map_leaf_ofEvents, hg.leaves]

/-- An object with an array in it, read as an object. -/
theorem readJson_exact_object :
    IsJson .strict .object ⟨1, 0⟩ "\x7b\"a\": [-1.5, true]\x7d ".toList
      [⟨.option, .none, ⟨1, 1⟩⟩, ⟨.number, .number (.ofDecimal true 15 (-1)), ⟨1, 7⟩⟩,
        ⟨.boolean, .boolean true, ⟨1, 13⟩⟩] := by
  obtain ⟨-, hiff, hleaves⟩ := readJson_exact "\x7b\"a\": [-1.5, true]\x7d " ⟨1, 0⟩ .object .strict
    (by decide)
  obtain ⟨leaves, h⟩ := hiff.mp (by rfl)
  obtain rfl := hleaves leaves h
  exact h

end BedrockCommand
