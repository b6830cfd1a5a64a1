import BedrockCommand.CommandLine.Run
import BedrockCommand.Proofs.Source.LineIndex
import BedrockCommand.Proofs.Tokenize.Spans
/-!
From the span of a token or of a warning, the index of the lines leads back to the characters that
were read while the token was open. So every diagnostic of a text is shown beside its source.
-/
namespace BedrockCommand

variable {version : Version} {c : Cursor} {before piece : List Char} {t : Token}
  {w : Option WarningKind}

/-- What may be hidden from those who read a JSON text at the end of a line: the blanks behind it,
and what is below the line. -/
def IsHidden (tail : List Char) : Prop :=
  ∃ blanks rest, tail = blanks ++ rest ∧ (∀ x ∈ blanks, Text.isBlank x = true) ∧ LineEnd rest

theorem isHidden_nil : IsHidden [] :=
  ⟨[], [], rfl, by simp, lineEnd_nil⟩

theorem IsHidden.append {cs tail : List Char} (h : IsHidden cs) (hn : '\n' ∉ cs)
    (h' : IsHidden tail) : IsHidden (cs ++ tail) := by
  obtain ⟨blanks, rest, rfl, hb, hr⟩ := h
  obtain ⟨blanks', rest', rfl, hb', hr'⟩ := h'
  rcases hr.cases with rfl | ⟨below, rfl⟩
  · refine ⟨blanks ++ blanks', rest', by simp, fun x hx => ?_, hr'⟩
    exact (List.mem_append.mp hx).elim (hb x) (hb' x)
  · simp at hn

/-- A token was open, perhaps with a warning about it, while a piece of a text was read. It opened
at the cursor in front of the piece and closed at the cursor behind it. Both cursors show what
follows on the line, but for what may be hidden. -/
def OpenWhile (version : Version) (c : Cursor) (before piece : List Char) (t : Token)
    (w : Option WarningKind) : Prop :=
  ∃ behind hidden, c.rest = before ++ piece ++ (behind ++ hidden) ∧ IsHidden hidden ∧
    '\n' ∉ piece ∧
    Reported version ⟨piece ++ behind, c.position.after before⟩ t w
      ⟨behind, c.position.after (before ++ piece)⟩

namespace OpenWhile

theorem span (h : OpenWhile version c before piece t w) :
    t.span = ⟨c.position.after before, c.position.after (before ++ piece)⟩ := by
  obtain ⟨_, _, -, -, -, hreported⟩ := h
  exact hreported.span

/-- With more text in front. -/
theorem append_before {rest : List Char} {p : Position} (cs : List Char)
    (h : OpenWhile version ⟨rest, p.after cs⟩ before piece t w) :
    OpenWhile version ⟨cs ++ rest, p⟩ (cs ++ before) piece t w := by
  obtain ⟨behind, hidden, hr, hh, hn, hreported⟩ := h
  obtain rfl : rest = before ++ piece ++ (behind ++ hidden) := hr
  refine ⟨behind, hidden, by simp, hh, hn, ?_⟩
  simpa only [List.append_assoc, Position.after_append] using hreported

/-- With a hidden end behind it. -/
theorem append_hidden {text tail : List Char} {p : Position} (hn : '\n' ∉ text)
    (hh : IsHidden tail) (h : OpenWhile version ⟨text, p⟩ before piece t w) :
    OpenWhile version ⟨text ++ tail, p⟩ before piece t w := by
  obtain ⟨behind, hidden, hr, hh', hn', hreported⟩ := h
  obtain rfl : text = before ++ piece ++ (behind ++ hidden) := hr
  have hnh : '\n' ∉ hidden := fun hmem => hn (by simp [hmem])
  exact ⟨behind, hidden ++ tail, by simp, hh'.append hnh hh, hn', hreported⟩

end OpenWhile

/-- A token that was open, or a warning about one, along a text that is read from a cursor on. -/
def Event.ReadAlong (version : Version) (c : Cursor) (es : List Event) : Event → Prop
  | .token t => ∃ before piece w, OpenWhile version c before piece t w
  | .warning k => ∃ t before piece, .token t ∈ es ∧ k.span = t.span ∧
    OpenWhile version c before piece t (some k.kind)
  | .notice _ => True
  | .json _ => True

namespace Event.ReadAlong

variable {e : Event} {es fs : List Event} {rest text tail : List Char} {p : Position}

theorem append_before (cs : List Char) (h : e.ReadAlong version ⟨rest, p.after cs⟩ es)
    (hs : es ⊆ fs) : e.ReadAlong version ⟨cs ++ rest, p⟩ fs := by
  cases e with
  | token t =>
    obtain ⟨before, piece, w, h⟩ := h
    exact ⟨_, piece, w, h.append_before cs⟩
  | warning k =>
    obtain ⟨t, before, piece, ht, hspan, h⟩ := h
    exact ⟨t, _, piece, hs ht, hspan, h.append_before cs⟩
  | notice | json => trivial

theorem append_hidden (hn : '\n' ∉ text) (hh : IsHidden tail)
    (h : e.ReadAlong version ⟨text, p⟩ es) (hs : es ⊆ fs) :
    e.ReadAlong version ⟨text ++ tail, p⟩ fs := by
  cases e with
  | token t =>
    obtain ⟨before, piece, w, h⟩ := h
    exact ⟨before, piece, w, h.append_hidden hn hh⟩
  | warning k =>
    obtain ⟨t, before, piece, ht, hspan, h⟩ := h
    exact ⟨t, before, piece, hs ht, hspan, h.append_hidden hn hh⟩
  | notice | json => trivial

end Event.ReadAlong

/-- Every token of a trace was open while some piece of the text was read. -/
theorem Trace.readAlong {free : Char → Prop} {d : Cursor} {es : List Event}
    (h : Trace version free c es d) : ∀ e ∈ es, e.ReadAlong version c es := by
  induction h with
  | nil c => exact List.forall_mem_nil _
  | @skip x rest p es d _ _ ih =>
    exact fun e he => (ih e he).append_before [x] (List.Subset.refl _)
  | @token c c' d t w es ht ha _ ih =>
    obtain ⟨rest, p⟩ := c
    obtain ⟨rest', p'⟩ := c'
    obtain ⟨cs, hn, hr, hp⟩ := ha
    obtain rfl : rest = cs ++ rest' := hr
    obtain rfl : p' = p.after cs := hp
    have hopen : OpenWhile version ⟨cs ++ rest', p⟩ [] cs t w :=
      ⟨rest', [], by simp, isHidden_nil, hn, ht⟩
    intro e he
    rcases List.mem_cons.mp he with rfl | he
    · exact ⟨[], cs, w, hopen⟩
    rcases List.mem_append.mp he with he | he
    · cases w with
      | none => simp [Step.warningEvents] at he
      | some w =>
        obtain rfl := List.mem_singleton.mp he
        exact ⟨t, [], cs, List.mem_cons_self .., rfl, hopen⟩
    · exact (ih e he).append_before cs fun f hf => by simp [hf]
  | notice n _ ih =>
    intro e he
    rcases List.mem_cons.mp he with rfl | he
    · trivial
    · exact (ih e he).append_before [] (List.subset_cons_self ..)
  | @json text blanks rest p es fs d hn hb hr _ _ ihi ih =>
    intro e he
    rcases List.mem_append.mp he with he | he
    · have hnt : '\n' ∉ text := fun h => hn (List.mem_append_left _ h)
      rw [List.append_assoc]
      exact (ihi e he).append_hidden hnt ⟨blanks, rest, rfl, hb, hr⟩
        (List.subset_append_left ..)
    rcases List.mem_cons.mp he with rfl | he
    · trivial
    · exact (ih e he).append_before _ fun f hf => by simp [hf]

namespace Tokenized

/-- A diagnostic is about the span of a token or of a warning. -/
theorem exists_of_mem_diagnostics {result : Tokenized} {d : Diagnostic}
    (h : d ∈ result.diagnostics) : ∃ span, d.span = some span ∧
      ((∃ token ∈ result.tokens, token.span = span) ∨
        ∃ warning ∈ result.warnings, warning.span = span) := by
  rw [diagnostics, List.mem_mergeSort] at h
  rcases List.mem_append.mp h with h | h
  · obtain ⟨⟨token, e⟩, hp, rfl⟩ := List.mem_map.mp h
    obtain ⟨token', htoken, he⟩ := List.mem_filterMap.mp hp
    obtain ⟨e', -, heq⟩ := Option.map_eq_some_iff.mp he
    obtain ⟨rfl, rfl⟩ := Prod.mk.inj heq
    exact ⟨_, rfl, .inl ⟨_, htoken, rfl⟩⟩
  · obtain ⟨warning, hw, rfl⟩ := List.mem_map.mp h
    exact ⟨_, rfl, .inr ⟨_, hw, rfl⟩⟩

theorem mem_diagnostics_of_mem_reported {result : Tokenized} {profile : Option Profile}
    {focus : Option Nat} {d : Diagnostic} (h : d ∈ result.reported profile focus) :
    d ∈ result.diagnostics := by
  unfold reported at h
  cases focus with
  | none => exact (List.mem_filter.mp h).1
  | some line =>
    exact (List.mem_filter.mp (List.mem_of_find?_eq_some (Option.mem_toList.mp h))).1

end Tokenized

/-- A diagnostic of which both ends have offsets is shown beside its source. -/
theorem CommandLine.diagnosticRemarks_of_offsets {index : LineIndex} {d : Diagnostic} {span : Span}
    {b e : Nat} (hs : d.span = some span) (hb : index.offset? span.start = some b)
    (he : index.offset? span.stop = some e) :
    diagnosticRemarks index d = [.report (.ofDiagnostic d)] := by
  simp [diagnosticRemarks, Diagnostic.range?, hs, hb, he]

/-- Where a piece of a text was read, the index of the lines finds it again. -/
theorem OpenWhile.offsets {text : String} {first : Position}
    (h : OpenWhile version (.ofText text first) before piece t w) :
    let index := LineIndex.ofText text.toList first
    ∃ b e, index.offset? t.span.start = some b ∧ index.offset? t.span.stop = some e ∧ b ≤ e ∧
      e ≤ text.length ∧ OpenWhile version (.ofText text first) (text.toList.take b)
        ((text.toList.take e).drop b) t w := by
  intro index
  obtain ⟨behind, hidden, hr, -⟩ := id h
  have htext : text.toList = before ++ piece ++ (behind ++ hidden) := hr
  have hbefore : text.toList.take before.length = before := by
    rw [htext, List.append_assoc, List.take_left]
  have hpiece : (text.toList.take (before ++ piece).length).drop before.length = piece := by
    rw [htext, List.take_left, List.drop_left]
  have hlength : (before ++ piece).length ≤ text.length := by
    rw [← String.length_toList, htext]
    simp
  refine ⟨before.length, (before ++ piece).length, ?_, ?_, by simp, hlength, ?_⟩
  · rw [h.span]
    exact LineIndex.offset?_after first (by rw [htext, List.append_assoc])
  · rw [h.span]
    exact LineIndex.offset?_after first htext
  · rw [hbefore, hpiece]
    exact h

/-- The index of the lines of a text undoes what a cursor does: after so many steps as the text has
characters or fewer, the cursor stands where the index has the position of that offset, and the
offset of that position is the number of steps. So both ends of a token, or of a warning, have
offsets in the text, and the characters between them are those that were read while the token was
open. And what is reported about a text is always shown beside its source. -/
theorem lineIndex_inverts_cursor (text : String) (first : Position) (version : Version) :
    let index := LineIndex.ofText text.toList first
    (∀ k ≤ text.length,
      index.position k = (Cursor.advance^[k] (.ofText text first)).position ∧
      index.offset? (Cursor.advance^[k] (.ofText text first)).position = some k) ∧
    ∃ result, tokenize text first version = .ok result ∧
      (∀ token ∈ result.tokens, ∃ b e w, index.offset? token.span.start = some b ∧
        index.offset? token.span.stop = some e ∧ b ≤ e ∧ e ≤ text.length ∧
        OpenWhile version (.ofText text first) (text.toList.take b) ((text.toList.take e).drop b)
          token w) ∧
      (∀ warning ∈ result.warnings, ∃ token ∈ result.tokens, warning.span = token.span ∧
        ∃ b e, index.offset? warning.span.start = some b ∧
          index.offset? warning.span.stop = some e ∧ b ≤ e ∧ e ≤ text.length ∧
          OpenWhile version (.ofText text first) (text.toList.take b)
            ((text.toList.take e).drop b) token (some warning.kind)) ∧
      ∀ profile focus,
        let file : CommandLine.LoadedFile := ⟨⟨version, first, profile⟩, text, result⟩
        let reported := result.reported profile focus
        (file.checkResult focus .pretty).remarks =
          reported.map (fun d => .report (.ofDiagnostic d)) ++ CommandLine.summary reported ++
            if result.hasErrors then [] else [.line ("check ok (" ++ toString version ++ ")")] := by
  intro index
  have halong := (trace_readText text first version).readAlong
  have htoken : ∀ token ∈ (Tokenized.ofEvents (readText text first version).events).tokens,
      ∃ before piece w, OpenWhile version (.ofText text first) before piece token w :=
    fun token h => halong _ (Tokenized.mem_tokens.mp h)
  have hwarning : ∀ k ∈ (Tokenized.ofEvents (readText text first version).events).warnings,
      ∃ token before piece, .token token ∈ (readText text first version).events ∧
        k.span = token.span ∧ OpenWhile version (.ofText text first) before piece token
          (some k.kind) :=
    fun k h => halong _ (Tokenized.mem_warnings.mp h)
  refine ⟨fun k hk => ?_, _, tokenize_eq .., fun token h => ?_, fun k h => ?_, ?_⟩
  · rw [← String.length_toList] at hk
    rw [Cursor.iterate_advance]
    exact ⟨LineIndex.position_ofText first hk, LineIndex.offset?_after_take first hk⟩
  · obtain ⟨before, piece, w, h⟩ := htoken token h
    obtain ⟨b, e, hb, he, hle, hlen, h⟩ := h.offsets
    exact ⟨b, e, w, hb, he, hle, hlen, h⟩
  · obtain ⟨token, before, piece, ht, hspan, h⟩ := hwarning k h
    rw [hspan]
    exact ⟨token, Tokenized.mem_tokens.mpr ht, rfl, h.offsets⟩
  · intro profile focus file reported
    have hshown : ∀ d ∈ reported,
        CommandLine.diagnosticRemarks index d = [.report (.ofDiagnostic d)] := by
      intro d hd
      obtain ⟨span, hs, ⟨token, h, rfl⟩ | ⟨k, h, rfl⟩⟩ :=
        Tokenized.exists_of_mem_diagnostics (Tokenized.mem_diagnostics_of_mem_reported hd)
      · obtain ⟨_, _, _, h⟩ := htoken token h
        obtain ⟨b, e, hb, he, -⟩ := h.offsets
        exact CommandLine.diagnosticRemarks_of_offsets hs hb he
      · obtain ⟨token, _, _, -, hspan, h⟩ := hwarning k h
        obtain ⟨b, e, hb, he, -⟩ := h.offsets
        exact CommandLine.diagnosticRemarks_of_offsets (hspan ▸ hs) hb he
    have hremarks : reported.flatMap (CommandLine.diagnosticRemarks index) =
        reported.map fun d => .report (.ofDiagnostic d) := by
      rw [List.flatMap_congr hshown]
      exact List.flatMap_pure_eq_map _ reported
    simp only [file, CommandLine.LoadedFile.checkResult]
    rw [hremarks]

end BedrockCommand
