import BedrockCommand.Proofs.Json.Text
import BedrockCommand.Proofs.Tokenize.Lines
/-!
The start of a text is the frame of its positions. A text that starts elsewhere has the same tokens
and the same warnings, each at its place in the other frame.
-/
namespace BedrockCommand

namespace Position

/-- Whether a map of positions takes a text to the same text in another place. -/
def MovesTexts (m : Position → Position) : Prop :=
  ∀ p x, m (p.next x) = (m p).next x

theorem MovesTexts.movesLines {m : Position → Position} (hm : MovesTexts m) : MovesLines m :=
  fun p x _ => hm p x

/-- Where a place of a text that starts at line 0 and column 0 is when the text starts elsewhere:
only the columns of the first line depend on the start. -/
def framed (start p : Position) : Position :=
  if p.line = 0 then ⟨start.line, start.column + p.column⟩ else ⟨start.line + p.line, p.column⟩

theorem movesTexts_framed (start : Position) : MovesTexts (framed start) := by
  intro p x
  by_cases hx : x = '\n'
  · by_cases hp : p.line = 0 <;> simp [next, framed, hx, hp, Nat.add_assoc]
  · by_cases hp : p.line = 0 <;> simp [next, framed, hx, hp, Nat.add_assoc]

theorem framed_zero (start : Position) : framed start ⟨0, 0⟩ = start := rfl

/-- The two places that a character has when its text starts at one place and at another. On the
first line they are equally many columns behind the start, and on a line below they are in the same
column. -/
inductive Corresponds (start start' : Position) : Position → Position → Prop
  | first (k : Nat) :
    Corresponds start start' ⟨start.line, start.column + k⟩ ⟨start'.line, start'.column + k⟩
  | below {i : Nat} (hi : 1 ≤ i) (k : Nat) :
    Corresponds start start' ⟨start.line + i, k⟩ ⟨start'.line + i, k⟩

theorem corresponds_framed (start start' p : Position) :
    Corresponds start start' (framed start p) (framed start' p) := by
  unfold framed
  split
  · exact .first p.column
  · next hp => exact .below (Nat.one_le_iff_ne_zero.mpr hp) p.column

end Position

/-- The same token where the text starts elsewhere. -/
structure Token.Corresponds (start start' : Position) (t t' : Token) : Prop where
  kind : t'.kind = t.kind
  value : t'.value = t.value
  first : Position.Corresponds start start' t.span.start t'.span.start
  last : Position.Corresponds start start' t.span.stop t'.span.stop

/-- The same warning where the text starts elsewhere. -/
structure Warning.Corresponds (start start' : Position) (w w' : Warning) : Prop where
  kind : w'.kind = w.kind
  first : Position.Corresponds start start' w.span.start w'.span.start
  last : Position.Corresponds start start' w.span.stop w'.span.stop

/-- Events that are the same but for the frame have the same tokens and the same warnings. -/
theorem Tokenized.corresponds_framed (start start' : Position) (events : List Event) :
    List.Forall₂ (Token.Corresponds start start')
        (ofEvents (events.map (Event.moved (Position.framed start)))).tokens
        (ofEvents (events.map (Event.moved (Position.framed start')))).tokens ∧
      List.Forall₂ (Warning.Corresponds start start')
        (ofEvents (events.map (Event.moved (Position.framed start)))).warnings
        (ofEvents (events.map (Event.moved (Position.framed start')))).warnings := by
  have hplace := Position.corresponds_framed start start'
  induction events with
  | nil => exact ⟨.nil, .nil⟩
  | cons event events ih =>
    obtain ⟨iht, ihw⟩ := ih
    cases event with
    | token t => exact ⟨.cons ⟨rfl, rfl, hplace t.span.start, hplace t.span.stop⟩ iht, ihw⟩
    | warning w => exact ⟨iht, .cons ⟨rfl, hplace w.span.start, hplace w.span.stop⟩ ihw⟩
    | notice n => exact ⟨iht, ihw⟩
    | json p => exact ⟨iht, ihw⟩

variable {version : Version} {m : Position → Position}

/-- A round for each line. Below the first line, the lines of both texts start in column 0. -/
theorem linesEvents_moved (hm : Position.MovesTexts m) (lines : List (List Char)) (p : Position) :
    linesEvents version lines (m p) = (linesEvents version lines p).map (Event.moved m) := by
  induction lines generalizing p with
  | nil => rfl
  | cons line lines ih =>
    have hline : Cursor.Alike m ⟨line, p⟩ ⟨line, m p⟩ := ⟨rfl, rfl⟩
    have hbelow : m ⟨p.line + 1, 0⟩ = ⟨(m p).line + 1, 0⟩ := by
      simpa [Position.next] using hm p '\n'
    rw [linesEvents, linesEvents, List.map_append, events_readLine hm.movesLines hline, ← ih,
      hbelow]

theorem events_readText_moved (hm : Position.MovesTexts m) (text : String) (start : Position)
    (version : Version) : (readText text (m start) version).events =
      (readText text start version).events.map (Event.moved m) := by
  rw [events_readText, events_readText, linesEvents_moved hm]

/-- Along the same text, two cursors that have the same left of their lines have equally much left
of the text. -/
theorem Cursor.Alike.atEnd_of_ahead {c c' d d' : Cursor} (h : Alike m c d) (hr : d.rest = c.rest)
    (hc : c.Ahead c') (hd : d.Ahead d') (h' : Alike m c' d') : d'.atEnd = c'.atEnd := by
  have hlc := hc.length_line
  have hld := hd.length_line
  rw [h.line, h'.line, hr] at hld
  have hlength : d'.rest.length = c'.rest.length := by omega
  rw [Bool.eq_iff_iff, Cursor.atEnd_iff, Cursor.atEnd_iff, ← List.length_eq_zero_iff, hlength,
    List.length_eq_zero_iff]

/-- A JSON text may have more lines than the one that is read. Whether it has is the same in both
places. -/
theorem events_readJson_moved (hm : Position.MovesTexts m) (text : String) (start : Position)
    (shape : JsonShape) (dialect : JsonDialect) : (readJson text (m start) shape dialect).events =
      (readJson text start shape dialect).events.map (Event.moved m) := by
  have hstart : Cursor.Alike m (.ofText text start) (.ofText text (m start)) := ⟨rfl, rfl⟩
  have hnested (c : Cursor) : (Step.done c).Sound .latest c := .done c
  have hrun : Step.Alike m
      ((Rule.jsonText dialect shape).run ⟨⟨none, []⟩, Step.done⟩ (.ofText text start))
      ((Rule.jsonText dialect shape).run ⟨⟨none, []⟩, Step.done⟩ (.ofText text (m start))) :=
    Rule.alike_run hm.movesLines hnested (fun h => .done h)
      (.jsonText dialect shape : Rule.WellFormed _ _ none) (by simp) hstart
  have hend := hstart.atEnd_of_ahead rfl (sound_jsonText dialect shape _).ahead
    (sound_jsonText dialect shape _).ahead hrun.cursor
  exact (hrun.whole hm.movesLines hend).events

/-- The start of a text moves its positions and does nothing else. From two starts, a text has the
same tokens and the same warnings in the same order, with the same kinds and the same values, and
each span of the one corresponds to the span of the other: on the first line it is as many columns
behind the start, and below the first line it keeps its columns. A text that is read as JSON has the
same tokens in the same way. -/
theorem tokenize_framed (text : String) (start start' : Position) (version : Version) :
    ∃ result result', tokenize text start version = .ok result ∧
      tokenize text start' version = .ok result' ∧
      List.Forall₂ (Token.Corresponds start start') result.tokens result'.tokens ∧
      List.Forall₂ (Warning.Corresponds start start') result.warnings result'.warnings ∧
      ∀ shape dialect,
        (readJson text start shape dialect).outcome = .done ∧
        (readJson text start' shape dialect).outcome = .done ∧
        List.Forall₂ (Token.Corresponds start start') (readJson text start shape dialect).tokens
          (readJson text start' shape dialect).tokens := by
  -- Both are compared with the text where it starts at line 0 and column 0.
  have hread (start : Position) := events_readText_moved (Position.movesTexts_framed start) text
    ⟨0, 0⟩ version
  have hjson (start : Position) (shape : JsonShape) (dialect : JsonDialect) :=
    events_readJson_moved (Position.movesTexts_framed start) text ⟨0, 0⟩ shape dialect
  have hdone (start : Position) (shape : JsonShape) (dialect : JsonDialect) :
      (readJson text start shape dialect).outcome = .done :=
    (sound_jsonText dialect shape _).outcome_whole
  simp only [Position.framed_zero] at hread hjson
  refine ⟨_, _, tokenize_eq .., tokenize_eq .., ?_, ?_, fun shape dialect =>
    ⟨hdone .., hdone .., ?_⟩⟩
  · rw [hread start, hread start']
    exact (Tokenized.corresponds_framed start start' _).1
  · rw [hread start, hread start']
    exact (Tokenized.corresponds_framed start start' _).2
  · rw [Step.tokens, Step.tokens, hjson start, hjson start']
    exact (Tokenized.corresponds_framed start start' _).1

end BedrockCommand
