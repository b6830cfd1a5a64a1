import BedrockCommand.Proofs.Json.Value
import BedrockCommand.Proofs.Text.Trim
/-!
Blanks behind JSON texts. The spaces at the end of a phrase may be more or fewer, and in front of
them stands a character that is not blank. So a text without the blanks at its end is as much JSON
as the text itself, unless there are blanks among them that are not spaces.
-/
namespace BedrockCommand

theorem isBlank_of_mem_spaces {n : Nat} : ∀ x ∈ spaces n, Text.isBlank x = true := by
  intro x hx
  rw [List.eq_of_mem_replicate hx]
  decide

open Text

namespace Phrase

variable {P : Phrase} {R S : Cursor → Cursor → Prop} {c d e : Cursor} {x : Char}

/-- A relation between two cursors that asks for a text without blanks at its end and some spaces
behind it, however many, whatever follows. -/
def EndsSpaced (R : Cursor → Cursor → Prop) (c d : Cursor) : Prop :=
  ∃ cs n, Solid cs ∧ c.Past (cs ++ spaces n) d ∧ ∀ m rest,
    R ⟨cs ++ spaces m ++ rest, c.position⟩ ⟨rest, c.position.after (cs ++ spaces m)⟩

theorem EndsSpaced.imp (h : EndsSpaced R c d) (hRS : ∀ {c d}, R c d → S c d) :
    EndsSpaced S c d := by
  obtain ⟨cs, n, hc, hpast, hR⟩ := h
  exact ⟨cs, n, hc, hpast, fun m rest => hRS (hR m rest)⟩

/-- What reads one text may stand in front. -/
theorem EndsSpaced.before {ds : List Char} (hpast : c.Past ds d)
    (hR : ∀ rest, R ⟨ds ++ rest, c.position⟩ ⟨rest, c.position.after ds⟩) (h : EndsSpaced S d e) :
    EndsSpaced (fun c e => ∃ d, R c d ∧ S d e) c e := by
  obtain ⟨cs, n, hc, hpast', hS⟩ := h
  refine ⟨ds ++ cs, n, hc.append _, ?_, fun m rest => ?_⟩
  · simpa only [List.append_assoc] using hpast.trans hpast'
  · refine ⟨⟨cs ++ spaces m ++ rest, c.position.after ds⟩, ?_, ?_⟩
    · simpa only [List.append_assoc] using hR (cs ++ spaces m ++ rest)
    · simpa only [hpast.2, Position.after_append, List.append_assoc] using hS m rest

/-- One after the other. -/
theorem EndsSpaced.comp (h : EndsSpaced R c d) (h' : EndsSpaced S d e) :
    EndsSpaced (fun c e => ∃ d, R c d ∧ S d e) c e := by
  obtain ⟨cs, n, -, hpast, hR⟩ := h
  exact h'.before hpast (hR n)

/-- A text and the spaces after it. -/
theorem EndsSpaced.intro (cs : List Char) {rest : List Char} {p : Position} (hc : Solid cs)
    (hs : Spaces ⟨rest, p.after cs⟩ d)
    (h : ∀ {rest d}, Spaces ⟨rest, p.after cs⟩ d → R ⟨cs ++ rest, p⟩ d) :
    EndsSpaced R ⟨cs ++ rest, p⟩ d := by
  obtain ⟨n, hpast⟩ := hs.exists_spaces
  refine ⟨cs, n, hc, Cursor.Past.intro.trans hpast, fun m rest => ?_⟩
  rw [List.append_assoc, Position.after_append]
  exact h (.of_spaces m rest _)

theorem Symbol.endsSpaced (h : Symbol x c d) (hx : isBlank x = false) :
    EndsSpaced (Symbol x) c d := by
  obtain ⟨hs⟩ := h
  exact .intro [x] (solid_concat [] hx) hs fun hs => .intro hs

/-- A phrase that ends with some spaces and does not end with other blanks. -/
def Trails (P : Phrase) : Prop :=
  ∀ c ls d, P c ls d → EndsSpaced (P · ls ·) c d

theorem trails_leaf {writes : List Char → TokenKind → TokenValue → Prop}
    (hw : ∀ {cs kind value}, writes cs kind value → Solid cs) : (leaf writes).Trails := by
  rintro _ _ _ ⟨h, hs⟩
  exact .intro _ (hw h) hs fun hs => .intro h hs

theorem Trails.commas (h : P.Trails) : (commas P).Trails := by
  intro c ls d hp
  induction hp with
  | one hp => exact (h _ _ _ hp).imp .one
  | more hp hx _ ih =>
    refine ((h _ _ _ hp).comp ((hx.endsSpaced (by decide)).comp ih)).imp ?_
    rintro _ _ ⟨_, hp, _, hx, ht⟩
    exact .more hp hx ht

theorem Trails.container (h : P.Trails) (b : Brackets) : (container b P).Trails := by
  have ho : isBlank b.opening = false := by cases b <;> decide
  have hc : isBlank b.closing = false := by cases b <;> decide
  rintro c ls d (⟨hopen, hclose⟩ | ⟨hopen, hp, hclose⟩)
  · refine ((hopen.endsSpaced ho).comp (hclose.endsSpaced hc)).imp ?_
    rintro _ _ ⟨_, hopen, hclose⟩
    exact .empty hopen hclose
  · refine ((hopen.endsSpaced ho).comp ((h.commas _ _ _ hp).comp (hclose.endsSpaced hc))).imp ?_
    rintro _ _ ⟨_, hopen, _, hp, hclose⟩
    exact .full hopen hp hclose

theorem solid_of_quoted {kind k : TokenKind} {cs : List Char} {v : TokenValue}
    (h : Text kind cs k v) : Solid cs := by
  obtain ⟨⟨h⟩⟩ := h
  exact solid_concat _ (by decide)

theorem Trails.member (h : P.Trails) : (member P).Trails := by
  rintro c _ d ⟨hk, hx, hp⟩
  have hkey := trails_leaf solid_of_quoted _ _ _ hk
  refine (hkey.comp ((hx.endsSpaced (by decide)).comp (h _ _ _ hp))).imp ?_
  rintro _ _ ⟨_, hk, _, hx, hp⟩
  exact .intro hk hx hp

theorem Trails.choice {A O : Phrase} (hA : A.Trails) (hO : O.Trails) (dialect : JsonDialect) :
    (choice dialect A O).Trails := by
  have hnumber {cs : List Char} {kind : TokenKind} {value : TokenValue}
      (h : Number cs kind value) : Solid cs := by
    obtain ⟨h⟩ := h
    obtain ⟨y, hy, hdigit⟩ := h.last
    exact ⟨y, hy, isBlank_of_isAlphanum (by simp [Char.isAlphanum, hdigit])⟩
  have hconstant {cs : List Char} {kind : TokenKind} {value : TokenValue}
      (h : Constant dialect cs kind value) : Solid cs := by
    obtain ⟨y, hy, halpha⟩ := constant_last h
    exact ⟨y, hy, isBlank_of_isAlphanum (by simp [Char.isAlphanum, halpha])⟩
  rintro c ls d (h | h | h | h | h)
  · exact (trails_leaf solid_of_quoted _ _ _ h).imp .string
  · exact (trails_leaf hnumber _ _ _ h).imp .number
  · exact (trails_leaf hconstant _ _ _ h).imp .constant
  · exact (hA _ _ _ h).imp .array
  · exact (hO _ _ _ h).imp .object

theorem trails_value (dialect : JsonDialect) (depth : Nat) : (value dialect depth).Trails := by
  have hnever : never.Trails := fun _ _ _ h => h.elim
  induction depth with
  | zero => exact hnever.choice hnever dialect
  | succ depth ih => exact .choice (ih.container .square) (ih.member.container .curly) dialect

theorem trails_shaped (dialect : JsonDialect) (shape : JsonShape) :
    (shaped dialect shape).Trails := by
  have hvalue := trails_value dialect maxNesting
  cases shape with
  | any => exact hvalue
  | object => exact hvalue.member.container .curly
  | array => exact hvalue.container .square

end Phrase

open Phrase

variable {dialect : JsonDialect} {shape : JsonShape} {start : Position} {text : List Char}
  {ls : List JsonLeaf}

/-- A JSON text ends with some spaces. With more or fewer of them it is as much one, also in front
of something else. -/
theorem IsJson.exists_solid (h : IsJson dialect shape start text ls) :
    ∃ cs n, Solid cs ∧ text = cs ++ spaces n ∧ ∀ m rest, ∃ c,
      Spaces ⟨cs ++ spaces m ++ rest, start⟩ c ∧
        shaped dialect shape c ls ⟨rest, start.after (cs ++ spaces m)⟩ := by
  obtain ⟨c, d, hs, hp, hd⟩ := h
  obtain ⟨k, hk⟩ := hs.exists_spaces
  obtain ⟨cs, n, hc, hpast, hparts⟩ := EndsSpaced.before hk
    (fun rest => Spaces.of_spaces k rest start) (trails_shaped dialect shape _ _ _ hp)
  exact ⟨cs, n, hc, by simpa [hd] using hpast.1, hparts⟩

theorem isJson_append_spaces {cs : List Char} (n : Nat)
    (h : ∀ m rest, ∃ c, Spaces ⟨cs ++ spaces m ++ rest, start⟩ c ∧
      shaped dialect shape c ls ⟨rest, start.after (cs ++ spaces m)⟩) :
    IsJson dialect shape start (cs ++ spaces n) ls := by
  obtain ⟨c, hs, hp⟩ := h n []
  exact ⟨c, _, by simpa using hs, hp, rfl⟩

/-- Anything may stand behind a JSON text. -/
theorem IsJson.append (h : IsJson dialect shape start text ls) (rest : List Char) :
    ∃ c, Spaces ⟨text ++ rest, start⟩ c ∧ shaped dialect shape c ls ⟨rest, start.after text⟩ := by
  obtain ⟨cs, n, -, rfl, hparts⟩ := h.exists_solid
  exact hparts n rest

/-- A text is JSON if and only if it is JSON without the blanks at its end, and these are
spaces. -/
theorem isJson_iff_trimEnd : IsJson dialect shape start text ls ↔
    IsJson dialect shape start (trimEnd text) ls ∧
      ∀ x ∈ text.drop (trimEnd text).length, x = ' ' := by
  constructor
  · intro h
    obtain ⟨cs, n, hc, rfl, hparts⟩ := h.exists_solid
    rw [trimEnd_append hc isBlank_of_mem_spaces, List.drop_left]
    exact ⟨by simpa [spaces] using isJson_append_spaces 0 hparts,
      fun x => List.eq_of_mem_replicate⟩
  · rintro ⟨h, hspaces⟩
    obtain ⟨cs, n, -, hcs, hparts⟩ := h.exists_solid
    obtain ⟨k, hk⟩ : ∃ k, text.drop (trimEnd text).length = spaces k :=
      ⟨_, List.eq_replicate_of_mem hspaces⟩
    -- The spaces that the value ends with and those behind them are one run of spaces.
    have htext : text = cs ++ spaces (n + k) := by
      calc text = trimEnd text ++ text.drop (trimEnd text).length := (trimEnd_append_drop _).symm
        _ = cs ++ spaces n ++ spaces k := by rw [hk, hcs]
        _ = cs ++ spaces (n + k) := by
          rw [List.append_assoc, spaces, spaces, List.replicate_append_replicate, spaces]
    exact htext ▸ isJson_append_spaces (n + k) hparts

end BedrockCommand
