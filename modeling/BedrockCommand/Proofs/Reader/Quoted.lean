import BedrockCommand.Proofs.Reader.Exact
/-!
Quoted strings and what they stand for. A quote inside has a backslash in front of it, and nothing
else is an escape, so that each string has one quoted form, and the reader of quoted strings turns
the form back into the string.
-/
namespace BedrockCommand

namespace Text

/-- A text with a backslash in front of each quote. -/
def escapeQuotes : List Char → List Char
  | [] => []
  | x :: cs => if x = '"' then '\\' :: '"' :: escapeQuotes cs else x :: escapeQuotes cs

/-- The quoted form of a string. -/
def inQuotes (s : String) : List Char :=
  '"' :: escapeQuotes s.toList ++ ['"']

/-- Whether a text can be quoted: it has no line break, and it does not end with a backslash, which
would make the closing quote a quote inside. -/
structure Quotable (cs : List Char) : Prop where
  newline : '\n' ∉ cs
  closed : cs.getLast? ≠ some '\\'

@[simp] theorem escapeQuotes_nil : escapeQuotes [] = [] := rfl

@[simp] theorem escapeQuotes_quote (cs : List Char) :
    escapeQuotes ('"' :: cs) = '\\' :: '"' :: escapeQuotes cs := rfl

theorem escapeQuotes_cons {x : Char} (hx : x ≠ '"') (cs : List Char) :
    escapeQuotes (x :: cs) = x :: escapeQuotes cs :=
  if_neg hx

/-- An escaped text does not begin with a quote. -/
theorem head?_escapeQuotes_append {cs : List Char} (hne : cs ≠ []) (rest : List Char) :
    (escapeQuotes cs ++ rest).head? ≠ some '"' := by
  cases cs with
  | nil => exact absurd rfl hne
  | cons x cs =>
    by_cases hx : x = '"'
    · subst hx
      simp
    · simpa [escapeQuotes_cons hx] using hx

namespace Quotable

variable {x : Char} {cs : List Char}

theorem nil : Quotable [] := ⟨by simp, by simp⟩

theorem cons_iff : Quotable (x :: cs) ↔ x ≠ '\n' ∧ (cs = [] → x ≠ '\\') ∧ Quotable cs := by
  constructor
  · refine fun h => ⟨fun hx => h.newline (by simp [hx]), ?_, fun hn => ?_, fun hl => ?_⟩
    · rintro rfl rfl
      exact h.closed rfl
    · exact h.newline (List.mem_cons_of_mem _ hn)
    · exact h.closed (by simp [List.getLast?_cons, hl])
  · rintro ⟨hx, hb, h⟩
    refine ⟨List.mem_cons.not.mpr (not_or.mpr ⟨Ne.symm hx, h.newline⟩), fun hl => ?_⟩
    cases cs with
    | nil => exact hb rfl (Option.some.inj hl)
    | cons y cs => exact h.closed (by simpa [List.getLast?_cons] using hl)

end Quotable

end Text

namespace Reader

open Text (escapeQuotes inQuotes Quotable)

variable {c d : Cursor}

/-- What stands in quotes is read as what it stands for. -/
theorem quoted?_escapeQuotes {cs : List Char} (h : Quotable cs) (rest : List Char) :
    quoted? (escapeQuotes cs ++ '"' :: rest) = some (cs, rest) := by
  induction cs with
  | nil => rfl
  | cons x cs ih =>
    obtain ⟨hn, hlast, hcs⟩ := Quotable.cons_iff.mp h
    by_cases hx : x = '"'
    · subst hx
      rw [Text.escapeQuotes_quote, List.cons_append, List.cons_append, quoted?, ih hcs]
      rfl
    -- A backslash is no escape here, as the text behind it does not begin with a quote.
    have hescape : ∀ ds, x = '\\' → escapeQuotes cs ++ '"' :: rest = '"' :: ds → False := by
      intro ds hb hq
      exact Text.head?_escapeQuotes_append (fun he => hlast he hb) _ (congrArg List.head? hq)
    rw [Text.escapeQuotes_cons hx, List.cons_append, quoted?, if_neg hn, ih hcs]
    · rfl
    · exact hx
    · exact hescape

/-- What is read in quotes is written in one way. -/
theorem eq_escapeQuotes_of_quoted? {l text after : List Char}
    (h : quoted? l = some (text, after)) :
    Quotable text ∧ l = escapeQuotes text ++ '"' :: after := by
  fun_induction quoted? l generalizing text with
  | case1 => simp at h
  | case2 rest =>
    obtain ⟨rfl, rfl⟩ := Prod.mk.inj (Option.some.inj h)
    exact ⟨.nil, rfl⟩
  | case3 rest ih =>
    obtain ⟨⟨text', after'⟩, hr, he⟩ := Option.map_eq_some_iff.mp h
    obtain ⟨rfl, rfl⟩ := Prod.mk.inj he
    obtain ⟨hq, rfl⟩ := ih hr
    exact ⟨Quotable.cons_iff.mpr ⟨by decide, by simp, hq⟩, rfl⟩
  | case4 => simp at h
  | case5 x rest hx he hn ih =>
    obtain ⟨⟨text', after'⟩, hr, heq⟩ := Option.map_eq_some_iff.mp h
    obtain ⟨rfl, rfl⟩ := Prod.mk.inj heq
    obtain ⟨hq, rfl⟩ := ih hr
    refine ⟨Quotable.cons_iff.mpr ⟨hn, ?_, hq⟩, ?_⟩
    · rintro rfl rfl
      exact he _ rfl rfl
    · rw [Text.escapeQuotes_cons (fun e => hx e)]
      rfl

/-- The quoted form of a string, and its closing quote with what follows. -/
theorem inQuotes_append (s : String) (rest : List Char) :
    inQuotes s ++ rest = '"' :: (escapeQuotes s.toList ++ '"' :: rest) := by
  simp [inQuotes]

/-- Behind a quote there is no closing quote just where no quoted form begins with it. -/
theorem quoted?_eq_none_iff {l : List Char} : quoted? l = none ↔
    ∀ s rest, Quotable s.toList → '"' :: l ≠ inQuotes s ++ rest := by
  constructor
  · intro h s rest hs hl
    rw [inQuotes_append] at hl
    obtain rfl := (List.cons.inj hl).2
    simp [quoted?_escapeQuotes hs] at h
  · intro h
    cases hq : quoted? l with
    | none => rfl
    | some p =>
      obtain ⟨hp, rfl⟩ := eq_escapeQuotes_of_quoted? hq
      have hform := h (String.ofList p.1) p.2
      rw [inQuotes_append, String.toList_ofList] at hform
      exact absurd rfl (hform hp)

/-- A quoted string is read just where its quoted form stands. -/
theorem rawQuoted_eq_ok {s : String} : rawQuoted c = (.ok s, d) ↔
    Quotable s.toList ∧ c.Past (inQuotes s) d := by
  rw [rawQuoted_apply]
  constructor
  · intro h
    split at h
    · next hat =>
      obtain ⟨rest, hr⟩ := Cursor.isAt_iff.mp hat
      rw [Cursor.advance_of_rest hr] at h
      split at h
      · next text after hq =>
        obtain ⟨htext, rfl⟩ := eq_escapeQuotes_of_quoted? hq
        rw [skip_closed] at h
        obtain ⟨rfl, rfl⟩ := ok_inj h
        rw [inQuotes, String.toList_ofList]
        exact ⟨htext, by simp [hr], rfl⟩
      · simp at h
    · simp at h
  · rintro ⟨hs, hr, hp⟩
    obtain ⟨rest, p⟩ := d
    obtain rfl : p = c.position.after (inQuotes s) := hp
    rw [inQuotes_append] at hr
    rw [if_pos (Cursor.isAt_iff.mpr ⟨_, hr⟩), Cursor.advance_of_rest hr, quoted?_escapeQuotes hs]
    simp only [skip_closed, String.ofList_toList]
    rfl

/-- The reader of quoted strings inverts their quoting. It gives a string just where the quoted form
of the string stands, which it reads and no more, and the string has a quoted form then. Behind a
quote that begins no quoted form, the string is unclosed, and the rest of the line is read. -/
theorem rawQuoted_inverts_inQuotes (c d : Cursor) :
    (∀ s, rawQuoted c = (.ok s, d) ↔ Quotable s.toList ∧ c.Past (inQuotes s) d) ∧
    ∀ e, rawQuoted c = (.error e, d) ↔
      c.isAt '"' = true ∧ (∀ s rest, Quotable s.toList → c.rest ≠ inQuotes s ++ rest) ∧
        e = .unclosedString ∧ d = c.toLineEnd ∨
      c.isAt '"' = false ∧ e = .expectedChar '"' ∧ d = c := by
  refine ⟨fun s => rawQuoted_eq_ok, fun e => ?_⟩
  rw [rawQuoted_apply]
  cases hat : c.isAt '"' with
  | false => simp [eq_comm]
  | true =>
    obtain ⟨rest, hr⟩ := Cursor.isAt_iff.mp hat
    have hend : c.advance.toLineEnd = c.toLineEnd :=
      (Cursor.ahead_advance (by decide) hat).toLineEnd_eq
    rw [hend, Cursor.advance_of_rest hr, hr, ← quoted?_eq_none_iff]
    cases quoted? rest <;> simp [eq_comm]

end Reader
end BedrockCommand
