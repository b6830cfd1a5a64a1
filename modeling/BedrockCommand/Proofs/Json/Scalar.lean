import BedrockCommand.Proofs.Argument.Reading
import BedrockCommand.Proofs.Json.Grammar
/-!
The readers of JSON scalars read what the grammar says and nothing else.
-/
namespace BedrockCommand

/-- One cursor behind another with a text between them. -/
def Cursor.Past (c : Cursor) (cs : List Char) (d : Cursor) : Prop :=
  c.rest = cs ++ d.rest ∧ d.position = c.position.after cs

namespace Cursor.Past

variable {c d e : Cursor} {cs ds rest : List Char} {p : Position}

theorem intro : (Cursor.mk (cs ++ rest) p).Past cs ⟨rest, p.after cs⟩ := ⟨rfl, rfl⟩

theorem trans (h : c.Past cs d) (h' : d.Past ds e) : c.Past (cs ++ ds) e :=
  ⟨by rw [h.1, h'.1, List.append_assoc], by rw [h'.2, h.2, Position.after_append]⟩

/-- The two cursors and the text are one cursor and what is left behind the text. -/
theorem cases (h : c.Past cs d) :
    c = ⟨cs ++ d.rest, c.position⟩ ∧ d = ⟨d.rest, c.position.after cs⟩ := by
  obtain ⟨hr, hp⟩ := h
  rw [← hr, ← hp]
  exact ⟨rfl, rfl⟩

end Cursor.Past

open Phrase

variable {c d : Cursor} {cs rest : List Char} {p : Position}

/-! ## Spaces -/

/-- Some spaces. -/
def spaces (n : Nat) : List Char :=
  List.replicate n ' '

namespace Phrase.Spaces

theorem exists_spaces (h : Spaces c d) : ∃ n, c.Past (spaces n) d := by
  induction h with
  | nil c => exact ⟨0, rfl, rfl⟩
  | @cons rest p d _ ih =>
    obtain ⟨n, hr, hp⟩ := ih
    exact ⟨n + 1, congrArg (' ' :: ·) hr, hp⟩

theorem of_spaces (n : Nat) (rest : List Char) (p : Position) :
    Spaces ⟨spaces n ++ rest, p⟩ ⟨rest, p.after (spaces n)⟩ := by
  induction n generalizing p with
  | zero => exact .nil _
  | succ n ih => exact .cons (ih _)

theorem skipSpaces (c : Cursor) : Spaces c c.skipSpaces := by
  obtain ⟨rest, p⟩ := c
  induction rest generalizing p with
  | nil => exact .nil _
  | cons x rest ih =>
    by_cases hx : x = ' '
    · subst hx
      rw [Cursor.skipSpaces_space]
      exact .cons (ih _)
    · rw [Cursor.skipSpaces_eq_self (by simpa using hx)]
      exact .nil _

/-- Spaces without another one behind them are all that there are. -/
theorem eq_skipSpaces (h : Spaces c d) (hd : d.rest.head? ≠ some ' ') : c.skipSpaces = d := by
  induction h with
  | nil c => exact Cursor.skipSpaces_eq_self hd
  | cons _ ih => exact (Cursor.skipSpaces_space _ _).trans (ih hd)

theorem suffix (h : Spaces c d) : d.rest <:+ c.rest := by
  induction h with
  | nil c => exact List.suffix_rfl
  | cons _ ih => exact ih.trans (List.suffix_cons _ _)

/-- In front of what spaces lead to stands a space, or nothing. -/
theorem head? (h : Spaces c d) : c = d ∨ c.rest.head? = some ' ' := by
  cases h with
  | nil => exact .inl rfl
  | cons => exact .inr rfl

end Phrase.Spaces

/-! ## Strings -/

namespace Phrase.QuotedBody

theorem nil : QuotedBody [] := ⟨by simp, by simp⟩

theorem getLast?_cons {x y : Char} (hy : cs.getLast? = some y) : (x :: cs).getLast? = some y := by
  simp [List.getLast?_cons, hy]

theorem escape_iff : QuotedBody ('\\' :: '"' :: cs) ↔ QuotedBody cs := by
  constructor
  · refine fun h => ⟨fun before after hcs => ?_, fun he => ?_⟩
    · have hlast := h.escaped ('\\' :: '"' :: before) after (by rw [hcs]; rfl)
      cases before with
      | nil => simp at hlast
      | cons x before => simpa [List.getLast?_cons] using hlast
    · exact h.closed (getLast?_cons (getLast?_cons he))
  · refine fun h => ⟨?_, ?_⟩
    · rintro (_ | ⟨x, _ | ⟨y, before⟩⟩) after hcs
      · simp at hcs
      · simpa using (List.cons.inj hcs).1.symm
      · obtain ⟨-, hcs⟩ := List.cons.inj hcs
        exact getLast?_cons (getLast?_cons (h.escaped before after (List.cons.inj hcs).2))
    · cases cs with
      | nil => simp
      | cons x cs => simpa [List.getLast?_cons] using h.closed

/-- A character that is no quote, and no backslash in front of one. -/
theorem cons_iff {x : Char} (hx : x ≠ '"') (he : ∀ ds, x = '\\' → cs = '"' :: ds → False) :
    QuotedBody (x :: cs) ↔ QuotedBody cs ∧ (x = '\\' → cs ≠ []) := by
  constructor
  · refine fun h => ⟨⟨fun before after hcs => ?_, fun hl => ?_⟩, ?_⟩
    · have hlast := h.escaped (x :: before) after (by rw [hcs]; rfl)
      cases before with
      | nil => exact (he after (by simpa using hlast) hcs).elim
      | cons y before => simpa [List.getLast?_cons] using hlast
    · exact h.closed (getLast?_cons hl)
    · rintro rfl rfl
      exact h.closed rfl
  · refine fun ⟨h, hne⟩ => ⟨?_, ?_⟩
    · rintro (_ | ⟨y, before⟩) after hcs
      · exact absurd (List.cons.inj hcs).1 hx
      · exact getLast?_cons (h.escaped before after (List.cons.inj hcs).2)
    · cases cs with
      | nil => simpa using fun e => hne e rfl
      | cons y cs => simpa [List.getLast?_cons] using h.closed

end Phrase.QuotedBody

theorem exists_cons_of_isDigits {ds : List Char} (h : Numeral.isDigits ds = true) :
    ∃ y es, ds = y :: es ∧ y.isDigit = true := by
  obtain ⟨hne, hall⟩ := Bool.and_eq_true_iff.mp h
  obtain ⟨y, es, rfl⟩ := List.exists_cons_of_ne_nil (by simpa using hne)
  exact ⟨y, es, rfl, List.all_eq_true.mp hall y (List.mem_cons_self ..)⟩

/-- A number without a sign begins with a digit. -/
theorem Phrase.Unsigned.head {negative : Bool} {x : Binary64} (h : Unsigned negative cs x) :
    ∃ y ds, cs = y :: ds ∧ y.isDigit = true := by
  cases h with
  | whole hd => exact exists_cons_of_isDigits hd
  | fraction hd he =>
    obtain ⟨y, es, rfl, hy⟩ := exists_cons_of_isDigits hd
    exact ⟨y, _, rfl, hy⟩

theorem exists_getLast?_isDigit {ds : List Char} (h : Numeral.isDigits ds = true) :
    ∃ y ∈ ds.getLast?, y.isDigit = true := by
  obtain ⟨hne, hall⟩ := Bool.and_eq_true_iff.mp h
  have hne : ds ≠ [] := by simpa using hne
  exact ⟨_, List.getLast?_eq_some_getLast hne, List.all_eq_true.mp hall _ (List.getLast_mem hne)⟩

/-- A number ends with a digit. -/
theorem Phrase.Unsigned.last {negative : Bool} {x : Binary64} (h : Unsigned negative cs x) :
    ∃ y ∈ cs.getLast?, y.isDigit = true := by
  cases h with
  | whole hd => exact exists_getLast?_isDigit hd
  | fraction hd he =>
    obtain ⟨y, hy, hdigit⟩ := exists_getLast?_isDigit he
    exact ⟨y, by simp [List.getLast?_append, List.getLast?_cons, Option.mem_def.mp hy], hdigit⟩

theorem Phrase.Decimal.last {x : Binary64} (h : Decimal cs x) :
    ∃ y ∈ cs.getLast?, y.isDigit = true := by
  obtain ⟨negative, h⟩ := h
  obtain ⟨y, hy, hdigit⟩ := h.last
  exact ⟨y, by simp [List.getLast?_append, Option.mem_def.mp hy], hdigit⟩

namespace Reader

theorem quoted?_sound {l text after : List Char} (h : quoted? l = some (text, after)) :
    ∃ body, QuotedBody body ∧ l = body ++ '"' :: after := by
  fun_induction quoted? l generalizing text with
  | case1 => simp at h
  | case2 rest =>
    obtain ⟨-, rfl⟩ := Prod.mk.inj (Option.some.inj h)
    exact ⟨[], .nil, rfl⟩
  | case3 rest ih =>
    obtain ⟨⟨text', after'⟩, hr, he⟩ := Option.map_eq_some_iff.mp h
    obtain ⟨-, rfl⟩ := Prod.mk.inj he
    obtain ⟨body, hb, rfl⟩ := ih hr
    exact ⟨_, QuotedBody.escape_iff.mpr hb, rfl⟩
  | case4 => simp at h
  | case5 x rest hx he hn ih =>
    obtain ⟨⟨text', after'⟩, hr, heq⟩ := Option.map_eq_some_iff.mp h
    obtain ⟨-, rfl⟩ := Prod.mk.inj heq
    obtain ⟨body, hb, rfl⟩ := ih hr
    refine ⟨x :: body, (QuotedBody.cons_iff (fun e => hx e) ?_).mpr ⟨hb, ?_⟩, rfl⟩
    · rintro ds rfl rfl
      exact he _ rfl rfl
    · rintro rfl rfl
      exact he _ rfl rfl

theorem quoted?_complete {body : List Char} (hb : QuotedBody body) (hn : '\n' ∉ body)
    (after : List Char) : ∃ text, quoted? (body ++ '"' :: after) = some (text, after) := by
  generalize hl : body ++ '"' :: after = l
  fun_induction quoted? l generalizing body with
  | case1 => simp at hl
  | case2 rest =>
    cases body with
    | nil => exact ⟨[], by simpa using hl.symm⟩
    | cons x body =>
      obtain ⟨rfl, -⟩ := List.cons.inj hl
      simpa using hb.escaped [] body rfl
  | case3 rest ih =>
    rcases body with _ | ⟨x, _ | ⟨y, body⟩⟩
    · simp at hl
    · obtain ⟨rfl, -⟩ := List.cons.inj hl
      exact absurd rfl hb.closed
    · obtain ⟨rfl, rfl, hr⟩ : x = '\\' ∧ y = '"' ∧ body ++ '"' :: after = rest := by
        simpa using hl
      obtain ⟨text, ht⟩ := ih (QuotedBody.escape_iff.mp hb) (fun h => hn (by simp [h])) hr
      exact ⟨'"' :: text, by simp [ht]⟩
  | case4 rest =>
    cases body with
    | nil => simp at hl
    | cons x body =>
      obtain ⟨rfl, -⟩ := List.cons.inj hl
      simp at hn
  | case5 x rest hx he hn' ih =>
    cases body with
    | nil => exact (hx (List.cons.inj hl).1.symm).elim
    | cons y body =>
      obtain ⟨rfl, rfl⟩ := List.cons.inj hl
      have hb := (QuotedBody.cons_iff hx fun ds hy hd => he (ds ++ '"' :: after) hy (by
        rw [hd]; rfl)).mp hb
      obtain ⟨text, ht⟩ := ih hb.1 (fun h => hn (List.mem_cons_of_mem _ h)) rfl
      exact ⟨y :: text, by rw [ht]; rfl⟩

/-- Past the closing quote. -/
theorem skip_closed (body after : List Char) (p : Position) :
    (Cursor.mk (body ++ '"' :: after) p).skip ((body ++ '"' :: after).length - after.length) =
      ⟨after, p.after (body ++ ['"'])⟩ := by
  have hlen : (body ++ ['"']).length = (body ++ '"' :: after).length - after.length := by
    simp only [List.length_append, List.length_cons, List.length_nil]
    omega
  simpa using Cursor.skip_append_of_length (body ++ ['"']) after p hlen

theorem quoted_sound {s : String} (h : quoted c = (.ok s, d)) :
    ∃ cs e, Quoted cs ∧ c.Past cs e ∧ d = e.skipSpaces := by
  rw [quoted_apply] at h
  split at h
  · next hat =>
    obtain ⟨rest, hr⟩ := Cursor.isAt_iff.mp hat
    rw [Cursor.advance_of_rest hr] at h
    split at h
    · next text after hq =>
      obtain ⟨body, hb, rfl⟩ := quoted?_sound hq
      rw [skip_closed] at h
      exact ⟨_, _, .intro hb, ⟨by simp [hr], rfl⟩, (Prod.mk.inj h).2.symm⟩
    · simp at h
  · simp at h

theorem quoted_complete (h : Quoted cs) (hn : '\n' ∉ cs) (rest : List Char) (p : Position) :
    ∃ s, quoted ⟨cs ++ rest, p⟩ = (.ok s, (Cursor.mk rest (p.after cs)).skipSpaces) := by
  obtain @⟨body, hb⟩ := h
  obtain ⟨text, ht⟩ := quoted?_complete hb (fun h => hn (by simp [h])) rest
  have hrest : '"' :: body ++ ['"'] ++ rest = '"' :: (body ++ '"' :: rest) := by simp
  refine ⟨String.ofList text, ?_⟩
  rw [quoted_apply, hrest, if_pos (Cursor.isAt_iff.mpr ⟨_, rfl⟩), Cursor.advance_of_rest rfl, ht]
  simp only [skip_closed]
  rfl

/-! ## Numbers -/

theorem digits_sound {e : SyntaxError} {ds : List Char} (h : digits e c = (.ok ds, d)) :
    Numeral.isDigits ds = true ∧ c.Past ds d := by
  unfold digits at h
  obtain ⟨cs, c', hcs, h⟩ := bind_eq_ok.mp h
  obtain ⟨rfl, rfl⟩ := ok_inj hcs
  split at h
  · simp at h
  · next hne =>
    obtain ⟨rfl, rfl⟩ := ok_inj h
    refine ⟨?_, ?_⟩
    · rw [Numeral.isDigits, Bool.and_eq_true_iff]
      exact ⟨by simpa using hne, List.all_eq_true.mpr fun x hx => List.mem_takeWhile_imp hx⟩
    · rw [Cursor.skipWhile_eq]
      exact ⟨List.takeWhile_append_dropWhile.symm, rfl⟩

/-- The longest run of characters that pass a test. -/
theorem takeWhile_append_of_head? {q : Char → Bool} {w : List Char}
    (hw : ∀ x ∈ w, q x = true) (hr : ∀ x ∈ rest.head?, q x = false) :
    (w ++ rest).takeWhile q = w := by
  have htail : rest.takeWhile q = [] := by
    cases rest with
    | nil => rfl
    | cons x rest => simp [hr x rfl]
  rw [List.takeWhile_append_of_pos hw, htail, List.append_nil]

theorem digits_complete (e : SyntaxError) {ds : List Char} (hd : Numeral.isDigits ds = true)
    (hr : ∀ x ∈ rest.head?, x.isDigit = false) (p : Position) :
    digits e ⟨ds ++ rest, p⟩ = (.ok ds, ⟨rest, p.after ds⟩) := by
  obtain ⟨hne, hall⟩ := Bool.and_eq_true_iff.mp hd
  have hahead : (Cursor.mk (ds ++ rest) p).ahead Char.isDigit = ds :=
    takeWhile_append_of_head? (List.all_eq_true.mp hall) hr
  unfold digits
  simp only [bind_apply, takeWhile, hahead, Cursor.skipWhile]
  simp only [Cursor.skip_append_of_length ds rest p rfl]
  rw [if_neg (by simpa using hne)]
  rfl

/-- Whether a text may follow a number or a name. -/
def Delimited (rest : List Char) : Prop :=
  ∀ x ∈ rest.head?, x.isAlphanum = false ∧ x ≠ '.'

theorem Delimited.isDigit (h : Delimited rest) : ∀ x ∈ rest.head?, x.isDigit = false :=
  fun x hx => (Bool.or_eq_false_iff.mp (h x hx).1).2

/-- Whether a text ends with a point and the digits after it. -/
def EndsFraction (cs : List Char) : Prop :=
  ∃ ds es, cs = ds ++ '.' :: es ∧ ∀ y ∈ es, y.isDigit = true

/-- Whether a character goes on with the number or the name at the end of a text. -/
def Continues (x : Char) (cs : List Char) : Prop :=
  ∃ y ∈ cs.getLast?, y.isDigit = true ∧ (x.isDigit = true ∨ x = '.' ∧ ¬ EndsFraction cs) ∨
    y.isAlpha = true ∧ x.isAlphanum = true

/-- Whether a number or a name at the end of a text ends in front of another text. -/
def Parted (cs rest : List Char) : Prop :=
  ∀ x ∈ rest.head?, ¬ Continues x cs

theorem Delimited.parted (h : Delimited rest) (cs : List Char) : Parted cs rest := by
  rintro x hx ⟨y, -, ⟨-, hd | ⟨hp, -⟩⟩ | ⟨-, ha⟩⟩
  · simp [h.isDigit x hx] at hd
  · exact (h x hx).2 hp
  · simp [(h x hx).1] at ha

theorem EndsFraction.of_append {ds : List Char} (h : EndsFraction (ds ++ cs))
    (hds : ∀ y ∈ ds.getLast?, y ≠ '.' ∧ y.isDigit = false) : EndsFraction cs := by
  obtain ⟨before, es, heq, hes⟩ := h
  obtain ⟨as, rfl, hcs⟩ | ⟨as, rfl, hcs⟩ := List.append_eq_append_iff.mp heq
  · exact ⟨as, es, hcs, hes⟩
  · cases as with
    | nil => exact ⟨[], es, hcs.symm, hes⟩
    | cons x as =>
      -- The point would stand in the first text, which would end with it or with a digit.
      obtain ⟨rfl, rfl⟩ := List.cons.inj hcs
      obtain ⟨y, hy⟩ : ∃ y, ('.' :: as).getLast? = some y := ⟨_, List.getLast?_cons ..⟩
      obtain ⟨hpoint, hdigit⟩ := hds y (by simp [List.getLast?_append, hy])
      rcases List.mem_cons.mp (List.mem_of_getLast? hy) with hmem | hmem
      · exact absurd hmem hpoint
      · simp [hes y (List.mem_append_left _ hmem)] at hdigit

/-- In front of a text may stand what does not end with a point or a digit. -/
theorem Parted.of_append {ds : List Char} (h : Parted (ds ++ cs) rest)
    (hds : ∀ y ∈ ds.getLast?, y ≠ '.' ∧ y.isDigit = false) : Parted cs rest := by
  rintro x hx ⟨y, hy, hc⟩
  refine h x hx ⟨y, by simp [List.getLast?_append, Option.mem_def.mp hy], ?_⟩
  exact hc.imp_left <| .imp_right <| .imp_right <| .imp_right fun hf h => hf (h.of_append hds)

theorem Parted.isDigit (h : Parted cs rest) (hcs : ∃ y ∈ cs.getLast?, y.isDigit = true) :
    ∀ x ∈ rest.head?, x.isDigit = false := by
  obtain ⟨y, hy, hdigit⟩ := hcs
  exact fun x hx => Bool.eq_false_iff.mpr fun hd => h x hx ⟨y, hy, .inl ⟨hdigit, .inl hd⟩⟩

/-- No point follows digits. -/
theorem Parted.isAt (h : Parted cs rest) (hcs : Numeral.isDigits cs = true) (p : Position) :
    (Cursor.mk rest p).isAt '.' = false := by
  obtain ⟨y, hy, hdigit⟩ := exists_getLast?_isDigit hcs
  have hfraction : ¬ EndsFraction cs := by
    rintro ⟨ds, es, rfl, -⟩
    have := List.all_eq_true.mp (Bool.and_eq_true_iff.mp hcs).2 '.' (by simp)
    simp at this
  cases rest with
  | nil => rfl
  | cons x rest =>
    have hx : x ≠ '.' := fun e => h x rfl ⟨y, hy, .inl ⟨hdigit, .inr ⟨e, hfraction⟩⟩⟩
    simpa using hx

theorem unsigned_sound {negative : Bool} {x : Binary64} (h : unsigned negative c = (.ok x, d)) :
    ∃ cs, Unsigned negative cs x ∧ c.Past cs d := by
  unfold unsigned at h
  obtain ⟨ds, c', hds, h⟩ := bind_eq_ok.mp h
  obtain ⟨hd, hpast⟩ := digits_sound hds
  obtain ⟨b, c'', hlook, h⟩ := bind_eq_ok.mp h
  obtain ⟨rfl, rfl⟩ := ok_inj hlook
  split at h
  · next hat =>
    obtain ⟨u, c₁, hmove, h⟩ := bind_eq_ok.mp h
    obtain ⟨es, c₂, hes, h⟩ := bind_eq_ok.mp h
    obtain ⟨he, hpast'⟩ := digits_sound hes
    obtain ⟨rfl, rfl⟩ := ok_inj h
    obtain ⟨rest, hr⟩ := Cursor.isAt_iff.mp hat
    obtain ⟨-, rfl⟩ := Prod.mk.inj hmove
    rw [Cursor.advance_of_rest hr] at hpast'
    have hpoint : c'.Past ['.'] ⟨rest, c'.position.next '.'⟩ := ⟨hr, rfl⟩
    exact ⟨_, .fraction hd he (Binary64.roundsTo_places_iff.mpr rfl),
      hpast.trans (hpoint.trans hpast')⟩
  · obtain ⟨rfl, rfl⟩ := ok_inj h
    exact ⟨ds, .whole hd (Binary64.roundsTo_digits_iff.mpr rfl), hpast⟩

theorem unsigned_complete {negative : Bool} {x : Binary64} (h : Unsigned negative cs x)
    (hr : Parted cs rest) (p : Position) :
    unsigned negative ⟨cs ++ rest, p⟩ = (.ok x, ⟨rest, p.after cs⟩) := by
  have hdigit := hr.isDigit h.last
  unfold unsigned
  cases h with
  | whole hd hx =>
    obtain rfl := Binary64.roundsTo_digits_iff.mp hx
    rw [bind_apply, digits_complete _ hd hdigit]
    simp only [bind_apply, look, hr.isAt hd, Bool.false_eq_true, if_false, pure_apply]
  | @fraction ds es _ hd he hx =>
    obtain rfl := Binary64.roundsTo_places_iff.mp hx
    have hpoint : ∀ x ∈ ('.' :: (es ++ rest)).head?, x.isDigit = false := by simp
    rw [List.append_assoc, List.cons_append, bind_apply, digits_complete _ hd hpoint]
    simp only [bind_apply, look, Cursor.isAt_cons, decide_true, if_true, move,
      Cursor.advance_of_rest (c := ⟨'.' :: (es ++ rest), _⟩) rfl, digits_complete _ he hdigit,
      pure_apply, Position.after_append, Position.after_cons]

theorem jsonNumber_apply (c : Cursor) : jsonNumber c =
    match unsigned (c.isAt '-') (if c.isAt '-' then c.advance else c) with
    | (.ok x, d) => (.ok x, d.skipSpaces)
    | (.error e, d) => (.error e, d) := by
  have hbind (negative : Bool) : (unsigned negative >>= fun x => spaces >>= fun _ => pure x) =
      fun c => match unsigned negative c with
        | (.ok x, d) => (.ok x, d.skipSpaces)
        | (.error e, d) => (.error e, d) := by
    funext c
    rw [bind_apply]
    obtain ⟨_ | x, d⟩ := unsigned negative c <;> rfl
  unfold jsonNumber
  simp only [hbind]
  obtain ⟨_ | ⟨x, rest⟩, p⟩ := c
  · rfl
  · by_cases hx : x = '-'
    · subst hx
      rfl
    · simp [bind, andThen, hx]

theorem jsonNumber_sound {x : Binary64} (h : jsonNumber c = (.ok x, d)) :
    ∃ cs e, Phrase.Decimal cs x ∧ c.Past cs e ∧ d = e.skipSpaces := by
  rw [jsonNumber_apply] at h
  split at h
  · next x' e hu =>
    obtain ⟨rfl, rfl⟩ := ok_inj h
    obtain ⟨cs, hcs, hpast⟩ := unsigned_sound hu
    refine ⟨_, e, .intro _ hcs, ?_, rfl⟩
    cases hat : c.isAt '-' with
    | false => simpa [hat, minus] using hpast
    | true =>
      obtain ⟨rest, hr⟩ := Cursor.isAt_iff.mp hat
      have hminus : c.Past ['-'] c.advance := ⟨by simp [Cursor.advance_of_rest hr, hr], by
        rw [Cursor.advance_of_rest hr]; rfl⟩
      exact hminus.trans (by simpa [hat] using hpast)
  · simp at h

theorem jsonNumber_complete {x : Binary64} (h : Phrase.Decimal cs x) (hr : Parted cs rest)
    (p : Position) :
    jsonNumber ⟨cs ++ rest, p⟩ = (.ok x, (Cursor.mk rest (p.after cs)).skipSpaces) := by
  obtain @⟨negative, cs, x, h⟩ := h
  have hparted : Parted cs rest := hr.of_append (by cases negative <;> simp [minus])
  rw [jsonNumber_apply]
  cases negative with
  | true =>
    have hat : (Cursor.mk (minus true ++ cs ++ rest) p).isAt '-' = true := rfl
    have hadvance : (Cursor.mk (minus true ++ cs ++ rest) p).advance =
      ⟨cs ++ rest, p.next '-'⟩ := Cursor.advance_of_rest rfl
    simp only [hat, if_true, hadvance, unsigned_complete h hparted]
    rfl
  | false =>
    obtain ⟨y, ds, rfl, hy⟩ := h.head
    have hne : y ≠ '-' := by
      rintro rfl
      simp at hy
    have hat : (Cursor.mk (minus false ++ y :: ds ++ rest) p).isAt '-' = false := by
      simpa [minus] using hne
    simp only [hat, Bool.false_eq_true, if_false]
    rw [minus, if_neg Bool.false_ne_true, List.nil_append, unsigned_complete h hparted]

end Reader

/-! ## Arguments -/

/-- An argument that reads the texts of some leaves and the spaces behind them, and for which every
other text is an error. -/
structure Argument.ReadsLeaf (a : Argument)
    (writes : List Char → TokenKind → TokenValue → Prop) : Prop where
  sound : ∀ {c}, (a.read c).kind ≠ some .error → ∃ cs e kind value x,
    writes cs kind value ∧ c.Past cs e ∧ a.read c = .accept kind value x e.skipSpaces
  complete : ∀ {cs rest kind value}, writes cs kind value → '\n' ∉ cs → Reader.Parted cs rest →
    ∀ p, ∃ x, a.read ⟨cs ++ rest, p⟩ = .accept kind value x (Cursor.mk rest (p.after cs)).skipSpaces

namespace Argument

variable {writes : List Char → TokenKind → TokenValue → Prop}

/-- An argument that takes whatever a reader gives. -/
theorem readsLeaf_of {a : Argument} {r : Reader β} {kind : TokenKind} {value : β → TokenValue}
    {x : a.Answer} (ha : a.read = Reading.of r fun y => .accept kind (value y) x)
    (hs : ∀ {c y d}, r c = (.ok y, d) →
      ∃ cs e, writes cs kind (value y) ∧ c.Past cs e ∧ d = e.skipSpaces)
    (hc : ∀ {cs rest k v}, writes cs k v → '\n' ∉ cs → Reader.Parted cs rest → ∀ p,
      ∃ y, k = kind ∧ v = value y ∧
        r ⟨cs ++ rest, p⟩ = (.ok y, (Cursor.mk rest (p.after cs)).skipSpaces)) :
    a.ReadsLeaf writes where
  sound {c} h := by
    simp only [ha, Reading.of] at h ⊢
    split at h
    · next y d hr =>
      obtain ⟨cs, e, hw, hpast, rfl⟩ := hs hr
      exact ⟨cs, e, kind, value y, x, hw, hpast, rfl⟩
    · simp [Reading.refuse] at h
  complete hw hn hd p := by
    obtain ⟨y, rfl, rfl, hr⟩ := hc hw hn hd p
    exact ⟨x, by simp only [ha, Reading.of, hr]⟩

theorem readsLeaf_quoted : quoted.ReadsLeaf (Text .string) := by
  refine readsLeaf_of rfl (fun h => ?_) ?_
  · obtain ⟨cs, e, hcs, hpast, hd⟩ := Reader.quoted_sound h
    exact ⟨cs, e, .intro hcs, hpast, hd⟩
  · rintro cs rest _ _ ⟨h⟩ hn - p
    obtain ⟨s, hs⟩ := Reader.quoted_complete h hn rest p
    exact ⟨s, rfl, rfl, hs⟩

theorem readsLeaf_quotedKey : quotedKey.ReadsLeaf (Text .option) := by
  refine readsLeaf_of rfl (fun h => ?_) ?_
  · obtain ⟨cs, e, hcs, hpast, hd⟩ := Reader.quoted_sound h
    exact ⟨cs, e, .intro hcs, hpast, hd⟩
  · rintro cs rest _ _ ⟨h⟩ hn - p
    obtain ⟨s, hs⟩ := Reader.quoted_complete h hn rest p
    exact ⟨s, rfl, rfl, hs⟩

theorem readsLeaf_jsonNumber : jsonNumber.ReadsLeaf Number := by
  refine readsLeaf_of rfl (fun h => ?_) ?_
  · obtain ⟨cs, e, hcs, hpast, hd⟩ := Reader.jsonNumber_sound h
    exact ⟨cs, e, .intro hcs, hpast, hd⟩
  · rintro cs rest _ _ ⟨h⟩ - hr p
    exact ⟨_, rfl, rfl, Reader.jsonNumber_complete h hr p⟩

end Argument
end BedrockCommand
