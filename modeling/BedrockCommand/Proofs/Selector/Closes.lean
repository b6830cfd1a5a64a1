import BedrockCommand.Proofs.Reader.Word
import BedrockCommand.Proofs.Source.Separator
import BedrockCommand.Rule.List
/-!
Texts in which brackets and quotes match, and what is read of them: quoted strings end inside, and
the place where a list goes on lies inside as well.
-/
namespace BedrockCommand

/-- The characters that have a meaning for lists. -/
def listMarks : List Char :=
  [',', '[', ']', '\x7b', '\x7d', '"']

/-- A test that no such character passes fails for each of them. -/
theorem eq_false_of_mem_listMarks {p : Char → Bool} {x : Char} (hp : listMarks.any p = false)
    (hx : x ∈ listMarks) : p x = false := by
  simpa using List.any_eq_false.mp hp x hx

/-- Whether a text closes all that is open in front of it, brackets and maybe a quote, and has no
comma outside of all of that. A bracket is closed by one of its kind. Between quotes brackets and
commas stand for themselves, and so does a quote with a backslash in front. -/
def closes : List Brackets → Bool → List Char → Bool
  | opened, quoted, [] => opened.isEmpty && !quoted
  | opened, true, '\\' :: '"' :: cs => closes opened true cs
  | opened, true, x :: cs => closes opened (x ≠ '"') cs
  | opened, false, x :: cs =>
    if x = '"' then closes opened true cs
    else if x = '[' then closes (.square :: opened) false cs
    else if x = '\x7b' then closes (.curly :: opened) false cs
    else if x = ']' then opened.head? = some .square && closes opened.tail false cs
    else if x = '\x7d' then opened.head? = some .curly && closes opened.tail false cs
    else if x = ',' then !opened.isEmpty && closes opened false cs
    else closes opened false cs

variable {opened : List Brackets} {quoted : Bool} {x : Char} {cs u tail : List Char}

/-! ## One character -/

theorem closes_quote (opened : List Brackets) (quoted : Bool) (cs : List Char) :
    closes opened quoted ('"' :: cs) = closes opened (!quoted) cs := by
  cases quoted <;> simp [closes]

theorem closes_escape (opened : List Brackets) (quoted : Bool) (cs : List Char) :
    closes opened quoted ('\\' :: '"' :: cs) = closes opened true cs := by
  cases quoted <;> simp [closes]

theorem closes_quoted (hx : x ≠ '"') (he : ∀ ds, x = '\\' → cs = '"' :: ds → False) :
    closes opened true (x :: cs) = closes opened true cs := by
  rw [closes.eq_3 _ _ _ he]
  simp [hx]

theorem closes_neutral (hx : x ∉ listMarks) :
    closes opened false (x :: cs) = closes opened false cs := by
  simp only [listMarks, List.mem_cons, List.not_mem_nil, or_false, not_or] at hx
  obtain ⟨hcomma, ho, hc, ho', hc', hq⟩ := hx
  rw [closes, if_neg hq, if_neg ho, if_neg ho', if_neg hc, if_neg hc', if_neg hcomma]

theorem closes_opening (b : Brackets) :
    closes opened false (b.opening :: cs) = closes (b :: opened) false cs := by
  cases b <;> rfl

theorem closes_closing (b : Brackets) : closes opened false (b.closing :: cs) =
    (opened.head? = some b && closes opened.tail false cs) := by
  cases b <;> rfl

theorem closes_comma : closes opened false (',' :: cs) =
    (!opened.isEmpty && closes opened false cs) := rfl

/-- Where nothing is open there is neither a comma nor a closing bracket. -/
theorem closes_nil_cons (h : closes [] false (x :: cs) = true) :
    x ≠ ',' ∧ ∀ b : Brackets, x ≠ b.closing := by
  refine ⟨?_, fun b => ?_⟩
  · rintro rfl
    simp [closes_comma] at h
  · rintro rfl
    simp [closes_closing] at h

/-! ## Runs and quoted strings -/

/-- A run of characters without a meaning for lists changes nothing about what is open. -/
theorem closes_dropWhile {p : Char → Bool} (hp : listMarks.any p = false)
    (h : closes opened false u = true) : closes opened false (u.dropWhile p) = true := by
  induction u with
  | nil => exact h
  | cons x u ih =>
    rw [List.dropWhile_cons]
    split
    · next hx =>
      have hneutral : x ∉ listMarks := fun hmem => by
        simp [eq_false_of_mem_listMarks hp hmem] at hx
      exact ih (closes_neutral hneutral ▸ h)
    · exact h

/-- A quoted string ends where the text says that the quote is closed. -/
theorem quoted?_of_closes (h : closes opened true u = true) (hn : '\n' ∉ u) :
    ∃ text after, after <:+ u ∧ closes opened false after = true ∧
      ∀ tail, Reader.quoted? (u ++ tail) = some (text, after ++ tail) := by
  fun_induction Reader.quoted? u with
  | case1 => simp [closes] at h
  | case2 rest =>
    rw [closes_quote] at h
    exact ⟨[], rest, List.suffix_cons .., h, fun tail => rfl⟩
  | case3 rest ih =>
    rw [closes_escape] at h
    obtain ⟨text, after, hs, ha, hr⟩ := ih h fun hmem => hn (by simp [hmem])
    refine ⟨'"' :: text, after, (hs.trans (List.suffix_cons ..)).trans (List.suffix_cons ..), ha,
      fun tail => ?_⟩
    simp [Reader.quoted?, hr]
  | case4 => simp at hn
  | case5 x rest hx he hn' ih =>
    rw [closes_quoted (fun e => hx e) fun ds hb hd => he ds hb hd] at h
    obtain ⟨text, after, hs, ha, hr⟩ := ih h fun hmem => hn (List.mem_cons_of_mem _ hmem)
    refine ⟨x :: text, after, hs.trans (List.suffix_cons ..), ha, fun tail => ?_⟩
    -- What is left of an open quote is not empty, so that no escape comes into being.
    have he' : ∀ ds, x = '\\' → rest ++ tail = '"' :: ds → False := by
      intro ds hb hd
      obtain ⟨y, rest, rfl⟩ := List.exists_cons_of_ne_nil (l := rest) fun e => by
        simp [e, closes] at h
      exact he rest hb (by simpa using (List.cons.inj hd).1)
    rw [List.cons_append, Reader.quoted?.eq_4 _ _ hx he', if_neg hn', hr]
    rfl

/-! ## Separators -/

/-- What follows an option: a comma, or the bracket that closes the list of options. -/
def Separates (tail : List Char) : Prop :=
  ∃ x rest, tail = x :: rest ∧ (x = ',' ∨ x = ']')

theorem separates_comma (rest : List Char) : Separates (',' :: rest) :=
  ⟨_, _, rfl, .inl rfl⟩

theorem separates_closing (rest : List Char) : Separates (']' :: rest) :=
  ⟨_, _, rfl, .inr rfl⟩

/-- A backslash and a quote do not come together where an option meets what follows it. -/
theorem Separates.escape_append (ht : Separates tail)
    (he : ∀ ds, x = '\\' → cs = '"' :: ds → False) (ds : List Char) :
    x = '\\' → cs ++ tail = '"' :: ds → False := by
  obtain ⟨y, rest, rfl, hy⟩ := ht
  intro hb hds
  cases cs with
  | nil => rcases hy with rfl | rfl <;> simp at hds
  | cons z cs => exact he cs hb (by simpa using (List.cons.inj hds).1)

/-- The list around a place: the innermost one that is open, or else the list of options. -/
def innermost (opened : List Brackets) : Brackets :=
  opened.headD .square

/-- A character that is passed over on the way to a separator changes nothing about what is open. A
closing bracket among them belongs to what is open inside, since it is not the one around. -/
theorem closes_passed {inner : List Brackets}
    (h : closes (inner ++ opened) false (x :: cs) = true) (hq : x ≠ '"')
    (ho : ¬ (x = '[' ∨ x = '\x7b')) (hc : ¬ ((x = ']' ∨ x = '\x7d') ∧ 0 < inner.length))
    (hs : ¬ (inner.length = 0 ∧ (x = ',' ∨ x = (innermost opened).closing))) :
    closes (inner ++ opened) false cs = true := by
  by_cases hcomma : x = ','
  · subst hcomma
    exact (Bool.and_eq_true_iff.mp (closes_comma ▸ h)).2
  by_cases hb : ∃ b : Brackets, x = b.closing
  · obtain ⟨b, rfl⟩ := hb
    have hclosing : b.closing = ']' ∨ b.closing = '\x7d' := by cases b <;> simp [Brackets.closing]
    have hlength : inner.length = 0 := by
      have := not_and.mp hc hclosing
      omega
    obtain rfl := List.length_eq_zero_iff.mp hlength
    have hhead : opened.head? = some b :=
      of_decide_eq_true (Bool.and_eq_true_iff.mp (closes_closing b ▸ h)).1
    exact absurd ⟨rfl, .inr (by simp [innermost, List.headD_eq_head?_getD, hhead])⟩ hs
  · have hneutral : x ∉ listMarks := by
      simp only [listMarks, List.mem_cons, List.not_mem_nil, or_false, not_or]
      obtain ⟨hsquare, hcurly⟩ := not_or.mp ho
      exact ⟨hcomma, hsquare, fun e => hb ⟨.square, e⟩, hcurly, fun e => hb ⟨.curly, e⟩, hq⟩
    exact closes_neutral hneutral ▸ h

/-- The place where the list around goes on lies inside the text, or at its end if nothing is
open, and the same is open there. -/
theorem separatorOffset_closes {inner : List Brackets}
    (h : closes (inner ++ opened) quoted u = true) (hn : '\n' ∉ u) (ht : Separates tail) :
    separatorOffset (innermost opened).closing quoted inner.length (u ++ tail) =
      separatorOffset (innermost opened).closing quoted inner.length u ∧
    closes opened false
      (u.drop (separatorOffset (innermost opened).closing quoted inner.length u)) = true := by
  generalize hd : inner.length = depth
  have hnext {x : Char} {cs : List Char} (h : '\n' ∉ x :: cs) : '\n' ∉ cs := fun h' =>
    h (List.mem_cons_of_mem x h')
  have hdrop (x : Char) (cs : List Char) (n : Nat) : (x :: cs).drop (1 + n) = cs.drop n := by
    rw [Nat.add_comm, List.drop_succ_cons]
  -- The depth counts the brackets that are open inside; those around are still open where it is 0.
  fun_induction separatorOffset (innermost opened).closing quoted depth u generalizing inner with
  | case1 quoted depth =>
    obtain ⟨hopened, rfl⟩ : inner ++ opened = [] ∧ quoted = false := by simpa [closes] using h
    obtain ⟨rfl, rfl⟩ := List.append_eq_nil_iff.mp hopened
    obtain rfl := hd
    obtain ⟨y, rest, rfl, hy⟩ := ht
    refine ⟨?_, rfl⟩
    rcases hy with rfl | rfl <;> simp [separatorOffset, innermost, Brackets.closing]
  | case2 quoted depth cs ih =>
    obtain ⟨hoff, hcl⟩ := ih (closes_escape _ _ cs ▸ h) (hnext (hnext hn)) hd
    refine ⟨?_, ?_⟩
    · rw [List.cons_append, List.cons_append, separatorOffset, hoff]
    · rw [Nat.add_comm]
      exact hcl
  | case3 => simp at hn
  | case4 quoted depth cs he hn' ih =>
    obtain ⟨hoff, hcl⟩ := ih (closes_quote _ _ cs ▸ h) (hnext hn) hd
    rw [List.cons_append, separatorOffset.eq_3 _ _ _ _ _ (ht.escape_append he), hdrop]
    exact ⟨by simp [hoff], hcl⟩
  | case5 depth x cs he hn' hq ih =>
    obtain ⟨hoff, hcl⟩ := ih (closes_quoted hq he ▸ h) (hnext hn) hd
    rw [List.cons_append, separatorOffset.eq_3 _ _ _ _ _ (ht.escape_append he), hdrop]
    exact ⟨by simp [hn', hq, hoff], hcl⟩
  | case6 quoted depth x cs he hn' hq hi ho ih =>
    obtain ⟨b, rfl⟩ : ∃ b : Brackets, x = b.opening :=
      ho.elim (fun e => ⟨.square, e⟩) fun e => ⟨.curly, e⟩
    obtain rfl := Bool.eq_false_iff.mpr hi
    have h' : closes (b :: inner ++ opened) false cs = true := closes_opening b ▸ h
    obtain ⟨hoff, hcl⟩ := ih h' (hnext hn) (by simp [hd])
    rw [List.cons_append, separatorOffset.eq_3 _ _ _ _ _ (ht.escape_append he), hdrop]
    exact ⟨by simp [hn', hq, ho, hoff], hcl⟩
  | case7 quoted depth x cs he hn' hq hi ho hc ih =>
    obtain ⟨b, rfl⟩ : ∃ b : Brackets, x = b.closing :=
      hc.1.elim (fun e => ⟨.square, e⟩) fun e => ⟨.curly, e⟩
    obtain rfl := Bool.eq_false_iff.mpr hi
    obtain ⟨b', inner, rfl⟩ := List.exists_cons_of_ne_nil (l := inner) fun e => by
      simp [e] at hd
      omega
    have h' : closes (inner ++ opened) false cs = true :=
      (Bool.and_eq_true_iff.mp (closes_closing b ▸ h)).2
    obtain ⟨hoff, hcl⟩ := ih h' (hnext hn) (by simp [← hd])
    rw [List.cons_append, separatorOffset.eq_3 _ _ _ _ _ (ht.escape_append he), if_neg hn',
      if_neg hq, if_neg hi, if_neg ho, if_pos hc, hoff, hdrop]
    exact ⟨rfl, hcl⟩
  | case8 quoted depth x cs he hn' hq hi ho hc hs =>
    obtain rfl := List.length_eq_zero_iff.mp (hd.trans hs.1)
    obtain rfl := Bool.eq_false_iff.mpr hi
    rw [List.cons_append, separatorOffset.eq_3 _ _ _ _ _ (ht.escape_append he), if_neg hn',
      if_neg hq, if_neg hi, if_neg ho, if_neg hc, if_pos hs]
    exact ⟨rfl, h⟩
  | case9 quoted depth x cs he hn' hq hi ho hc hs ih =>
    obtain rfl := Bool.eq_false_iff.mpr hi
    have hcs := closes_passed h hq ho (hd ▸ hc) (hd ▸ hs)
    obtain ⟨hoff, hcl⟩ := ih hcs (hnext hn) hd
    rw [List.cons_append, separatorOffset.eq_3 _ _ _ _ _ (ht.escape_append he), if_neg hn',
      if_neg hq, if_neg hi, if_neg ho, if_neg hc, if_neg hs, hoff, hdrop]
    exact ⟨rfl, hcl⟩

end BedrockCommand
