import BedrockCommand.Grammar.Json
import BedrockCommand.Proofs.Json.Exact
import BedrockCommand.Proofs.Rule.Append
/-!
Arrays, objects and values are exact: lists by induction on their elements, values by induction on
how deep they nest.
-/
namespace BedrockCommand

open Phrase Step

variable {P : Phrase} {f next : Cursor → Step} {b : Brackets} {c d e : Cursor}
  {ls ms : List JsonLeaf} {fuel : Nat}

theorem Brackets.closing_mem (b : Brackets) : b.closing ∈ [' ', ']', '\x7d'] := by
  cases b <;> decide

/-! ## Phrases that begin and end properly -/

namespace Phrase

theorem Proper.head?_ne (h : P.Proper) (hp : P c ls d) : c.rest.head? ≠ some ' ' :=
  fun hx => h.starts hp ' ' hx (List.mem_cons_self ..)

theorem Proper.isAt_closing (h : P.Proper) (hp : P c ls d) (b : Brackets) :
    c.isAt b.closing = false := by
  refine Bool.eq_false_iff.mpr fun hat => ?_
  obtain ⟨rest, hr⟩ := Cursor.isAt_iff.mp hat
  exact h.starts hp b.closing (by rw [hr]; rfl) b.closing_mem

theorem Proper.commas (h : P.Proper) : (commas P).Proper where
  starts hp := by
    cases hp with
    | one hp | more hp => exact h.starts hp
  suffix hp := by
    induction hp with
    | one hp => exact h.suffix hp
    | more hp hx _ ih => exact ih.trans (hx.suffix.trans (h.suffix hp))

theorem Proper.container (h : P.Proper) (b : Brackets) : (container b P).Proper where
  starts hp := by
    have hopening : b.opening ∉ [' ', ']', '\x7d'] := by cases b <;> decide
    cases hp with
    | empty ho | full ho =>
      obtain ⟨rest, hr, -⟩ := ho.rest
      rw [hr]
      exact fun x hx => Option.some.inj hx ▸ hopening
  suffix hp := by
    cases hp with
    | empty ho hc => exact hc.suffix.trans ho.suffix
    | full ho hp hc => exact hc.suffix.trans ((h.commas.suffix hp).trans ho.suffix)

theorem Proper.member (h : P.Proper) : (member P).Proper where
  starts hp := by
    obtain ⟨hk, -, -⟩ := hp
    exact (proper_leaf (properTexts_text (by decide))).starts hk
  suffix hp := by
    obtain ⟨hk, hx, hp⟩ := hp
    exact (h.suffix hp).trans
      (hx.suffix.trans ((proper_leaf (properTexts_text (by decide))).suffix hk))

end Phrase

/-! ## Lists -/

theorem gives_close (hc : Symbol b.closing c d) (hd : d.rest.head? ≠ some ' ') :
    (Step.close c).Gives [] d := by
  rw [Step.close, hc.spaces.eq_skipSpaces hd]
  exact .done d

theorem afterElement_sound (h : (afterElement b next (fuel + 1) c).Clean) :
    (∃ d, Symbol b.closing c d ∧ (afterElement b next (fuel + 1) c).Gives [] d) ∨
      c.isAt ',' = true ∧ (next c.advance).Clean ∧
        afterElement b next (fuel + 1) c = next c.advance := by
  unfold afterElement at h ⊢
  split at h
  · next hc =>
    rw [if_pos hc]
    exact .inl ⟨_, .of_isAt hc, .done _⟩
  · next hc =>
    rw [if_neg hc]
    split at h
    · next hcomma =>
      rw [if_pos hcomma]
      split at h
      · exact absurd h.left (not_clean_error _ _ _)
      · next ht =>
        rw [if_neg ht]
        exact .inr ⟨hcomma, h, rfl⟩
    · split at h
      · exact absurd h.left (not_clean_error _ _ _)
      · exact absurd h.left (not_clean_error _ _ _)

theorem afterElement_close (hc : Symbol b.closing c d) (hd : d.rest.head? ≠ some ' ') :
    (afterElement b next (fuel + 1) c).Gives [] d := by
  unfold afterElement
  rw [if_pos hc.isAt]
  exact gives_close hc hd

/-- A comma in front of something that is neither a space nor a closing bracket. -/
theorem afterElement_comma (hx : Symbol ',' c d) (hd : d.rest.head? ≠ some ' ')
    (hc : d.isAt b.closing = false) : afterElement b next (fuel + 1) c = next c.advance := by
  have hclosing : c.isAt b.closing = false :=
    Cursor.isAt_eq_false hx.isAt b.closing_ne_comma.symm
  have htrailing : isTrailing b.closing c = false := by
    rw [isTrailing, hx.spaces.eq_skipSpaces hd, hc]
  unfold afterElement
  simp only [hclosing, hx.isAt, htrailing, Bool.false_eq_true, if_false, if_true]

theorem elements_sound (h : P.Exact f) (hc : (elements b f fuel c).Clean) :
    ∃ ls d e, commas P c.skipSpaces ls d ∧ Symbol b.closing d e ∧
      (elements b f fuel c).Gives ls e := by
  induction fuel generalizing c with
  | zero => exact absurd hc (not_clean_fail _ _)
  | succ fuel ih =>
    unfold elements at hc ⊢
    simp only at hc ⊢
    have hs : (f c.skipSpaces).Clean := by
      split at hc
      · exact hc
      · exact hc.left.of_settle
    obtain ⟨ls, d, hp, hg⟩ := h.sound hs
    rw [if_neg (by simp [hg.outcome]), hg.settle] at hc ⊢
    have hafter := hc.right hg.outcome
    rw [hg.cursor] at hafter
    rcases afterElement_sound hafter with ⟨e, hclose, hge⟩ | ⟨hcomma, hnext, heq⟩
    · refine ⟨ls, d, e, .one hp, hclose, ?_⟩
      exact List.append_nil ls ▸ hg.andThen hge
    · obtain ⟨ms, d', e, ht, hclose, hge⟩ := ih hnext
      exact ⟨_, d', e, .more hp (.of_isAt hcomma) ht, hclose, hg.andThen (heq ▸ hge)⟩

theorem elements_complete (h : P.Exact f) {c₀ : Cursor} (hs : Spaces c₀ c)
    (hp : commas P c ls d) (hc : Symbol b.closing d e) (hn : '\n' ∉ c.rest)
    (he : e.rest.head? ≠ some ' ') (hf : c.rest.length < fuel) :
    (elements b f fuel c₀).Gives ls e := by
  induction hp generalizing c₀ fuel with
  | @one c d ls hp =>
    obtain _ | fuel := fuel
    · omega
    have hg := h.complete hp hn hc.stops_closing
    unfold elements
    simp only [hs.eq_skipSpaces (h.head?_ne hp)]
    rw [if_neg (by simp [hg.outcome]), hg.settle]
    exact List.append_nil ls ▸ hg.andThen (afterElement_close hc he)
  | @more c d c' f' ls ms hp hx ht ih =>
    obtain _ | fuel := fuel
    · omega
    have hg := h.complete hp hn (hx.stops (by decide))
    have hle := (h.suffix hp).length_le
    have hlt := hx.length_lt
    have hrest : ∀ {cs : List Char}, cs <:+ c.rest → '\n' ∉ cs := fun hcs hmem =>
      hn (hcs.subset hmem)
    unfold elements
    simp only [hs.eq_skipSpaces (h.head?_ne hp)]
    rw [if_neg (by simp [hg.outcome]), hg.settle]
    refine hg.andThen ?_
    rw [afterElement_comma hx (h.commas.head?_ne ht) (h.commas.isAt_closing ht b)]
    exact ih hx.spaces hc (hrest (hx.suffix.trans (h.suffix hp))) (by omega)

theorem list_sound (h : P.Exact f) (hc : (list b true f c).Clean) :
    ∃ ls d, container b P c ls d ∧ (list b true f c).Gives ls d := by
  unfold list at hc ⊢
  split at hc
  · exact absurd hc.left (not_clean_error _ _ _)
  · next ho =>
    have hopen : c.isAt b.opening = true := by simpa using ho
    rw [if_neg ho]
    dsimp only at hc ⊢
    split at hc
    · next hclose =>
      rw [if_pos hclose]
      exact ⟨_, _, .empty (.of_isAt hopen) (.of_isAt hclose), .done _⟩
    · next hclose =>
      rw [if_neg hclose]
      obtain ⟨ls, d, e, hp, hclosing, hg⟩ := elements_sound h hc
      rw [Cursor.skipSpaces_skipSpaces] at hp
      exact ⟨ls, e, .full (.of_isAt hopen) hp hclosing, hg⟩

theorem list_complete (h : P.Exact f) (hp : container b P c ls d) (hn : '\n' ∉ c.rest)
    (hd : d.rest.head? ≠ some ' ') : (list b true f c).Gives ls d := by
  cases hp with
  | @empty _ d' _ ho hc =>
    have hspace : d'.rest.head? ≠ some ' ' := hc.stops_closing.head?
    unfold list
    simp only [ho.isAt, ho.spaces.eq_skipSpaces hspace, hc.isAt, Bool.not_true, Bool.false_eq_true,
      if_false, if_true]
    exact gives_close hc hd
  | @full _ d' e _ _ ho hp hc =>
    have hn' : '\n' ∉ d'.rest := fun hmem => hn (ho.suffix.subset hmem)
    have hlength : d'.rest.length < d'.line.length + 1 := by
      rw [Cursor.line_eq_rest hn']
      exact Nat.lt_succ_self _
    unfold list
    simp only [ho.isAt, ho.spaces.eq_skipSpaces (h.commas.head?_ne hp),
      h.commas.isAt_closing hp b, Bool.not_true, Bool.false_eq_true, if_false]
    exact elements_complete h (.nil _) hp hc hn' hd hlength

/-- A list in brackets, which may be empty, and nothing after it. -/
theorem exact_list {item : Rule} {env : Env} (h : P.Exact (item.run env)) (b : Brackets) :
    (container b P).Exact ((Rule.list b true item fun _ => .done).run env) := by
  have hrun (c : Cursor) : (Rule.list b true item fun _ => .done).run env c =
      (list b true (item.run env) c).unmarked := andThen_eq_self rfl
  refine ⟨h.container b, fun {c} hc => ?_, fun {c d ls} hp hn hd => ?_⟩
  · rw [hrun] at hc ⊢
    obtain ⟨ls, d, hp, hg⟩ := list_sound h ⟨hc.faultless, hc.only⟩
    exact ⟨ls, d, hp, hg.unmarked⟩
  · rw [hrun]
    exact (list_complete h hp hn hd.space).unmarked

/-! ## Entries -/

theorem gives_expect {x : Char} (hx : Symbol x c d) (hd : d.rest.head? ≠ some ' ') :
    (expect x c).Gives [] d := by
  rw [expect, Reader.symbol_apply, if_pos hx.isAt, hx.spaces.eq_skipSpaces hd]
  exact .done d

theorem expect_sound {x : Char} (h : (expect x c).Clean) :
    ∃ d, Symbol x c d ∧ (expect x c).Gives [] d := by
  cases hat : c.isAt x with
  | true => exact ⟨_, .of_isAt hat, gives_expect (.of_isAt hat) (Cursor.head?_skipSpaces _)⟩
  | false =>
    rw [expect, Reader.symbol_apply, if_neg (by simp [hat])] at h
    exact absurd h.left (not_clean_error _ _ _)

theorem properTexts_key : ProperTexts (Text .option) := properTexts_text (by decide)

/-- A key, a colon and what a rule for the value reads. -/
theorem exact_member {item : Rule} {env : Env} (h : P.Exact (item.run env)) :
    (member P).Exact ((Rule.read .quotedKey fun _ => .expect ':' item).run env) where
  toProper := h.member
  sound {c} hc := by
    obtain ⟨l, x, d, hk, hnext, hgives⟩ :=
      leaf_sound Argument.readsLeaf_quotedKey properTexts_key hc
    obtain ⟨e, hx, hcolon⟩ := expect_sound hnext.left
    have hitem := hnext.right hcolon.outcome
    rw [hcolon.cursor] at hitem
    obtain ⟨ls, f, hp, hg⟩ := h.sound hitem
    exact ⟨_, f, .intro hk hx hp, hgives (hcolon.andThen hg)⟩
  completes := by
    rintro c f _ ⟨hk, hx, hp⟩ hn hf
    have hstops := (hx.stops (by decide)).breaksAt c
    have hkey := (proper_leaf properTexts_key).suffix hk
    obtain ⟨l, x, rfl, hgives⟩ :=
      leaf_complete Argument.readsLeaf_quotedKey properTexts_key hk hn hstops
    exact hgives ((gives_expect hx (h.head?_ne hp)).andThen
      (h.completes hp (fun hmem => hn ((hx.suffix.trans hkey).subset hmem))
        (hf.after_colon hkey hx)))

theorem exact_array {item : Rule} {env : Env} (h : P.Exact (item.run env)) :
    (array P).Exact ((Rule.jsonArray item).run env) :=
  exact_list h .square

theorem exact_object {item : Rule} {env : Env} (h : P.Exact (item.run env)) :
    (object P).Exact ((Rule.jsonObject item).run env) :=
  exact_list (exact_member h) .curly

/-! ## Values -/

/-- Nothing stands where no value may nest any more. -/
theorem exact_never (env : Env) : never.Exact (Rule.jsonTooDeep.run env) where
  starts h := h.elim
  suffix h := h.elim
  sound hc := absurd (Clean.left (Clean.right hc rfl)) (not_clean_error _ _ _)
  completes h := h.elim

namespace Phrase

/-- Phrases of which every one begins with a character that passes a test. -/
def Begins (P : Phrase) (p : Char → Bool) : Prop :=
  ∀ c ls d, P c ls d → ∃ x, c.rest.head? = some x ∧ p x = true

def either (P Q : Phrase) : Phrase :=
  fun c ls d => P c ls d ∨ Q c ls d

theorem Begins.either {Q : Phrase} {p q : Char → Bool} (hP : P.Begins p) (hQ : Q.Begins q) :
    (either P Q).Begins fun x => p x || q x := by
  rintro c ls d (h | h)
  · obtain ⟨x, hx, hp⟩ := hP c ls d h
    exact ⟨x, hx, by simp [hp]⟩
  · obtain ⟨x, hx, hq⟩ := hQ c ls d h
    exact ⟨x, hx, by simp [hq]⟩

theorem begins_text {kind : TokenKind} : (leaf (Text kind)).Begins (· = '"') := by
  rintro _ _ _ ⟨⟨⟨-⟩⟩, -⟩
  exact ⟨'"', rfl, by decide⟩

def startsNumber (x : Char) : Bool :=
  x = '-' || x.isDigit

theorem begins_number : (leaf Number).Begins startsNumber := by
  rintro _ _ _ ⟨⟨⟨negative, h⟩⟩, -⟩
  cases negative with
  | true => exact ⟨'-', rfl, by decide⟩
  | false =>
    obtain ⟨x, ds, rfl, hx⟩ := h.head
    exact ⟨x, rfl, by rw [startsNumber, hx, Bool.or_true]⟩

theorem begins_constant {dialect : JsonDialect} :
    (leaf (Constant dialect)).Begins (['t', 'f', 'n'].contains ·) := by
  rintro _ _ _ ⟨_ | _ | _, -⟩
  · exact ⟨'t', rfl, by decide⟩
  · exact ⟨'f', rfl, by decide⟩
  · exact ⟨'n', rfl, by decide⟩

theorem begins_container : (container b P).Begins (· = b.opening) := by
  rintro c ls d (⟨ho, -⟩ | ⟨ho, -, -⟩)
  all_goals
    obtain ⟨rest, hr, -⟩ := ho.rest
    exact ⟨b.opening, by rw [hr]; rfl, by simp⟩

theorem begins_never (p : Char → Bool) : never.Begins p := fun _ _ _ h => h.elim

end Phrase

/-- One phrase or another, told by the first character. -/
theorem exact_look {env : Env} {q : Look} {yes no : Rule} {Q : Phrase} {p r s : Char → Bool}
    (hq : ∀ {c x}, c.rest.head? = some x → q.holds c = p x) (hP : P.Begins r) (hQ : Q.Begins s)
    (hr : ∀ x, r x = true → p x = true) (hs : ∀ x, s x = true → p x = false)
    (hyes : P.Exact (yes.run env)) (hno : Q.Exact (no.run env)) :
    (either P Q).Exact ((Rule.look q yes no).run env) := by
  refine ⟨⟨fun h => h.elim hyes.starts hno.starts, fun h => h.elim hyes.suffix hno.suffix⟩,
    fun {c} hc => ?_, fun {c d ls} hp hn hd => ?_⟩
  · rw [Rule.run_look] at hc ⊢
    split at hc
    · next h =>
      rw [if_pos h]
      obtain ⟨ls, d, hp, hg⟩ := hyes.sound hc
      exact ⟨ls, d, .inl hp, hg⟩
    · next h =>
      rw [if_neg h]
      obtain ⟨ls, d, hp, hg⟩ := hno.sound hc
      exact ⟨ls, d, .inr hp, hg⟩
  · rw [Rule.run_look]
    rcases hp with hp | hp
    · obtain ⟨x, hx, hb⟩ := hP c ls d hp
      rw [if_pos (by rw [hq hx, hr x hb])]
      exact hyes.completes hp hn hd
    · obtain ⟨x, hx, hb⟩ := hQ c ls d hp
      rw [if_neg (by rw [hq hx, hs x hb]; exact Bool.false_ne_true)]
      exact hno.completes hp hn hd

theorem holds_char (y : Char) {c : Cursor} {x : Char} (h : c.rest.head? = some x) :
    (Look.char y).holds c = decide (x = y) := by
  obtain ⟨_ | ⟨z, rest⟩, p⟩ := c
  · simp at h
  · obtain rfl : z = x := by simpa using h
    rfl

theorem holds_jsonNumber {x : Char} (h : c.rest.head? = some x) :
    Look.jsonNumber.holds c = startsNumber x := by
  show (c.isAt '-' || c.rest.head?.any Char.isDigit) = _
  rw [show c.isAt '-' = _ from holds_char '-' h, h]
  rfl

/-- A value is told by its first character. -/
theorem exact_choice {env : Env} {dialect : JsonDialect} {A O : Phrase} {array object : Rule}
    (ha : A.Exact (array.run env)) (hA : A.Begins (· = '['))
    (ho : O.Exact (object.run env)) (hO : O.Begins (· = '\x7b')) :
    (choice dialect A O).Exact ((Rule.jsonValueWith dialect array object).run env) := by
  have hchoice : choice dialect A O = either (leaf (Text .string))
      (either (leaf Number) (either A (either O (leaf (Constant dialect))))) := by
    funext c ls d
    refine propext ⟨?_, ?_⟩
    · rintro (h | h | h | h | h)
      exacts [.inl h, .inr (.inl h), .inr (.inr (.inr (.inr h))), .inr (.inr (.inl h)),
        .inr (.inr (.inr (.inl h)))]
    · rintro (h | h | h | h | h)
      exacts [.string h, .number h, .array h, .object h, .constant h]
  rw [hchoice]
  refine exact_look (holds_char '"') begins_text
    (begins_number.either (hA.either (hO.either begins_constant))) (fun _ => id) ?_
    (exact_leaf Argument.readsLeaf_quoted (properTexts_text (by decide)) env) <|
    exact_look holds_jsonNumber begins_number (hA.either (hO.either begins_constant))
      (fun _ => id) ?_ (exact_leaf Argument.readsLeaf_jsonNumber properTexts_number env) <|
    exact_look (holds_char '[') hA (hO.either begins_constant) (fun _ => id) ?_ ha <|
    exact_look (holds_char '\x7b') hO begins_constant (fun _ => id) ?_ ho (exact_constant env)
  -- No character that one of them begins with begins another one.
  all_goals
    intro x
    contrapose!
    simp
  case refine_2 =>
    intro h
    refine ⟨?_, ?_, ?_, ?_, ?_⟩ <;> rintro rfl <;> exact absurd h (by decide)
  all_goals
    rintro rfl
    decide

theorem exact_value (env : Env) (dialect : JsonDialect) (depth : Nat) :
    (value dialect depth).Exact ((Rule.jsonValue dialect depth).run env) := by
  induction depth with
  | zero => exact exact_choice (exact_never env) (begins_never _) (exact_never env) (begins_never _)
  | succ depth ih =>
    exact exact_choice (exact_array ih) begins_container (exact_object ih) begins_container

end BedrockCommand
