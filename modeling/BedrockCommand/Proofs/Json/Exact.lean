import BedrockCommand.Proofs.Json.Scalar
import BedrockCommand.Proofs.Rule.Only
/-!
Steps that read phrases. A step is exact for a phrase if it reports no error where the phrase
stands in the text, and an error where it does not.
-/
namespace BedrockCommand

def Event.leaf? : Event → Option JsonLeaf
  | .token t => some t.leaf
  | _ => none

def Event.IsClean : Event → Prop
  | .token t => t.kind ≠ .error
  | _ => True

namespace Step

/-- A step that does not fail and reports no error. -/
structure Clean (s : Step) : Prop where
  faultless : ∀ f, s.outcome ≠ .failed f
  only : s.Only Event.IsClean

/-- A step that is done at a cursor, with some leaves and no error. -/
structure Gives (s : Step) (ls : List JsonLeaf) (d : Cursor) : Prop where
  outcome : s.outcome = .done
  leaves : s.events.filterMap Event.leaf? = ls
  only : s.Only Event.IsClean
  cursor : s.cursor = d

variable {s : Step} {f : Cursor → Step} {c d e : Cursor} {ls ms : List JsonLeaf}

namespace Clean

theorem left (h : (s.andThen f).Clean) : s.Clean where
  faultless g hg := h.faultless g (by rw [andThen_of_ne_done (by simp [hg]), hg])
  only := h.only.left

theorem right (h : (s.andThen f).Clean) (hd : s.outcome = .done) : (f s.cursor).Clean where
  faultless g hg := h.faultless g (by simp only [andThen, hd, hg])
  only := h.only.right hd

theorem of_settle (h : s.settle.Clean) : s.Clean where
  faultless g hg := h.faultless g (by simp only [settle, hg])
  only := fun e he => h.only e (by rwa [events_settle])

end Clean

theorem not_clean_token (value : TokenValue) (w : Option WarningKind) (c d : Cursor) :
    ¬ (token (some .error) value w c d).Clean := by
  intro h
  unfold token at h
  split at h
  · exact h.faultless _ rfl
  · next hk _ => simp at hk
  · next hk _ =>
    obtain rfl := Option.some.inj hk
    exact h.only _ (List.mem_cons_self ..) rfl

theorem not_clean_error (err : SyntaxError) (c d : Cursor) : ¬ (error err c d).Clean :=
  not_clean_token _ _ c d

theorem not_clean_fail (fault : Fault) (c : Cursor) : ¬ (fail fault c).Clean :=
  fun h => h.faultless fault rfl

namespace Gives

theorem done (d : Cursor) : (Step.done d).Gives [] d :=
  ⟨rfl, rfl, .done d, rfl⟩

theorem andThen (h : s.Gives ls d) (h' : (f d).Gives ms e) : (s.andThen f).Gives (ls ++ ms) e := by
  obtain rfl := h.cursor
  have heq : s.andThen f = { f s.cursor with
      events := s.events ++ (f s.cursor).events, marks := s.marks ++ (f s.cursor).marks } := by
    simp only [Step.andThen, h.outcome]
  refine ⟨by rw [heq, h'.outcome], ?_, ?_, by rw [heq, h'.cursor]⟩
  · rw [heq, List.filterMap_append, h.leaves, h'.leaves]
  · rw [heq]
    exact fun e he => (List.mem_append.mp he).elim (h.only e) (h'.only e)

theorem settle (h : s.Gives ls d) : s.settle = s := by
  simp only [Step.settle, h.outcome]

theorem unmarked (h : s.Gives ls d) : s.unmarked.Gives ls d :=
  ⟨h.outcome, h.leaves, h.only, h.cursor⟩

theorem token {kind : TokenKind} (hk : kind ≠ .error) (value : TokenValue)
    (h : c.position ≤ d.position) :
    (Step.token (some kind) value none c d).Gives [⟨kind, value, c.position⟩] d := by
  have hspan : Span.between c.position d.position = .ok ⟨c.position, d.position⟩ := by
    rw [Span.between, if_neg (Position.not_lt_of_le h)]
  simp only [Step.token, hspan]
  exact ⟨rfl, rfl, by simpa [Step.Only, warningEvents, Event.IsClean] using hk, rfl⟩

theorem argument {a : Argument} {kind : TokenKind} {value : TokenValue} {x : a.Answer}
    {next : a.Answer → Cursor → Step} (hk : kind ≠ .error)
    (hr : a.read c = .accept kind value x d) (h : c.position ≤ d.position)
    (hn : (next x d).Gives ls e) :
    (Step.argument a c next).Gives (⟨kind, value, c.position⟩ :: ls) e := by
  unfold Step.argument
  simp only [hr, Reading.accept]
  have hthen := (Gives.token hk value h).andThen hn
  exact hthen

end Gives
end Step

/-- Whether the text ends at a cursor or goes on with what may stand behind a value or a key. -/
def Cursor.Stops (d : Cursor) : Prop :=
  ∀ x ∈ d.rest.head?, x ∈ [',', ':', ']', '\x7d']

/-- Whether the text in front of a cursor ends there: neither does a space follow it, nor anything
that would go on with a number or a name at its end. -/
structure Cursor.BreaksAt (c d : Cursor) : Prop where
  space : d.rest.head? ≠ some ' '
  parted : ∀ cs, c.rest = cs ++ d.rest → Reader.Parted cs d.rest

namespace Phrase

variable {c d e : Cursor} {ls : List JsonLeaf} {x : Char} {b : Brackets} {P : Phrase}

/-! ## Where phrases begin and end -/

theorem Symbol.rest (h : Symbol x c d) : ∃ rest, c.rest = x :: rest ∧
    Spaces ⟨rest, c.position.next x⟩ d := by
  cases h with
  | intro h => exact ⟨_, rfl, h⟩

theorem Symbol.spaces (h : Symbol x c d) : Spaces c.advance d := by
  obtain ⟨rest, hr, hs⟩ := h.rest
  rwa [Cursor.advance_of_rest hr]

theorem Symbol.isAt (h : Symbol x c d) : c.isAt x = true := by
  obtain ⟨rest, hr, -⟩ := h.rest
  exact Cursor.isAt_iff.mpr ⟨rest, hr⟩

theorem Symbol.of_isAt (h : c.isAt x = true) : Symbol x c c.advance.skipSpaces := by
  obtain ⟨rest, p⟩ := c
  obtain ⟨rest, rfl⟩ := Cursor.isAt_iff.mp h
  rw [Cursor.advance_of_rest rfl]
  exact .intro (.skipSpaces _)

theorem Symbol.length_lt (h : Symbol x c d) : d.rest.length < c.rest.length := by
  obtain ⟨rest, hr, hs⟩ := h.rest
  have := hs.suffix.length_le
  simp only [hr, List.length_cons] at this ⊢
  omega

theorem Symbol.suffix (h : Symbol x c d) : d.rest <:+ c.rest := by
  obtain ⟨rest, hr, hs⟩ := h.rest
  rw [hr]
  exact hs.suffix.trans (List.suffix_cons ..)

theorem Symbol.stops (h : Symbol x c d) (hx : x ∈ [',', ':', ']', '\x7d']) : c.Stops := by
  obtain ⟨rest, hr, -⟩ := h.rest
  intro y hy
  rw [hr] at hy
  exact Option.some.inj hy ▸ hx

theorem Symbol.stops_closing (h : Symbol b.closing c d) : c.Stops :=
  h.stops (by cases b <;> decide)

end Phrase

theorem Cursor.Stops.head? {d : Cursor} (h : d.Stops) : d.rest.head? ≠ some ' ' :=
  fun hs => absurd (h ' ' hs) (by decide)

theorem Cursor.Stops.breaksAt {d : Cursor} (h : d.Stops) (c : Cursor) : c.BreaksAt d where
  space := h.head?
  parted cs _ := by
    have hstops : ∀ x ∈ [',', ':', ']', '\x7d'], x.isAlphanum = false ∧ x ≠ '.' := by
      simp only [List.forall_mem_cons, List.not_mem_nil, false_implies, implies_true, and_true]
      decide
    exact Reader.Delimited.parted (fun x hx => hstops x (h x hx)) cs

namespace Cursor.BreaksAt

variable {c d e f : Cursor}

theorem of_append {ds : List Char} (h : c.BreaksAt e) (hc : c.rest = ds ++ d.rest)
    (hds : ∀ y ∈ ds.getLast?, y ≠ '.' ∧ y.isDigit = false) : d.BreaksAt e where
  space := h.space
  parted cs hcs := (h.parted (ds ++ cs) (by rw [hc, hcs, List.append_assoc])).of_append hds

theorem after_spaces (h : c.BreaksAt e) (hs : Phrase.Spaces c d) : d.BreaksAt e := by
  obtain ⟨n, hpast⟩ := hs.exists_spaces
  refine h.of_append hpast.1 fun y hy => ?_
  rw [List.eq_of_mem_replicate (List.mem_of_getLast? hy)]
  decide

theorem after_colon (h : c.BreaksAt f) (hs : d.rest <:+ c.rest) (hx : Phrase.Symbol ':' d e) :
    e.BreaksAt f := by
  obtain ⟨ds, hds⟩ := hs
  obtain ⟨rest, hr, hspaces⟩ := hx.rest
  have hc : c.rest = ds ++ [':'] ++ rest := by
    rw [← hds, hr, List.append_assoc, List.singleton_append]
  have hcolon : (Cursor.mk rest (d.position.next ':')).BreaksAt f := h.of_append hc (by simp)
  exact hcolon.after_spaces hspaces

end Cursor.BreaksAt

open Phrase Step

/-- A phrase that does not begin with a space or a closing bracket, and that moves on. -/
structure Phrase.Proper (P : Phrase) : Prop where
  starts : ∀ {c d ls}, P c ls d → ∀ x ∈ c.rest.head?, x ∉ [' ', ']', '\x7d']
  suffix : ∀ {c d ls}, P c ls d → d.rest <:+ c.rest

/-- A step that reads a phrase: without an error it gives the leaves of a phrase, and where a
phrase stands it gives the leaves of it. -/
structure Phrase.Exact (P : Phrase) (f : Cursor → Step) : Prop extends P.Proper where
  sound : ∀ {c}, (f c).Clean → ∃ ls d, P c ls d ∧ (f c).Gives ls d
  completes : ∀ {c d ls}, P c ls d → '\n' ∉ c.rest → c.BreaksAt d → (f c).Gives ls d

theorem Phrase.Exact.complete {P : Phrase} {f : Cursor → Step} (h : P.Exact f) {c d : Cursor}
    {ls : List JsonLeaf} (hp : P c ls d) (hn : '\n' ∉ c.rest) (hd : d.Stops) : (f c).Gives ls d :=
  h.completes hp hn (hd.breaksAt c)

/-! ## Leaves -/

/-- Texts of leaves, which are no errors, and which do not begin with a space or a closing
bracket. -/
structure ProperTexts (writes : List Char → TokenKind → TokenValue → Prop) : Prop where
  kind : ∀ {cs kind value}, writes cs kind value → kind ≠ .error
  starts : ∀ {cs kind value}, writes cs kind value →
    ∃ x ds, cs = x :: ds ∧ x ∉ [' ', ']', '\x7d']

theorem properTexts_text {kind : TokenKind} (hk : kind ≠ .error) : ProperTexts (Text kind) where
  kind := by
    rintro _ _ _ ⟨-⟩
    exact hk
  starts := by
    rintro _ _ _ ⟨⟨-⟩⟩
    exact ⟨'"', _, rfl, by decide⟩

theorem properTexts_number : ProperTexts Number where
  kind := by
    rintro _ _ _ ⟨-⟩
    decide
  starts := by
    rintro _ _ _ ⟨⟨negative, h⟩⟩
    cases negative with
    | true => exact ⟨'-', _, rfl, by decide⟩
    | false =>
      obtain ⟨x, ds, rfl, hx⟩ := h.head
      refine ⟨x, ds, rfl, fun hmem => ?_⟩
      simp only [List.mem_cons, List.not_mem_nil, or_false] at hmem
      rcases hmem with rfl | rfl | rfl <;> exact absurd hx (by decide)

theorem properTexts_constant {dialect : JsonDialect} : ProperTexts (Constant dialect) where
  kind := by
    rintro _ _ _ (_ | _ | _) <;> decide
  starts := by
    rintro _ _ _ (_ | _ | _)
    · exact ⟨'t', _, rfl, by decide⟩
    · exact ⟨'f', _, rfl, by decide⟩
    · exact ⟨'n', _, rfl, by decide⟩

section

variable {writes : List Char → TokenKind → TokenValue → Prop} {c d : Cursor} {ls : List JsonLeaf}

theorem proper_leaf (hw : ProperTexts writes) : (leaf writes).Proper where
  starts := by
    rintro _ _ _ ⟨h, -⟩ y hy
    obtain ⟨x, ds, rfl, hx⟩ := hw.starts h
    exact Option.some.inj hy ▸ hx
  suffix := by
    rintro _ _ _ ⟨-, hs⟩
    exact hs.suffix.trans (List.suffix_append ..)

/-- Spaces may follow a number or a name, and then what may follow it without them. -/
theorem parted_of_spaces {cs rest : List Char} {p q : Position} (hs : Spaces ⟨rest, q⟩ d)
    (hd : Cursor.BreaksAt ⟨cs ++ rest, p⟩ d) : Reader.Parted cs rest := by
  rcases hs.head? with rfl | hspace
  · exact hd.parted cs rfl
  · refine Reader.Delimited.parted (fun x hx => ?_) cs
    obtain rfl : ' ' = x := Option.some.inj (hspace.symm.trans hx)
    decide

theorem position_le_skipSpaces {cs : List Char} {e : Cursor} (h : c.Past cs e) :
    c.position ≤ e.skipSpaces.position :=
  Position.le_trans (h.2 ▸ c.position.le_after cs) e.ahead_skipSpaces.position_le

variable {a : Argument} {next : a.Answer → Cursor → Step}

theorem leaf_sound (ha : a.ReadsLeaf writes) (hw : ProperTexts writes)
    (h : (argument a c next).Clean) : ∃ l x d, leaf writes c [l] d ∧ (next x d).Clean ∧
      ∀ {ms e}, (next x d).Gives ms e → (argument a c next).Gives (l :: ms) e := by
  have hkind : (a.read c).kind ≠ some .error := by
    intro hk
    unfold argument at h
    simp only [hk] at h
    exact not_clean_token _ _ _ _ h.left
  obtain ⟨cs, e, kind, value, x, hcs, hpast, hr⟩ := ha.sound hkind
  have hle := position_le_skipSpaces hpast
  have htoken := Gives.token (hw.kind hcs) value hle
  obtain ⟨hc, he⟩ := hpast.cases
  refine ⟨⟨kind, value, c.position⟩, x, e.skipSpaces, ?_, ?_,
    fun hn => .argument (hw.kind hcs) hr hle hn⟩
  · rw [hc, he]
    exact .intro hcs (.skipSpaces _)
  · unfold argument at h
    simp only [hr, Reading.accept] at h
    have := h.right htoken.outcome
    simpa only [htoken.cursor] using this

theorem leaf_complete (ha : a.ReadsLeaf writes) (hw : ProperTexts writes) (h : leaf writes c ls d)
    (hn : '\n' ∉ c.rest) (hd : c.BreaksAt d) : ∃ l x, ls = [l] ∧
      ∀ {ms e}, (next x d).Gives ms e → (argument a c next).Gives (l :: ms) e := by
  obtain @⟨cs, rest, p, kind, value, _, hcs, hs⟩ := h
  have hn : '\n' ∉ cs := fun h => hn (List.mem_append_left _ h)
  obtain ⟨x, hr⟩ := ha.complete hcs hn (parted_of_spaces hs hd) p
  have hle := position_le_skipSpaces (@Cursor.Past.intro cs rest p)
  rw [hs.eq_skipSpaces hd.space] at hr hle
  exact ⟨_, x, rfl, fun hnext => .argument (hw.kind hcs) hr hle hnext⟩

theorem exact_leaf (ha : a.ReadsLeaf writes) (hw : ProperTexts writes) (env : Env) :
    (leaf writes).Exact ((Rule.argument a).run env) where
  toProper := proper_leaf hw
  sound h := by
    obtain ⟨l, x, d, hl, -, hgives⟩ := leaf_sound ha hw h
    exact ⟨_, _, hl, hgives (.done d)⟩
  completes h hn hd := by
    obtain ⟨l, x, rfl, hgives⟩ := leaf_complete ha hw h hn hd
    exact hgives (.done _)

end

/-! ## Constants -/

theorem Rule.run_look (env : Env) (q : Look) (yes no : Rule) (c : Cursor) :
    (Rule.look q yes no).run env c = if q.holds c then yes.run env c else no.run env c := rfl

section

variable {dialect : JsonDialect} {names : List String} {w : String} {c d : Cursor} (env : Env)

theorem exists_constant (h : w ∈ dialect.constants) :
    ∃ kind value, Constant dialect w.toList kind value := by
  cases dialect <;>
    simp only [JsonDialect.constants, List.mem_cons, List.not_mem_nil, or_false] at h
  case strict =>
    rcases h with rfl | rfl
    exacts [⟨_, _, .true⟩, ⟨_, _, .false⟩]
  case withNull =>
    rcases h with rfl | rfl | rfl
    exacts [⟨_, _, .true⟩, ⟨_, _, .false⟩, ⟨_, _, .null rfl⟩]

theorem constant_last {cs : List Char} {kind : TokenKind} {value : TokenValue}
    (h : Constant dialect cs kind value) : ∃ y ∈ cs.getLast?, y.isAlpha = true := by
  cases h with
  | true => exact ⟨'e', rfl, by decide⟩
  | false => exact ⟨'e', rfl, by decide⟩
  | null => exact ⟨'l', rfl, by decide⟩

/-- What the grammar has for a name is what the argument for it becomes. -/
theorem exists_name {cs : List Char} {kind : TokenKind} {value : TokenValue}
    (h : Constant dialect cs kind value) : ∃ w ∈ dialect.constants, cs = w.toList ∧
      cs.all Char.isAlphanum = true ∧
      ∀ c, (Argument.jsonConstant w).read c = .accept kind value () (c.skip w.length) := by
  cases h with
  | true => exact ⟨"true", by cases dialect <;> decide, rfl, rfl, fun _ => rfl⟩
  | false => exact ⟨"false", by cases dialect <;> decide, rfl, rfl, fun _ => rfl⟩
  | null h => exact ⟨"null", by rw [h]; decide, rfl, rfl, fun _ => rfl⟩

/-- The rule for a name that stands for a value. -/
theorem run_jsonConstant (hw : w ∈ names) (h : c.ahead Char.isAlphanum = w.toList) :
    (Rule.jsonConstant names).run env c =
      (Rule.read (.jsonConstant w) fun _ => .spaces .done).run env c := by
  induction names with
  | nil => simp at hw
  | cons v names ih =>
    show (Rule.look (.jsonConstant v) _ (Rule.jsonConstant names)).run env c = _
    by_cases hv : v = w
    · subst hv
      rw [Rule.run_look, if_pos (by simpa [Look.holds] using h)]
    · have hne : ¬ c.ahead Char.isAlphanum = v.toList := fun e =>
        hv (String.toList_inj.mp (e.symm.trans h))
      rw [Rule.run_look, if_neg (by simpa [Look.holds] using hne)]
      exact ih ((List.mem_cons.mp hw).resolve_left (Ne.symm hv))

theorem exists_ahead_of_clean (h : ((Rule.jsonConstant names).run env c).Clean) :
    ∃ w ∈ names, c.ahead Char.isAlphanum = w.toList := by
  induction names with
  | nil => exact absurd (Clean.left h) (not_clean_error _ _ _)
  | cons v names ih =>
    change ((Rule.look (.jsonConstant v) _ (Rule.jsonConstant names)).run env c).Clean at h
    by_cases hv : c.ahead Char.isAlphanum = v.toList
    · exact ⟨v, List.mem_cons_self .., hv⟩
    · rw [Rule.run_look, if_neg (by simpa [Look.holds] using hv)] at h
      obtain ⟨w, hw, hahead⟩ := ih h
      exact ⟨w, List.mem_cons_of_mem _ hw, hahead⟩

theorem gives_jsonConstant {kind : TokenKind} {value : TokenValue} {cs rest : List Char}
    {p : Position} (hw : Constant dialect cs kind value)
    (h : (Cursor.mk (cs ++ rest) p).ahead Char.isAlphanum = cs) :
    ((Rule.jsonConstant dialect.constants).run env ⟨cs ++ rest, p⟩).Gives
      [⟨kind, value, p⟩] (Cursor.mk rest (p.after cs)).skipSpaces := by
  obtain ⟨w, hmem, rfl, -, hr⟩ := exists_name hw
  have hskip := Cursor.skip_append_of_length w.toList rest p String.length_toList
  rw [run_jsonConstant env hmem h]
  exact .argument (properTexts_constant.kind hw) (hr _ |>.trans (by rw [hskip])) (p.le_after _)
    (.done _)

theorem exact_constant :
    (leaf (Constant dialect)).Exact ((Rule.jsonConstant dialect.constants).run env) where
  toProper := proper_leaf properTexts_constant
  sound {c} h := by
    obtain ⟨w, hw, hahead⟩ := exists_ahead_of_clean env h
    obtain ⟨kind, value, hconstant⟩ := exists_constant hw
    have hc : c = ⟨w.toList ++ c.rest.dropWhile Char.isAlphanum, c.position⟩ := by
      rw [← hahead, Cursor.ahead, List.takeWhile_append_dropWhile]
    rw [hc] at hahead ⊢
    exact ⟨_, _, .intro hconstant (.skipSpaces _), gives_jsonConstant env hconstant hahead⟩
  completes := by
    rintro _ d _ ⟨hw, hs⟩ - hd
    next cs rest p kind value =>
    obtain ⟨y, hy, halpha⟩ := constant_last hw
    have hends : ∀ x ∈ rest.head?, x.isAlphanum = false := fun x hx => Bool.eq_false_iff.mpr
      fun hx' => parted_of_spaces hs hd x hx ⟨y, hy, .inr ⟨halpha, hx'⟩⟩
    obtain ⟨w, -, rfl, hall, -⟩ := exists_name hw
    have hahead : (Cursor.mk (w.toList ++ rest) p).ahead Char.isAlphanum = w.toList :=
      Reader.takeWhile_append_of_head? (List.all_eq_true.mp hall) hends
    exact hs.eq_skipSpaces hd.space ▸ gives_jsonConstant env hw hahead

end

end BedrockCommand
