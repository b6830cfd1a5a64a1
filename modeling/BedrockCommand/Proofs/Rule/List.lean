import BedrockCommand.Proofs.Rule.Outspoken
import BedrockCommand.Proofs.Rule.Run
import Mathlib.Data.List.Basic
/-!
Lists in brackets, whatever reads their elements. A list calls the reader of its elements behind
the opening bracket and behind each comma that another element follows. Behind an element it looks
for the place where it goes on at most once, since there is a comma, the closing bracket or the end
of the line there. It ends past the closing bracket or, after an error, at the end of the line.
-/
namespace BedrockCommand

/-- An error about the stretch between two places. -/
def Event.error (e : SyntaxError) (c d : Cursor) : Event :=
  .token ⟨.error, .error e, ⟨c.position, d.position⟩⟩

theorem Event.isError_error (e : SyntaxError) (c d : Cursor) : (Event.error e c d).IsError :=
  ⟨e, rfl, rfl⟩

namespace Brackets

variable {b : Brackets} {c : Cursor}

/-- Whether a list can go on right here: with its closing bracket, with a comma, or not at all. -/
def meets (b : Brackets) (c : Cursor) : Bool :=
  c.isAt b.closing || c.isAt ',' || !c.lineContinues

/-- Where a list goes on behind an element that ends at a cursor. -/
def resume (b : Brackets) (c : Cursor) : Cursor :=
  if b.meets c then c else c.toSeparator b.closing

/-- Whether a list goes on with another element: at a comma that does not have only spaces between
it and the closing bracket. -/
def separates (b : Brackets) (c : Cursor) : Bool :=
  c.isAt ',' && !Step.isTrailing b.closing c

/-- The error about text behind an element that does not belong there. -/
def junk (b : Brackets) (c : Cursor) : List Event :=
  if b.meets c then [] else [.error (.expectedSeparator b.closing) c (b.resume c)]

/-- The error about the place where a list goes on: a comma without an element behind it, or the
end of the line. -/
def verdict (b : Brackets) (c : Cursor) : List Event :=
  if c.isAt ',' && Step.isTrailing b.closing c then [.error .trailingComma c c.advance]
  else if c.lineContinues then []
  else [.error (.unclosedBracket b.closing) c c]

/-- What a list reports by itself behind an element. An element that has given up at the end of the
line has said what is wrong, and the list says nothing. -/
def remarks (b : Brackets) (element : Step) : List Event :=
  if element.outcome = .halted ∧ element.cursor.lineContinues = false then []
  else b.junk element.cursor ++ b.verdict (b.resume element.cursor)

theorem closing_ne_newline (b : Brackets) : b.closing ≠ '\n' :=
  ne_newline_of_isStructural (isStructural_closing b)

theorem lineContinues_of_closing (h : c.isAt b.closing = true) : c.lineContinues = true :=
  Cursor.lineContinues_iff.mpr (Cursor.line_ne_nil_of_isAt b.closing_ne_newline h)

theorem lineContinues_of_comma (h : c.isAt ',' = true) : c.lineContinues = true :=
  Cursor.lineContinues_iff.mpr (Cursor.line_ne_nil_of_isAt (by decide) h)

theorem not_comma_of_closing (h : c.isAt b.closing = true) : c.isAt ',' = false :=
  Cursor.isAt_eq_false h b.closing_ne_comma

theorem meets_iff : b.meets c = true ↔
    c.isAt b.closing = true ∨ c.isAt ',' = true ∨ c.lineContinues = false := by
  simp [meets, or_assoc]

theorem lineContinues_of_junk (h : b.meets c = false) : c.lineContinues = true := by
  simp only [meets, Bool.or_eq_false_iff] at h
  simpa using h.2

theorem ahead_resume (b : Brackets) (c : Cursor) : c.Ahead (b.resume c) := by
  unfold resume
  split
  · exact .refl c
  · exact c.ahead_toSeparator b.closing

/-- Where a list goes on, it need not look any further. -/
theorem meets_resume (b : Brackets) (c : Cursor) : b.meets (b.resume c) = true := by
  unfold resume
  split
  · assumption
  · have hstops := separatorOffset_stops b.closing false 0 c.rest
    rw [meets_iff]
    cases hr : (c.toSeparator b.closing).rest with
    | nil => simp [Cursor.lineContinues, hr]
    | cons x cs =>
      have hx := hstops x (by simpa [Cursor.toSeparator, Cursor.skip] using congrArg List.head? hr)
      rcases hx with rfl | rfl | rfl <;> simp [Cursor.isAt, Cursor.lineContinues, hr]

theorem line_resume_le (b : Brackets) (c : Cursor) :
    (b.resume c).line.length ≤ c.line.length :=
  (b.ahead_resume c).length_line_le

theorem isAt_of_separates (h : b.separates c = true) : c.isAt ',' = true :=
  (Bool.and_eq_true_iff.mp h).1

theorem ahead_of_separates (h : b.separates c = true) : c.Ahead c.advance.skipSpaces :=
  (Cursor.ahead_advance (by decide) (isAt_of_separates h)).trans (Cursor.ahead_skipSpaces _)

/-- What has given up at the end of the line is followed by no other element. -/
theorem lineContinues_of_separates (h : b.separates (b.resume c) = true) :
    c.lineContinues = true := by
  refine Cursor.lineContinues_iff.mpr fun hnil => ?_
  have hcomma := lineContinues_of_comma (isAt_of_separates h)
  exact Cursor.lineContinues_iff.mp hcomma ((b.ahead_resume c).line_eq_nil hnil)

theorem remarks_of_separates {s : Step} (h : b.separates (b.resume s.cursor) = true) :
    b.remarks s = b.junk s.cursor := by
  obtain ⟨hcomma, htrailing⟩ := Bool.and_eq_true_iff.mp h
  have hverdict : b.verdict (b.resume s.cursor) = [] := by
    simp only [Bool.not_eq_true'] at htrailing
    simp [verdict, htrailing, lineContinues_of_comma hcomma]
  rw [remarks, if_neg (by simp [lineContinues_of_separates h]), hverdict, List.append_nil]

theorem line_lt_of_separates (h : b.separates c = true) :
    c.advance.line.length < c.line.length :=
  Cursor.length_line_advance (by decide) (isAt_of_separates h)

end Brackets

namespace Step

variable {b : Brackets} {element next : Cursor → Step} {c d : Cursor} {calls : List Cursor}

/-- What a list asks of the reader of its elements: it moves forward along the line, it is done or
gives up, and it has reported an error if it gives up. -/
structure IsElement (element : Cursor → Step) : Prop where
  ahead : ∀ c : Cursor, c.Ahead (element c).cursor
  faultless : ∀ c f, (element c).outcome ≠ .failed f
  outspoken : ∀ c, (element c).Outspoken

/-! ## Behind an element -/

/-- How a list ends where it goes on without another element. -/
def finish (b : Brackets) (c : Cursor) : Step :=
  if c.isAt b.closing then close c
  else if c.isAt ',' then (error .trailingComma c c.advance).andThen fun c => close c.skipSpaces
  else refuse (.unclosedBracket b.closing) c

theorem afterElement_of_meets (h : b.meets c = true) (fuel : Nat) :
    afterElement b next (fuel + 1) c =
      if b.separates c then next c.advance else finish b c := by
  rw [afterElement, finish]
  cases hclosing : c.isAt b.closing with
  | true => simp [Brackets.separates, Brackets.not_comma_of_closing hclosing]
  | false =>
    cases hcomma : c.isAt ',' with
    | true => cases ht : isTrailing b.closing c <;> simp [Brackets.separates, hcomma, ht]
    | false =>
      have hl : c.lineContinues = false := by
        simpa [hclosing, hcomma] using Brackets.meets_iff.mp h
      simp [Brackets.separates, hcomma, hl]

theorem afterElement_of_junk (h : b.meets c = false) (fuel : Nat) :
    afterElement b next (fuel + 1) c =
      (error (.expectedSeparator b.closing) c (b.resume c)).andThen (afterElement b next fuel) := by
  have hresume : b.resume c = c.toSeparator b.closing := if_neg (by simp [h])
  simp only [Brackets.meets, Bool.or_eq_false_iff, Bool.not_eq_false'] at h
  obtain ⟨⟨hclosing, hcomma⟩, hl⟩ := h
  rw [afterElement, if_neg (by simp [hclosing]), if_neg (by simp [hcomma]), if_neg (by simp [hl]),
    hresume]

/-- A list looks once for the place where it goes on, and goes on there with another element or
ends. -/
theorem afterElement_eq {fuel : Nat} (hf : c.line.length < fuel) :
    afterElement b next fuel c =
      let d := b.resume c
      let s := if b.separates d then next d.advance else finish b d
      { s with events := b.junk c ++ s.events } := by
  obtain ⟨fuel, rfl⟩ := Nat.exists_eq_add_one.mpr (Nat.zero_lt_of_lt hf)
  cases h : b.meets c with
  | true => simp [afterElement_of_meets h, Brackets.junk, Brackets.resume, h]
  | false =>
    have hl : c.line ≠ [] := Cursor.lineContinues_iff.mp (Brackets.lineContinues_of_junk h)
    obtain ⟨n, rfl⟩ : ∃ n, fuel = n + 1 :=
      Nat.exists_eq_add_one.mpr (by have := List.length_pos_iff.mpr hl; omega)
    rw [afterElement_of_junk h, error_ahead _ (b.ahead_resume c)]
    simp [andThen, afterElement_of_meets (b.meets_resume c), Brackets.junk, h, Event.error]

/-- How a list ends that is read from a cursor on: past its closing bracket and the spaces after
it, or after an error at the end of the line. -/
inductive Ends (b : Brackets) (c : Cursor) (s : Step) : Prop
  | closed (d : Cursor) (outcome : s.outcome = .done) (ahead : c.Ahead d)
      (closing : d.isAt b.closing = true) (cursor : s.cursor = d.advance.skipSpaces)
  | cut (outcome : s.outcome = .halted) (cursor : s.cursor = c.toLineEnd)
      (error : ∃ e ∈ s.events, e.IsError)

namespace Ends

variable {s : Step}

theorem of_ahead (ha : c.Ahead d) (h : Ends b d s) : Ends b c s := by
  cases h with
  | closed e ho hd hc hs => exact .closed e ho (ha.trans hd) hc hs
  | cut ho hs he => exact .cut ho (ha.toLineEnd_eq ▸ hs) he

/-- What has been reported before does not matter. -/
theorem mono {t : Step} (h : Ends b c s) (ho : t.outcome = s.outcome) (hc : t.cursor = s.cursor)
    (hsub : s.events ⊆ t.events) : Ends b c t := by
  cases h with
  | closed e ho' hd hc' hs => exact .closed e (ho.trans ho') hd hc' (hc.trans hs)
  | cut ho' hs he =>
    obtain ⟨e, hmem, hError⟩ := he
    exact .cut (ho.trans ho') (hc.trans hs) ⟨e, hsub hmem, hError⟩

theorem ahead (h : Ends b c s) : c.Ahead s.cursor := by
  cases h with
  | closed d _ hd hc hs =>
    have := (Cursor.ahead_advance b.closing_ne_newline hc).trans (Cursor.ahead_skipSpaces _)
    exact hs ▸ hd.trans this
  | cut _ hs _ => exact hs ▸ c.ahead_toLineEnd

end Ends

theorem finish_eq (h : b.meets c = true) (hs : b.separates c = false) :
    (finish b c).events = b.verdict c ∧ Ends b c (finish b c) ∧
      ((finish b c).outcome = .done → c.lineContinues = true) := by
  rw [finish, Brackets.verdict]
  cases hclosing : c.isAt b.closing with
  | true =>
    rw [if_pos rfl, if_neg (by simp [Brackets.not_comma_of_closing hclosing]),
      if_pos (Brackets.lineContinues_of_closing hclosing)]
    exact ⟨rfl, .closed c rfl (.refl c) hclosing rfl,
      fun _ => Brackets.lineContinues_of_closing hclosing⟩
  | false =>
  cases hcomma : c.isAt ',' with
  | true =>
    have ht : isTrailing b.closing c = true := by simpa [Brackets.separates, hcomma] using hs
    have hadvance := Cursor.ahead_advance (by decide) hcomma
    rw [if_neg (by simp), if_pos rfl, if_pos (by simp [ht]), error_ahead _ hadvance]
    exact ⟨rfl, .closed _ rfl (hadvance.trans (Cursor.ahead_skipSpaces _)) ht rfl,
      fun _ => Brackets.lineContinues_of_comma hcomma⟩
  | false =>
    have hl : c.lineContinues = false := by
      simpa [hclosing, hcomma] using Brackets.meets_iff.mp h
    have hend : c = c.toLineEnd :=
      (Cursor.Ahead.refl c).eq_toLineEnd (Cursor.lineContinues_eq_false_iff.mp hl)
    rw [if_neg (by simp), if_neg (by simp), if_neg (by simp), if_neg (by simp [hl]), refuse,
      complain, error_ahead _ (.refl c)]
    exact ⟨rfl, .cut rfl hend ⟨_, List.mem_cons_self .., Event.isError_error _ c c⟩, nofun⟩

/-! ## The elements -/

/-- One round: an element, and what a list does behind it. -/
theorem elements_succ (hf : ∀ f, (element c.skipSpaces).outcome ≠ .failed f) (fuel : Nat) :
    elements b element (fuel + 1) c =
      let s := element c.skipSpaces
      let d := b.resume s.cursor
      let t := if b.separates d then elements b element fuel d.advance else finish b d
      if s.outcome = .halted ∧ s.cursor.lineContinues = false then s
      else { t with
        events := s.events ++ (b.junk s.cursor ++ t.events)
        marks := s.marks ++ t.marks } := by
  have hdone := outcome_settle_of_faultless hf
  simp only [elements]
  split
  · rfl
  · simp only [andThen, hdone, events_settle, cursor_settle,
      afterElement_eq (Nat.lt_succ_self (element c.skipSpaces).cursor.line.length), marks_settle]

theorem elements_of_separates (hf : ∀ f, (element c.skipSpaces).outcome ≠ .failed f) (fuel : Nat)
    (h : b.separates (b.resume (element c.skipSpaces).cursor) = true) :
    elements b element (fuel + 1) c =
      let s := element c.skipSpaces
      let t := elements b element fuel (b.resume s.cursor).advance
      { t with
        events := s.events ++ (b.junk s.cursor ++ t.events)
        marks := s.marks ++ t.marks } := by
  have hl := Brackets.lineContinues_of_separates h
  simp [elements_succ hf, h, hl]

/-- The places where a list calls the reader of its elements, from the first call on. -/
inductive Calls (b : Brackets) (element : Cursor → Step) : Cursor → List Cursor → Prop
  | last {c : Cursor} (h : b.separates (b.resume (element c).cursor) = false) :
      Calls b element c [c]
  | comma {c : Cursor} {calls : List Cursor}
      (h : b.separates (b.resume (element c).cursor) = true)
      (hs : Calls b element (b.resume (element c).cursor).advance.skipSpaces calls) :
      Calls b element c (c :: calls)

/-- Behind a comma less of the line is left than where the reader was called before it. -/
theorem IsElement.line_lt (he : IsElement element)
    (h : b.separates (b.resume (element c).cursor) = true) :
    (b.resume (element c).cursor).advance.line.length < c.line.length := by
  have := Brackets.line_lt_of_separates h
  have := b.line_resume_le (element c).cursor
  have := (he.ahead c).length_line_le
  omega

/-- The place behind a comma and its spaces is further along the line. -/
theorem IsElement.ahead_comma (he : IsElement element)
    (h : b.separates (b.resume (element c).cursor) = true) :
    c.Ahead (b.resume (element c).cursor).advance.skipSpaces :=
  ((he.ahead c).trans (b.ahead_resume _)).trans (Brackets.ahead_of_separates h)

theorem exists_calls (he : IsElement element) (b : Brackets) (c : Cursor) :
    ∃ calls, Calls b element c calls := by
  induction hn : c.line.length using Nat.strong_induction_on generalizing c with
  | _ n ih =>
    cases h : b.separates (b.resume (element c).cursor) with
    | false => exact ⟨[c], .last h⟩
    | true =>
      have hlt := he.line_lt h
      have hskip := (b.resume (element c).cursor).advance.ahead_skipSpaces.length_line_le
      obtain ⟨calls, hcalls⟩ := ih _ (hn ▸ Nat.lt_of_le_of_lt hskip hlt) _ rfl
      exact ⟨c :: calls, .comma h hcalls⟩

/-- What the elements of a list and its closing bracket come to: the events of each element and
what the list says about it, and an end of the list. -/
structure Reads (b : Brackets) (element : Cursor → Step) (c : Cursor) (calls : List Cursor)
    (s : Step) : Prop where
  events : s.events = calls.flatMap fun d => (element d).events ++ b.remarks (element d)
  ends : Ends b c s
  onLine : s.outcome = .done → ∀ d ∈ calls, (b.resume (element d).cursor).lineContinues = true

namespace Calls

theorem ne_nil (h : Calls b element c calls) : calls ≠ [] := by
  cases h <;> simp

/-- The calls of a list come one behind the other. -/
theorem line_le (he : IsElement element) (h : Calls b element c calls) :
    ∀ d ∈ calls, d.line.length ≤ c.line.length := by
  induction h with
  | last => simp
  | @comma c calls h hs ih =>
    have hahead := (he.ahead_comma h).length_line_le
    simpa using fun d hd => (ih d hd).trans hahead

theorem pairwise (he : IsElement element) (h : Calls b element c calls) :
    calls.Pairwise fun d e => e.line.length < d.line.length := by
  induction h with
  | last => simp
  | @comma c calls h hs ih =>
    have hskip := (b.resume (element c).cursor).advance.ahead_skipSpaces.length_line_le
    refine List.pairwise_cons.mpr ⟨fun d hd => ?_, ih⟩
    exact Nat.lt_of_le_of_lt ((hs.line_le he d hd).trans hskip) (he.line_lt h)

theorem reads_elements (he : IsElement element) (h : Calls b element c calls)
    (hd : d.skipSpaces = c) {fuel : Nat} (hf : d.line.length < fuel) :
    Reads b element c calls (elements b element fuel d) := by
  -- By induction on the calls: each but the last takes a comma, so that the fuel lasts.
  obtain ⟨fuel, rfl⟩ := Nat.exists_eq_add_one.mpr (Nat.zero_lt_of_lt hf)
  induction h generalizing d fuel with
  | @last c h =>
    subst hd
    simp only [elements_succ (he.faultless _), h]
    split
    · next hcut =>
      -- An element that gives up at the end of the line takes the list with it.
      have hend := (he.ahead _).eq_toLineEnd (Cursor.lineContinues_eq_false_iff.mp hcut.2)
      refine ⟨by simp [Brackets.remarks, hcut], .cut hcut.1 hend (he.outspoken _ hcut.1), ?_⟩
      simp [hcut.1]
    · next hcut =>
      obtain ⟨hevents, hends, honLine⟩ := finish_eq (b.meets_resume _) h
      have hahead := (he.ahead d.skipSpaces).trans (b.ahead_resume _)
      refine ⟨by simp [Brackets.remarks, hcut, hevents], (hends.of_ahead hahead).mono rfl rfl ?_,
        by simpa using honLine⟩
      exact fun e h => List.mem_append_right _ (List.mem_append_right _ h)
  | @comma c calls h hs ih =>
    subst hd
    have hlt := he.line_lt h
    have hskip := d.ahead_skipSpaces.length_line_le
    have hfuel : 0 < fuel := by omega
    obtain ⟨n, rfl⟩ := Nat.exists_eq_add_one.mpr hfuel
    have hreads := ih rfl n (by omega)
    rw [elements_of_separates (he.faultless _) _ h]
    refine ⟨?_, (hreads.ends.of_ahead (he.ahead_comma h)).mono rfl rfl ?_, fun hdone => ?_⟩
    · simp [hreads.events, Brackets.remarks_of_separates h]
    · exact fun e h => List.mem_append_right _ (List.mem_append_right _ h)
    · have hcomma := Brackets.lineContinues_of_comma (Brackets.isAt_of_separates h)
      exact List.forall_mem_cons.mpr ⟨hcomma, hreads.onLine hdone⟩

/-- The outcome of a list depends on the reader at the places alone where it is called. -/
theorem elements_congr (he : IsElement element) (h : Calls b element c calls)
    {other : Cursor → Step} (ho : ∀ e ∈ calls, other e = element e) (hd : d.skipSpaces = c)
    (fuel : Nat) : Step.elements b other fuel d = Step.elements b element fuel d := by
  induction h generalizing d fuel with
  | @last c h =>
    cases fuel with
    | zero => rfl
    | succ fuel =>
      subst hd
      have hother := List.forall_mem_singleton.mp ho
      rw [elements_succ (he.faultless _), elements_succ (hother ▸ he.faultless _)]
      simp [hother, h]
  | @comma c calls h hs ih =>
    cases fuel with
    | zero => rfl
    | succ fuel =>
      subst hd
      obtain ⟨hother, hrest⟩ := List.forall_mem_cons.mp ho
      rw [elements_of_separates (he.faultless _) _ h,
        elements_of_separates (hother ▸ he.faultless _) _ (hother ▸ h)]
      simp only [hother, ih hrest rfl]

end Calls

/-! ## Lists -/

/-- A list says nothing behind an element that ends at its closing bracket or at a comma with
something else behind it. -/
theorem remarks_eq_nil_iff {s : Step} (hl : (b.resume s.cursor).lineContinues = true) :
    b.remarks s = [] ↔ (s.cursor.isAt ',' = true ∨ s.cursor.isAt b.closing = true) ∧
      (s.cursor.isAt ',' = true → isTrailing b.closing s.cursor = false) := by
  have hline : s.cursor.lineContinues = true := Cursor.lineContinues_iff.mpr fun hnil =>
    Cursor.lineContinues_iff.mp hl ((b.ahead_resume s.cursor).line_eq_nil hnil)
  have hcut : ¬ (s.outcome = .halted ∧ s.cursor.lineContinues = false) := by simp [hline]
  rw [Brackets.remarks, if_neg hcut]
  cases h : b.meets s.cursor with
  | false =>
    simp only [Brackets.meets, Bool.or_eq_false_iff] at h
    simp [Brackets.junk, Brackets.meets, h, hline]
  | true =>
    have hmeets := Brackets.meets_iff.mp h
    simp only [hline, Bool.true_eq_false, or_false] at hmeets
    simp [Brackets.junk, Brackets.resume, Brackets.verdict, h, hline, hmeets.symm]

theorem length_flatMap_append (f g : Cursor → List Event) :
    (calls.flatMap fun d => f d ++ g d).length =
      (calls.flatMap f).length + (calls.flatMap g).length := by
  induction calls with
  | nil => rfl
  | cons c calls ih =>
    simp only [List.flatMap_cons, List.length_append, ih]
    omega

/-- Nothing is reported but what the reader of the elements reports if, and only if, nothing comes
before that and in between. -/
theorem append_flatMap_eq_iff {first : List Event} {f g : Cursor → List Event} :
    (first ++ calls.flatMap fun d => f d ++ g d) = calls.flatMap f ↔
      first = [] ∧ ∀ d ∈ calls, g d = [] := by
  constructor
  · intro h
    have hlength := congrArg List.length h
    rw [List.length_append, length_flatMap_append] at hlength
    have hg : calls.flatMap g = [] := List.length_eq_zero_iff.mp (by omega)
    exact ⟨List.length_eq_zero_iff.mp (by omega), List.flatMap_eq_nil_iff.mp hg⟩
  · rintro ⟨rfl, h⟩
    rw [List.nil_append]
    exact List.flatMap_congr fun d hd => by rw [h d hd, List.append_nil]

/-- What a list does behind its opening bracket. It calls the reader of its elements at some places,
each further along the line than the one before, and nothing else about the reader matters. -/
structure ReadsList (b : Brackets) (mayBeEmpty : Bool) (element : Cursor → Step) (c : Cursor)
    (calls : List Cursor) : Prop where
  places : if c.advance.skipSpaces.isAt b.closing then calls = []
    else Calls b element c.advance.skipSpaces calls
  forward : calls.Pairwise fun d e => e.line.length < d.line.length
  only : ∀ other : Cursor → Step, (∀ d ∈ calls, other d = element d) →
    list b mayBeEmpty other c = list b mayBeEmpty element c
  ends : Ends b c (list b mayBeEmpty element c)
  events : (list b mayBeEmpty element c).events =
    (if calls = [] ∧ mayBeEmpty = false then
      [.error .emptyList c.advance.skipSpaces c.advance.skipSpaces] else []) ++
    calls.flatMap fun d => (element d).events ++ b.remarks (element d)
  silent : (list b mayBeEmpty element c).outcome = .done →
    ((list b mayBeEmpty element c).events = (calls.flatMap fun d => (element d).events) ↔
      (∀ d ∈ calls, (element d).cursor.isAt ',' = true ∨
        (element d).cursor.isAt b.closing = true) ∧
      (∀ d ∈ calls, (element d).cursor.isAt ',' = true →
        isTrailing b.closing (element d).cursor = false) ∧
      (calls ≠ [] ∨ mayBeEmpty = true))

theorem list_of_not_opening (mayBeEmpty : Bool) (element : Cursor → Step)
    (h : c.isAt b.opening = false) : list b mayBeEmpty element c =
      ⟨[.error (.expectedChar b.opening) c c], [], .halted, c⟩ := by
  rw [list, if_pos (by simp [h]), refuse, complain, error_ahead _ (.refl c)]
  rfl

theorem list_of_opening (mayBeEmpty : Bool) (element : Cursor → Step)
    (h : c.isAt b.opening = true) : list b mayBeEmpty element c =
      let d := c.advance.skipSpaces
      if d.isAt b.closing then
        ⟨if mayBeEmpty then [] else [.error .emptyList d d], [], .done, d.advance.skipSpaces⟩
      else elements b element (d.line.length + 1) d := by
  rw [list, if_neg (by simp [h])]
  simp only
  split
  · cases mayBeEmpty with
    | true => rfl
    | false =>
      rw [complain, error_ahead _ (.refl _)]
      rfl
  · rfl

theorem ahead_opening (h : c.isAt b.opening = true) : c.Ahead c.advance.skipSpaces := by
  have hn := ne_newline_of_isStructural (isStructural_opening b)
  exact (Cursor.ahead_advance hn h).trans (Cursor.ahead_skipSpaces _)

theorem exists_readsList (he : IsElement element) (mayBeEmpty : Bool)
    (h : c.isAt b.opening = true) : ∃ calls, ReadsList b mayBeEmpty element c calls := by
  have hlist (other : Cursor → Step) := list_of_opening mayBeEmpty other h
  cases hc : c.advance.skipSpaces.isAt b.closing with
  | true =>
    simp only [hc, if_true] at hlist
    refine ⟨[], by simp [hc], .nil, fun other _ => ?_, ?_, ?_, fun _ => ?_⟩
    · rw [hlist, hlist]
    · rw [hlist]
      exact .closed _ rfl (ahead_opening h) hc rfl
    · cases mayBeEmpty <;> simp [hlist]
    · cases mayBeEmpty <;> simp [hlist]
  | false =>
    simp only [hc, Bool.false_eq_true, if_false] at hlist
    obtain ⟨calls, hcalls⟩ := exists_calls he b c.advance.skipSpaces
    have hskip := c.advance.skipSpaces_skipSpaces
    have hreads := hcalls.reads_elements he hskip (Nat.lt_succ_self _)
    have hevents := hreads.events
    rw [← hlist] at hreads hevents
    refine ⟨calls, by simpa [hc] using hcalls, hcalls.pairwise he, fun other ho => ?_,
      hreads.ends.of_ahead (ahead_opening h), ?_, fun hdone => ?_⟩
    · rw [hlist, hlist]
      exact hcalls.elements_congr he ho hskip _
    · simpa [hcalls.ne_nil] using hevents
    · have hremarks (d : Cursor) (hd : d ∈ calls) := remarks_eq_nil_iff (hreads.onLine hdone d hd)
      rw [← List.nil_append (List.flatMap _ calls)] at hevents
      rw [hevents, append_flatMap_eq_iff, forall₂_congr hremarks]
      simp [hcalls.ne_nil, forall_and]

/-- A list in brackets is itself such as the elements of a list have to be. -/
theorem IsElement.list (he : IsElement element) (b : Brackets) (mayBeEmpty : Bool) :
    IsElement (Step.list b mayBeEmpty element) where
  ahead c := by
    cases h : c.isAt b.opening with
    | false => exact list_of_not_opening mayBeEmpty element h ▸ .refl c
    | true =>
      obtain ⟨calls, hreads⟩ := exists_readsList he mayBeEmpty h
      exact hreads.ends.ahead
  faultless c f := by
    cases h : c.isAt b.opening with
    | false => simp [list_of_not_opening mayBeEmpty element h]
    | true =>
      obtain ⟨calls, hreads⟩ := exists_readsList he mayBeEmpty h
      rcases hreads.ends with ⟨_, hdone⟩ | hcut
      · simp [hdone]
      · simp [hcut]
  outspoken := .list he.outspoken

/-- The rules of the grammar are such as the elements of a list have to be. -/
theorem isElement_run {version : Version} {env : Env}
    (hn : ∀ c, (env.nested c).Sound version c) (ho : ∀ c, (env.nested c).Outspoken) {r : Rule}
    (h : r.WellFormed env.dialect none) : IsElement (r.run env) where
  ahead c := (Rule.sound_run hn h (Look.known_none c)).ahead
  faultless c := (Rule.sound_run hn h (Look.known_none c)).faultless
  outspoken := Rule.outspoken_run ho r

/-- Without its opening bracket, a list says so and stays where it is. Behind it, whatever reads
the elements as long as it moves forward on the line and reports what is wrong when it gives up, the
list calls the reader at the places that are meant for elements and at no others, and ends past its
closing bracket or, after an error, at the end of the line. It has nothing to say by itself if, and
only if, each element ends at the closing bracket or at a comma with something else behind it, and
the list is not empty where it must not be. -/
theorem list_reads_elements (b : Brackets) (mayBeEmpty : Bool) {element : Cursor → Step}
    (he : IsElement element) (c : Cursor) :
    (c.isAt b.opening = false → list b mayBeEmpty element c =
      ⟨[.error (.expectedChar b.opening) c c], [], .halted, c⟩) ∧
    (c.isAt b.opening = true → ∃ calls, ReadsList b mayBeEmpty element c calls) :=
  ⟨list_of_not_opening mayBeEmpty element, exists_readsList he mayBeEmpty⟩

/-- A list of words, with text behind the first one that does not belong there, and with a comma
behind the last one. -/
theorem list_reads_elements_words :
    let element := (Rule.read .word fun _ => .done).run ⟨⟨none, []⟩, done⟩
    let c : Cursor := ⟨"[a ?x , b , ] y".toList, ⟨1, 0⟩⟩
    IsElement element ∧ (∃ calls, ReadsList .square false element c calls) ∧
      list .square false element c =
        ⟨[.token ⟨.string, .none, ⟨⟨1, 1⟩, ⟨1, 3⟩⟩⟩,
          .token ⟨.error, .error (.expectedSeparator ']'), ⟨⟨1, 3⟩, ⟨1, 6⟩⟩⟩,
          .token ⟨.string, .none, ⟨⟨1, 8⟩, ⟨1, 10⟩⟩⟩,
          .token ⟨.error, .error .trailingComma, ⟨⟨1, 10⟩, ⟨1, 11⟩⟩⟩], [], .done,
        ⟨['y'], ⟨1, 14⟩⟩⟩ := by
  intro element c
  have hsound (d : Cursor) : (done d).Sound ⟨1, 19, 0, rfl⟩ d := .done d
  have he : IsElement element :=
    isElement_run hsound (fun d => .done d) ⟨trivial, fun _ _ => trivial⟩
  have hopening : c.isAt Brackets.square.opening = true := by decide +kernel
  exact ⟨he, (list_reads_elements .square false he c).2 hopening, by decide +kernel⟩

end Step
end BedrockCommand
