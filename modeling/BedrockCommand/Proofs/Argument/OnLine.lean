import BedrockCommand.Proofs.Reader.Number
import BedrockCommand.Proofs.Reader.Word
import BedrockCommand.Proofs.Source.Separator
import BedrockCommand.Rule.Basic
import Mathlib.Data.List.Find
/-!
Arguments keep to their line: which token an argument becomes, what it answers and how far it goes
depends on nothing but what is left of the line. Some arguments take for granted what a question
about the line has found out before.
-/
namespace BedrockCommand

/-- The same reading, with its end somewhere else. -/
def Reading.endAt (r : Reading α) (c : Cursor) : Reading α :=
  { r with cursor := c }

namespace Reading

/-- On a line, the same reading after some of its characters, whatever follows the line and
wherever the line stands. -/
def OnLineAt (f : Cursor → Reading α) (line : List Char) : Prop :=
  ∃ (r : Reading α) (n : Nat), n ≤ line.length ∧ ∀ tail p, LineEnd tail →
    f ⟨line ++ tail, p⟩ = r.endAt ⟨line.drop n ++ tail, p.after (line.take n)⟩

theorem OnLineAt.ahead {f : Cursor → Reading α} {c : Cursor} (h : OnLineAt f c.line) :
    c.Ahead (f c).cursor := by
  obtain ⟨tail, ht, hc⟩ := c.exists_line
  obtain ⟨r, n, -, hf⟩ := h
  rw [hc, hf tail c.position ht]
  exact Cursor.ahead_append _ _ c.newline_notMem_line n

/-- A reading that ends where it is made. -/
def Stays (f : Cursor → Reading α) : Prop :=
  ∀ c d, f d = (f c).endAt d

theorem Stays.cursor {f : Cursor → Reading α} (h : Stays f) (c : Cursor) : (f c).cursor = c :=
  congrArg Reading.cursor (h c c)

section

variable {kind : TokenKind} {value : TokenValue} {e : SyntaxError} {x : α} {test : Bool}

theorem stays_accept : Stays (accept kind value x) := fun _ _ => rfl

theorem stays_reject : Stays (reject e x) := fun _ _ => rfl

theorem stays_refuse : Stays (refuse e : Cursor → Reading α) := fun _ _ => rfl

theorem stays_decided : Stays fun c => (undecided x c).decided kind value := fun _ _ => rfl

theorem stays_acceptIf : Stays (acceptIf test kind value e x) := by
  intro c d
  cases test <;> rfl

end

theorem Stays.warnIf {f : Cursor → Reading α} (h : Stays f) (test : Bool) (w : WarningKind) :
    Stays fun c => (f c).warnIf test w := by
  intro c d
  cases test
  · exact h c d
  · exact congrArg (fun r => { r with warning := some w }) (h c d)

theorem Stays.ite {f g : Cursor → Reading α} (hf : Stays f) (hg : Stays g) (P : Prop)
    [Decidable P] : Stays (if P then f else g) := by
  split
  · exact hf
  · exact hg

theorem Stays.ite_apply {f g : Cursor → Reading α} (hf : Stays f) (hg : Stays g) (P : Prop)
    [Decidable P] : Stays fun c => if P then f c else g c := by
  split
  · exact hf
  · exact hg

theorem Stays.onLineAt {f : Cursor → Reading α} (h : Stays f) (line : List Char) :
    OnLineAt f line :=
  ⟨f ⟨line, .origin⟩, 0, Nat.zero_le _, fun tail p _ => by simpa using h _ ⟨line ++ tail, p⟩⟩

/-- A value that is read on a line and judged on what is left of it. -/
theorem onLineAt_of {r : Reader β} {line : List Char} (hr : r.OnLineAt line)
    {judge : β → Cursor → Reading α}
    (hj : ∀ x n, r.Reads line (.ok x) n → OnLineAt (judge x) (line.drop n)) :
    OnLineAt (of r judge) line := by
  obtain ⟨v, n, hn, hr⟩ := hr
  cases v with
  | error e =>
    refine ⟨refuse e ⟨line, .origin⟩, n, hn, fun tail p ht => ?_⟩
    rw [of, hr tail p ht]
    rfl
  | ok x =>
    obtain ⟨s, m, hm, hs⟩ := hj x n ⟨hn, hr⟩
    refine ⟨s, n + m, by rw [List.length_drop] at hm; omega, fun tail p ht => ?_⟩
    rw [of, hr tail p ht]
    simp only [hs tail _ ht, List.drop_drop, List.take_add, Position.after_append]

theorem onLineAt_of_stays {r : Reader β} (hr : r.OnLine) {line : List Char} (hl : '\n' ∉ line)
    {judge : β → Cursor → Reading α} (hj : ∀ x, Stays (judge x)) : OnLineAt (of r judge) line :=
  onLineAt_of (hr line hl) fun x _ _ => (hj x).onLineAt _

/-- A reading moved on to another place of the line. -/
theorem onLineAt_moved {f : Cursor → Reading α} (h : Stays f) {line : List Char}
    {g : Cursor → Cursor} {n : Nat} (hn : n ≤ line.length)
    (hg : ∀ tail p, LineEnd tail →
      g ⟨line ++ tail, p⟩ = ⟨line.drop n ++ tail, p.after (line.take n)⟩) :
    OnLineAt (fun c => f (g c)) line :=
  ⟨f ⟨line, .origin⟩, n, hn, fun tail p ht => by simp only [hg tail p ht]; exact h _ _⟩

theorem OnLineAt.ite {f g : Cursor → Reading α} {line : List Char} (hf : OnLineAt f line)
    (hg : OnLineAt g line) (P : Prop) [Decidable P] :
    OnLineAt (fun c => if P then f c else g c) line := by
  split
  · exact hf
  · exact hg

end Reading

/-- The questions that the line alone answers: all but whether a line break comes next. -/
theorem Look.seesLine_holds {l : Look} (h : l ≠ .char '\n') : Cursor.SeesLine l.holds := by
  have hnumber := Reader.seesLine_startsNumber
  have hat {x : Char} (hx : x ≠ '\n') := Cursor.seesLine_isAt hx
  cases l with
  | line => exact Cursor.seesLine_lineContinues
  | char x => exact hat fun e => h (e ▸ rfl)
  | number => exact hnumber
  | coordinate =>
    exact (hnumber.map₂ (hat (by decide)) (· || ·)).map₂ (hat (by decide)) (· || ·)
  | angle => exact hnumber.map₂ (hat (by decide)) (· || ·)
  | text => exact (Cursor.seesLine_terminated.map (! ·)).map₂ (hat (by decide)) (· || ·)
  | comparison =>
    exact ((hat (by decide)).map₂ (hat (by decide)) (· || ·)).map₂ (hat (by decide)) (· || ·)
  | word w => exact (Cursor.seesLine_ahead (by decide)).map fun cs => decide (cs = w.toList)
  | jsonNumber =>
    exact (hat (by decide)).map₂ (Cursor.seesLine_head?_any (by decide)) (· || ·)
  | jsonConstant w =>
    exact (Cursor.seesLine_ahead (by decide)).map fun cs => decide (cs = w.toList)

/-- Where nothing has been asked, nothing has to be known. -/
theorem Look.known_none (c : Cursor) :
    ∀ l ∈ (none : Option Look), l.holds ⟨c.line, .origin⟩ = true := by
  simp

/-- Where a question has been asked, its answer is known along the line. -/
theorem Look.known_of_holds {q : Look} (h : q ≠ .char '\n') {c : Cursor}
    (hq : q.holds c = true) : ∀ l ∈ some q, l.holds ⟨c.line, .origin⟩ = true := by
  intro l hl
  obtain rfl := Option.mem_some_iff.mp hl
  exact (seesLine_holds h).eq_line c ▸ hq

namespace Argument

open Reading Reader

/-- What has to be asked before an argument: three of them read their first characters without
another look. -/
def FitsAfter : Argument → Option Look → Prop
  | selectorVariable, known => known = some (.char '@')
  | comparison, known => known = some .comparison
  | jsonConstant w, known => known = some (.jsonConstant w)
  | _, _ => True

theorem onLine_starOrInteger : OnLine starOrInteger :=
  (onLine_look (Cursor.seesLine_isAt (by decide))).bind fun _ =>
    .ite ((onLine_symbol (by decide)).bind fun _ => onLine_pure _)
      (.bind onLine_integer fun _ => onLine_pure _) _

theorem isPrefixOf_append {tail : List Char} (ht : LineEnd tail) {cs : List Char}
    (hcs : '\n' ∉ cs) (line : List Char) :
    cs.isPrefixOf (line ++ tail) = cs.isPrefixOf line := by
  induction cs generalizing line with
  | nil => simp
  | cons x cs ih =>
    obtain ⟨hx, hcs⟩ := not_or.mp (List.mem_cons.not.mp hcs)
    cases line with
    | nil => rcases ht.cases with rfl | ⟨ds, rfl⟩ <;> simp [List.isPrefixOf, Ne.symm hx]
    | cons y line => simp [List.isPrefixOf, ih hcs]

theorem onLineAt_comparison {line : List Char}
    (hq : Look.comparison.holds ⟨line, .origin⟩ = true) :
    OnLineAt comparison.read line := by
  obtain ⟨x, line, rfl⟩ : ∃ x cs, line = x :: cs := List.exists_cons_of_ne_nil fun h => by
    simp [h, Look.holds] at hq
  -- A comparison looks one character past the first one, which may be past the line.
  have hsecond (tail p) (ht : LineEnd tail) : comparisonLength ⟨x :: line ++ tail, p⟩ =
      comparisonLength ⟨x :: line, .origin⟩ := by
    simp only [comparisonLength, Cursor.advance_of_rest (c := ⟨x :: (line ++ tail), p⟩) rfl,
      Cursor.advance_of_rest (c := ⟨x :: line, .origin⟩) rfl, List.cons_append, Cursor.isAt_cons,
      Cursor.isAt_append (by decide : '=' ≠ '\n') ht line (p.next x) (Position.origin.next x)]
  have hle : comparisonLength ⟨x :: line, .origin⟩ ≤ (x :: line).length := by
    unfold comparisonLength
    split
    · next h =>
      rw [Cursor.advance_of_rest rfl] at h
      have := ne_nil_of_isAt (Bool.and_eq_true_iff.mp h).2
      have := List.length_pos_iff.mpr this
      simp only [List.length_cons]
      omega
    · simp
  exact onLineAt_moved stays_accept hle fun tail p ht => by
    rw [hsecond tail p ht, Cursor.skip_append _ _ hle]

theorem onLineAt_scoreOperator {line : List Char} : OnLineAt scoreOperator.read line := by
  have hfind (tail : List Char) (ht : LineEnd tail) :
      scoreOperators.find? (fun o => o.toList.isPrefixOf (line ++ tail)) =
        scoreOperators.find? (fun o => o.toList.isPrefixOf line) := by
    have hn : ∀ o ∈ scoreOperators, '\n' ∉ o.toList := by decide
    exact List.find?_congr fun o ho => isPrefixOf_append ht (hn o ho) line
  cases hf : scoreOperators.find? (fun o => o.toList.isPrefixOf line) with
  | none =>
    refine ⟨refuse .expectedScoreOperator ⟨line, .origin⟩, 0, Nat.zero_le _, fun tail p ht => ?_⟩
    simp only [read, hfind tail ht, hf]
    exact stays_refuse _ _
  | some o =>
    have hle : o.length ≤ line.length := by
      rw [← String.length_toList]
      exact (List.isPrefixOf_iff_prefix.mp (by simpa using List.find?_some hf)).length_le
    refine ⟨accept .option .none () ⟨line, .origin⟩, o.length, hle, fun tail p ht => ?_⟩
    simp only [read, hfind tail ht, hf, Cursor.skip_append _ _ hle]
    exact stays_accept _ _

theorem onLineAt_selectorVariable {line : List Char} (hl : '\n' ∉ line)
    (hq : (Look.char '@').holds ⟨line, .origin⟩ = true) :
    OnLineAt selectorVariable.read line := by
  obtain ⟨cs, rfl : line = '@' :: cs⟩ := Cursor.isAt_iff.mp hq
  have hcs : '\n' ∉ cs := fun h => hl (List.mem_cons_of_mem _ h)
  have hadvance (tail p) :
      (Cursor.mk ('@' :: cs ++ tail) p).advance = ⟨cs ++ tail, p.next '@'⟩ := by
    simp [Cursor.advance, Cursor.skip]
  obtain ⟨v, n, hn, hv⟩ := onLine_word cs hcs
  cases v with
  | error e =>
    refine ⟨reject e () ⟨[], .origin⟩, n + 1, by simp [hn], fun tail p ht => ?_⟩
    simp only [read, hadvance, hv tail _ ht]
    rfl
  | ok w =>
    refine ⟨acceptIf (selectorVariables.contains w) .selector .none (.invalidSelectorVariable w) ()
      ⟨[], .origin⟩, n + 1, by simp [hn], fun tail p ht => ?_⟩
    simp only [read, hadvance, hv tail _ ht]
    exact stays_acceptIf _ _

/-- A name in JSON stands for one value, wherever it ends. -/
theorem stays_jsonConstant (w : String) : Stays fun c =>
    if w = "null" then accept .option .none () c
    else accept .boolean (.boolean (w = "true")) () c :=
  stays_accept.ite_apply stays_accept _

theorem onLineAt_jsonConstant {w : String} {line : List Char}
    (hq : (Look.jsonConstant w).holds ⟨line, .origin⟩ = true) :
    OnLineAt (jsonConstant w).read line := by
  have hw : w.length ≤ line.length := by
    have h : line.takeWhile Char.isAlphanum = w.toList := of_decide_eq_true hq
    rw [← String.length_toList, ← h]
    exact (List.takeWhile_prefix _).length_le
  have hskip (tail p) (_ : LineEnd tail) := Cursor.skip_append tail p hw
  exact OnLineAt.ite (onLineAt_moved stays_accept hw hskip)
    (onLineAt_moved stays_accept hw hskip) _

theorem onLineAt_staleBlockData {line : List Char} (hl : '\n' ∉ line) :
    OnLineAt staleBlockData.read line := by
  obtain ⟨v, n, hn, hv⟩ := onLine_integer line hl
  exact onLineAt_moved stays_refuse hn fun tail p ht => by rw [hv tail p ht]

/-- An argument that what was asked before allows keeps to its line. -/
theorem onLineAt (a : Argument) {known : Option Look} (ha : a.FitsAfter known) {line : List Char}
    (hl : '\n' ∉ line) (hq : ∀ l ∈ known, l.holds ⟨line, .origin⟩ = true) :
    OnLineAt a.read line := by
  have htext := onLine_text
  have hinteger := onLine_integer
  have hnumber := onLine_number
  cases a with
  | identifier => exact onLineAt_of_stays onLine_identifier hl fun _ => stays_accept
  | word => exact onLineAt_of_stays onLine_word hl fun _ => stays_accept
  | text role => exact onLineAt_of_stays htext hl fun _ => stays_accept
  | quoted => exact onLineAt_of_stays onLine_quoted hl fun _ => stays_accept
  | quotedKey => exact onLineAt_of_stays onLine_quoted hl fun _ => stays_accept
  | star role => exact onLineAt_of_stays (onLine_symbol (by decide)) hl fun _ => stays_accept
  | boolean => exact onLineAt_of_stays onLine_boolean hl fun _ => stays_accept
  | stateBoolean =>
    exact onLineAt_of_stays onLine_word hl fun _ => stays_accept.ite stays_reject _
  | integer least greatest => exact onLineAt_of_stays hinteger hl fun _ => stays_acceptIf
  | number bounds => exact onLineAt_of_stays hnumber hl fun _ => stays_acceptIf
  | range => exact onLineAt_of_stays onLine_range hl fun _ => stays_accept
  | keyword allowed =>
    exact onLineAt_of_stays onLine_word hl fun _ => stays_accept.ite stays_refuse _
  | booleanOr allowed =>
    exact onLineAt_of_stays onLine_word hl fun _ =>
      stays_decided.ite_apply (stays_decided.ite_apply stays_refuse _) _
  | identifierOr allowed =>
    exact onLineAt_of_stays onLine_identifier hl fun _ =>
      stays_decided.ite_apply stays_decided _
  | textOr allowed => exact onLineAt_of_stays htext hl fun _ => stays_decided
  | line missing =>
    show OnLineAt (of Reader.line fun l => acceptIf (l ≠ "") .string .none missing ()) line
    exact onLineAt_of_stays onLine_line hl fun _ => stays_acceptIf
  | lineOr allowed =>
    show OnLineAt (of Reader.line fun l c =>
      (undecided () c).decided (if l ∈ allowed then .option else .string) .none) line
    exact onLineAt_of_stays onLine_line hl fun _ => stays_decided
  | coordinate earlier => exact onLineAt_of_stays onLine_coordinate hl fun _ => stays_acceptIf
  | selectorCoordinate =>
    exact onLineAt_of_stays onLine_coordinate hl fun _ => stays_acceptIf
  | angle => exact onLineAt_of_stays onLine_angle hl fun _ => stays_accept
  | gameMode => exact onLineAt_of_stays hinteger hl fun _ => stays_acceptIf
  | difficulty => exact onLineAt_of_stays hnumber hl fun _ => stays_acceptIf
  | experience => exact onLineAt_of_stays onLine_experience hl fun _ => stays_accept
  | spreadRange distance =>
    exact onLineAt_of_stays hnumber hl fun _ => stays_reject.ite stays_acceptIf _
  | randomMaximum least => exact onLineAt_of_stays hinteger hl fun _ => stays_acceptIf
  | scoreBound least =>
    refine onLineAt_of_stays onLine_starOrInteger hl fun n? => ?_
    cases n? with
    | none => exact stays_accept
    | some n => exact stays_acceptIf
  | permissionState => exact onLineAt_of_stays onLine_word hl fun _ => stays_acceptIf
  | axes =>
    refine onLineAt_of_stays onLine_word hl fun w => ?_
    cases h : axesError? [] w.toList with
    | none => exact stays_accept
    | some e => exact stays_reject
  | comparison => exact onLineAt_comparison (hq _ ha)
  | scoreOperator => exact onLineAt_scoreOperator
  | selectorVariable => exact onLineAt_selectorVariable hl (hq _ ha)
  | selectorOption allowed =>
    refine onLineAt_of (onLine_word line hl) fun w n _ => ?_
    have hd := notMem_drop hl n
    refine OnLineAt.ite (stays_accept.onLineAt _) ?_ _
    refine onLineAt_moved stays_refuse (Nat.le_refl _) fun tail p ht => ?_
    rw [Cursor.toLineEnd, Cursor.line_append ht hd, Cursor.skip_append _ _ (Nat.le_refl _)]
  | hasitemKey =>
    refine onLineAt_of (onLine_word line hl) fun w n _ => ?_
    have hd := notMem_drop hl n
    refine OnLineAt.ite (stays_accept.onLineAt _) ?_ _
    exact onLineAt_moved stays_reject (separatorOffset_le ..) fun tail p ht =>
      Cursor.toSeparator_append ht hd _
  | hasitemData =>
    exact onLineAt_of_stays hinteger hl fun _ => stays_acceptIf.warnIf _ _
  | blockData => exact onLineAt_of_stays hinteger hl fun _ => stays_acceptIf.warnIf _ _
  | staleBlockData => exact onLineAt_staleBlockData hl
  | jsonNumber => exact onLineAt_of_stays onLine_jsonNumber hl fun _ => stays_accept
  | jsonConstant w => exact onLineAt_jsonConstant (hq _ ha)

theorem ahead_read (a : Argument) {known : Option Look} (ha : a.FitsAfter known) (c : Cursor)
    (hq : ∀ l ∈ known, l.holds ⟨c.line, .origin⟩ = true) : c.Ahead (a.read c).cursor :=
  (a.onLineAt ha c.newline_notMem_line hq).ahead

theorem fitsAfter_keyword (allowed : List String) : (keyword allowed).FitsAfter none :=
  trivial

theorem ahead_keyword (allowed : List String) (c : Cursor) :
    c.Ahead ((keyword allowed).read c).cursor :=
  ahead_read _ (fitsAfter_keyword allowed) c (Look.known_none c)

end Argument
end BedrockCommand
