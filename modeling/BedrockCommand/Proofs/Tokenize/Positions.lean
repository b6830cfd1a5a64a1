import BedrockCommand.Proofs.Argument.Kinds
import BedrockCommand.Proofs.Tokenize.Events
import BedrockCommand.Proofs.Tokenize.Invariant
/-!
Parts of positions are arguments by themselves: no text is glued to them, but for angles that are a
tilde alone.
-/
namespace BedrockCommand

/-- A place in a text that starts at a position. -/
def Cursor.IsIn (cs : List Char) (start : Position) (c : Cursor) : Prop :=
  ∃ before, cs = before ++ c.rest ∧ c.position = start.after before

/-- A piece of a text with nothing glued to it: it ends with a space, or it is followed by a
character that ends a word, or by nothing. A tilde alone may be followed by anything. -/
def IsDetached (piece behind : List Char) : Prop :=
  piece.getLast? = some ' ' ∨ (∀ x ∈ behind.head?, isTerminating x = true) ∨ piece = ['~']

/-- A stretch of a text that is detached from what follows it. -/
def Span.IsDetached (cs : List Char) (start : Position) (s : Span) : Prop :=
  ∃ before piece behind, cs = before ++ piece ++ behind ∧
    s = ⟨start.after before, start.after (before ++ piece)⟩ ∧ BedrockCommand.IsDetached piece behind

variable {cs : List Char} {start : Position} {c d : Cursor}

namespace Cursor.IsIn

theorem ofText (text : String) (start : Position) :
    (Cursor.ofText text start).IsIn text.toList start :=
  ⟨[], rfl, rfl⟩

theorem onward (h : c.IsIn cs start) (ha : c.Ahead d) : d.IsIn cs start := by
  obtain ⟨before, hcs, hp⟩ := h
  obtain ⟨piece, -, hr, hp'⟩ := ha
  refine ⟨before ++ piece, by rw [hcs, hr, List.append_assoc], ?_⟩
  rw [hp', hp, Position.after_append]

theorem newline (h : c.IsIn cs start) (hn : c.isAt '\n' = true) : c.advance.IsIn cs start := by
  obtain ⟨before, hcs, hp⟩ := h
  obtain ⟨rest, hr⟩ := Cursor.isAt_iff.mp hn
  refine ⟨before ++ ['\n'], by simp [hcs, hr, Cursor.advance_of_rest hr], ?_⟩
  rw [Cursor.advance_of_rest hr, hp, Position.after_append]
  rfl

/-- An argument that ends, or that is a tilde alone, is detached from what follows it. -/
theorem isDetached (h : c.IsIn cs start) (ha : c.Ahead d)
    (he : c.EndsArgument d ∨ c.rest = '~' :: d.rest) :
    Span.IsDetached cs start ⟨c.position, d.position⟩ := by
  obtain ⟨before, hcs, hp⟩ := h
  obtain ⟨piece, -, hr, hp'⟩ := ha
  refine ⟨before, piece, d.rest, by rw [hcs, hr, List.append_assoc], ?_, ?_⟩
  · rw [hp', hp, Position.after_append]
  rcases he with (hterminated | ⟨ds, hds⟩) | htilde
  · refine .inr (.inl fun x hx => ?_)
    obtain ⟨rest, hrest⟩ := List.head?_eq_some_iff.mp hx
    simpa [Cursor.terminated, hrest] using hterminated
  · have hpiece : piece = ds ++ [' '] := by
      rw [hr, List.append_cons] at hds
      exact List.append_cancel_right hds
    exact .inl (by simp [hpiece])
  · have hpiece : piece ++ d.rest = ['~'] ++ d.rest := hr.symm.trans htilde
    exact .inr (.inr (List.append_cancel_right hpiece))

end Cursor.IsIn

/-- Events whose positions are detached from what follows them in a text. -/
def Event.Detached (cs : List Char) (start : Position) (es : List Event) : Prop :=
  ∀ t, .token t ∈ es → t.kind = .position → t.span.IsDetached cs start

namespace Event.Detached

theorem append {es fs : List Event} (h : Detached cs start es) (h' : Detached cs start fs) :
    Detached cs start (es ++ fs) :=
  fun t ht => (List.mem_append.mp ht).elim (h t) (h' t)

theorem token {t : Token} (h : t.kind = .position → t.span.IsDetached cs start) :
    Detached cs start [.token t] := by
  intro u hu
  obtain rfl := Event.token.inj (List.mem_singleton.mp hu)
  exact h

theorem invariant {R : Cursor → Prop} {allowed : Argument → Bool}
    (hR : ∀ {c d : Cursor}, R c → c.Ahead d → R d)
    (ha : ∀ {a : Argument} {c : Cursor}, R c → allowed a = true → c.Ahead (a.read c).cursor →
      (a.read c).kind = some .position →
        Span.IsDetached cs start ⟨c.position, (a.read c).cursor.position⟩) :
    Event.Invariant R allowed (Detached cs start) where
  nil := fun _ h => by simp at h
  append := append
  error _ _ := token (by simp)
  warning _ := fun _ h => by simp at h
  notice _ := fun _ h => by simp at h
  json _ := fun _ h => by simp at h
  onward := hR
  argument {a known c kind} hc hallowed hf hq hk :=
    token fun hkind => ha hc hallowed (a.ahead_read hf c hq) (hkind ▸ hk)

end Event.Detached

/-- Keywords, comments and what is left of a line are no parts of positions. -/
theorem Event.Detached.textInvariant (version : Version) (cs : List Char) (start : Position) :
    Event.TextInvariant version (Cursor.IsIn cs start) (Event.Detached cs start) := by
  have hp (allowed : Argument → Bool) :
      Event.Invariant (Cursor.IsIn cs start) allowed (Event.Detached cs start) :=
    invariant .onward fun hc _ ha hk =>
      hc.isDetached ha ((Argument.endsArgument_read hk).imp_right And.right)
  have hkeyword {typed : String} {c d : Cursor} (hw : Reader.word c = (.ok typed, d)) :
      (Step.keyword (Grammar.canonicalName typed) typed c d).Keeps (Event.Detached cs start) := by
    rw [Step.keyword_ahead (Reader.ahead_word hw)]
    exact (hp fun _ => true).append ((hp fun _ => true).notice _)
      (append (token (by simp)) (Step.Keeps.warnings (hp fun _ => true) _ _))
  exact {
    toInvariant := hp _
    embedded := invariant (fun _ _ => trivial) fun _ ha _ hk =>
      absurd hk (Argument.kind_ne_position_of_isJson ha _)
    newline := .newline
    comment := fun _ _ => by
      rw [Step.Keeps, readComment_eq]
      exact token (by simp)
    keyword := fun _ => hkeyword
    wsserver := fun {typed c d} hc hw _ env => by
      refine (hkeyword hw).andThen (hp fun _ => true) fun _ => ?_
      have hahead := Reader.ahead_word hw
      rw [Step.keyword_ahead hahead]
      have hfits : (Argument.lineOr ["out"]).FitsAfter none := trivial
      exact .argument (hp fun _ => true) rfl hfits (by simp) (hc.onward hahead) fun _ _ =>
        .silent (hp fun _ => true) rfl }

/-- In a text without line breaks that starts a line, a piece lies between two columns, and the rest
behind the second one. -/
theorem Position.eq_of_columns {before piece behind : List Char} {line a b : Nat}
    (hn : '\n' ∉ cs) (hcs : cs = before ++ piece ++ behind)
    (hstart : (Position.after ⟨line, 0⟩ before).column = a)
    (hstop : (Position.after ⟨line, 0⟩ (before ++ piece)).column = b) :
    piece = (cs.take b).drop a ∧ behind = cs.drop b := by
  have hnpiece : '\n' ∉ before ++ piece := fun h => hn (hcs ▸ List.mem_append_left _ h)
  have hnbefore : '\n' ∉ before := fun h => hnpiece (List.mem_append_left _ h)
  rw [Position.after_of_notMem hnbefore] at hstart
  rw [Position.after_of_notMem hnpiece] at hstop
  have hbefore : before.length = a := by simpa using hstart
  have hpiece : (before ++ piece).length = b := by simpa using hstop
  rw [hcs, ← hpiece, List.take_left, List.drop_left, ← hbefore, List.drop_left]
  exact ⟨rfl, rfl⟩

/-- Every part of a position ends with a space, or is followed by a character that ends a word or by
the end of the text, unless it is a tilde alone; and of all arguments, only an angle is ever read as
a tilde alone that something else follows. -/
theorem tokenize_positions (text : String) (start : Position) (version : Version) :
    (∃ result, tokenize text start version = .ok result ∧
      ∀ t ∈ result.tokens, t.kind = .position → ∃ before piece behind,
        text.toList = before ++ piece ++ behind ∧
        t.span = ⟨start.after before, start.after (before ++ piece)⟩ ∧
        (piece.getLast? = some ' ' ∨ (∀ x ∈ behind.head?, isTerminating x = true) ∨
          piece = ['~'])) ∧
    ∀ (a : Argument) (c : Cursor), (a.read c).kind = some .position →
      c.EndsArgument (a.read c).cursor ∨ a = .angle ∧ c.rest = '~' :: (a.read c).cursor.rest := by
  have hdetached : Event.Detached text.toList start (readText text start version).events :=
    keeps_readText (Event.Detached.textInvariant version _ start) (.ofText text start)
  exact ⟨⟨_, tokenize_eq .., fun t ht => hdetached t (Tokenized.mem_tokens.mp ht)⟩,
    fun _ _ => Argument.endsArgument_read⟩

/-- The last angle of a rotation is a tilde with a word glued to it. -/
theorem tokenize_positions_differs :
    ¬ ∀ (text : String) (start : Position) (version : Version),
      ∃ result, tokenize text start version = .ok result ∧
        ∀ t ∈ result.tokens, t.kind = .position → ∃ before piece behind,
          text.toList = before ++ piece ++ behind ∧
          t.span = ⟨start.after before, start.after (before ++ piece)⟩ ∧
          (piece.getLast? = some ' ' ∨ ∀ x ∈ behind.head?, isTerminating x = true) := by
  intro h
  have htoken : .position ∈ ((readText "tp @s 0 0 0 ~ ~true" ⟨1, 0⟩ .latest).tokens.filter
      (·.span = ⟨⟨1, 14⟩, ⟨1, 15⟩⟩)).map Token.kind := by
    decide +kernel
  obtain ⟨t, ht, hkind⟩ := List.mem_map.mp htoken
  obtain ⟨hmem, hspan⟩ := List.mem_filter.mp ht
  obtain ⟨result, hresult, hall⟩ := h "tp @s 0 0 0 ~ ~true" ⟨1, 0⟩ .latest
  obtain rfl := Except.ok.inj ((tokenize_eq ..).symm.trans hresult)
  obtain ⟨before, piece, behind, htext, hplaces, hend⟩ := hall t hmem hkind
  have hcolumns := hplaces.symm.trans (of_decide_eq_true hspan)
  obtain ⟨hstart, hstop⟩ := Span.mk.inj hcolumns
  obtain ⟨htilde, htrue⟩ := Position.eq_of_columns (by decide) htext
    (congrArg Position.column hstart) (congrArg Position.column hstop)
  rw [htilde, htrue] at hend
  rcases hend with hlast | hhead
  · exact absurd hlast (by decide)
  · exact absurd (hhead 't' rfl) (by decide)

end BedrockCommand
