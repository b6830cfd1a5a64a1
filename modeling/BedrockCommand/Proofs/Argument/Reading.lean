import BedrockCommand.Proofs.Argument.OnLine
import BedrockCommand.Proofs.Reader.Forward
/-!
What every reading of an argument has: a kind, whether the text is as wanted or not, an answer only
of the sort that was asked for, and a warning only if it has read something.
-/
namespace BedrockCommand

namespace Reading

/-- Whether an argument may become a token of a kind. -/
def isArgument : Option TokenKind → Bool
  | some .comment => false
  | some .command => false
  | some _ => true
  | none => false

theorem isArgument_role (role : Role) : isArgument (some role.kind) = true := by
  cases role <;> rfl

/-- A reading from a cursor that has the kind of an argument, and a warning only if it has read
something. -/
structure Proper (c : Cursor) (r : Reading α) : Prop where
  kind : isArgument r.kind = true
  warned : r.warning = none ∨ r.cursor.rest.length < c.rest.length

variable {c : Cursor}

theorem proper_accept {kind : TokenKind} (hk : isArgument (some kind) = true)
    {value : TokenValue} {x : α} {d : Cursor} : Proper c (accept kind value x d) :=
  ⟨hk, .inl rfl⟩

theorem proper_reject {e : SyntaxError} {x : α} {d : Cursor} : Proper c (reject e x d) :=
  ⟨rfl, .inl rfl⟩

theorem proper_refuse {e : SyntaxError} {d : Cursor} : Proper c (refuse e d : Reading α) :=
  ⟨rfl, .inl rfl⟩

theorem proper_acceptIf {test : Bool} {kind : TokenKind} (hk : isArgument (some kind) = true)
    {value : TokenValue} {e : SyntaxError} {x : α} {d : Cursor} :
    Proper c (acceptIf test kind value e x d) := by
  cases test
  · exact proper_reject
  · exact proper_accept hk

theorem Proper.warnIf {r : Reading α} (h : Proper c r) (hlt : r.cursor.rest.length < c.rest.length)
    (test : Bool) (w : WarningKind) : Proper c (r.warnIf test w) := by
  cases test
  · exact h
  · exact ⟨h.kind, .inr hlt⟩

/-- A reader that fails makes the token an error, so that only what the reader gives has to be
judged. -/
theorem proper_of {r : Reader β} {judge : β → Cursor → Reading α}
    (h : ∀ x d, r c = (.ok x, d) → Proper c (judge x d)) : Proper c (of r judge c) := by
  unfold of
  split
  · next x d hr => exact h x d hr
  · exact proper_refuse

theorem proper_data {n : Int} {d : Cursor} (h : Reader.integer c = (.ok n, d)) (test : Bool)
    (w : WarningKind) : Proper c ((acceptIf (Argument.isData n) .number (Argument.integerValue n)
      Argument.dataError () d).warnIf test w) := by
  refine (proper_acceptIf rfl).warnIf ?_ _ _
  have hlt := Reader.movesOn_integer c n d h
  cases Argument.isData n <;> exact hlt

end Reading

namespace Argument

open Reading

theorem proper_read (a : Argument) (c : Cursor) : Proper c (a.read c) := by
  cases a with
  | identifier | word | quoted | quotedKey | boolean | range | angle | experience | jsonNumber =>
    exact proper_of fun _ _ _ => proper_accept rfl
  | text role | star role => exact proper_of fun _ _ _ => proper_accept (isArgument_role role)
  | integer | number | coordinate | selectorCoordinate | gameMode | difficulty
  | randomMaximum | permissionState => exact proper_of fun _ _ _ => proper_acceptIf rfl
  | hasitemData | blockData => exact proper_of fun _ _ h => proper_data h _ _
  | line missing => exact proper_of (r := Reader.line) fun _ _ _ => proper_acceptIf rfl
  | lineOr allowed =>
    show Proper c (of Reader.line (fun l d =>
      (undecided () d).decided (if l ∈ allowed then .option else .string) .none) c)
    refine proper_of fun l d _ => ⟨?_, .inl rfl⟩
    by_cases hl : l ∈ allowed <;> simp [decided, hl, isArgument]
  | stateBoolean | keyword | booleanOr | identifierOr | textOr | selectorOption | hasitemKey =>
    refine proper_of fun x d _ => ?_
    repeat' split
    all_goals exact ⟨rfl, .inl rfl⟩
  | spreadRange distance =>
    refine proper_of fun x d _ => ?_
    split
    · exact proper_reject
    · exact proper_acceptIf rfl
  | scoreBound least =>
    refine proper_of fun n? d _ => ?_
    cases n? with
    | none => exact proper_accept rfl
    | some n => exact proper_acceptIf rfl
  | axes =>
    refine proper_of fun w d _ => ?_
    cases axesError? [] w.toList with
    | none => exact proper_accept rfl
    | some e => exact proper_reject
  | scoreOperator =>
    simp only [read]
    split
    · exact proper_accept rfl
    · exact proper_refuse
  | selectorVariable =>
    simp only [read]
    split
    · exact proper_acceptIf rfl
    · exact proper_reject
  | jsonConstant w =>
    simp only [read]
    split
    · exact proper_accept rfl
    · exact proper_accept rfl
  | comparison => exact proper_accept rfl
  | staleBlockData => exact proper_refuse

theorem exists_kind_read (a : Argument) (c : Cursor) : ∃ kind, (a.read c).kind = some kind := by
  have h := (a.proper_read c).kind
  cases hk : (a.read c).kind with
  | none => simp [hk, isArgument] at h
  | some kind => exact ⟨kind, rfl⟩

/-- What an answer is known to be: the name of a selector option is one of those asked for. -/
def Answers : (a : Argument) → a.Answer → Prop
  | selectorOption allowed, name => name ∈ allowed
  | _, _ => True

theorem answers_of_read {a : Argument} {c : Cursor} {x : a.Answer}
    (h : (a.read c).answer = some x) : a.Answers x := by
  cases a with
  | selectorOption allowed =>
    simp only [read, of] at h
    split at h
    · split at h
      · next hw => exact Option.some.inj h ▸ hw
      · simp [refuse] at h
    · simp [refuse] at h
  | _ => trivial

/-- A keyword that is answered has been read. -/
theorem length_lt_of_keyword {allowed : List String} {c : Cursor} {w : String}
    (h : ((keyword allowed).read c).answer = some w) :
    ((keyword allowed).read c).cursor.rest.length < c.rest.length := by
  simp only [read, of] at h ⊢
  split
  · next x d hw =>
    have := Reader.movesOn_word c x d hw
    split
    · exact this
    · exact this
  · next e d hw => simp [hw, refuse] at h

/-- A keyword that is answered takes a character from the line, even if what is behind it takes
none. -/
theorem length_line_lt_of_keyword {allowed : List String} {c d : Cursor} {w : String}
    (h : ((keyword allowed).read c).answer = some w)
    (hd : ((keyword allowed).read c).cursor.Ahead d) : d.line.length < c.line.length := by
  have := length_lt_of_keyword h
  have := (ahead_keyword allowed c).length_line
  have := hd.length_line_le
  omega

end Argument
end BedrockCommand
