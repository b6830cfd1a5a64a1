import BedrockCommand.Proofs.Argument.Reading
import BedrockCommand.Proofs.Reader.Ends
import BedrockCommand.Proofs.Rule.Orderly
/-!
The kinds of tokens that arguments become. Coordinates and angles alone become parts of positions,
and each ends its argument, but for an angle that is a tilde alone.
-/
namespace BedrockCommand

namespace Reading

/-- A reading of a token of some kinds, or of an error. -/
def OfKinds (kinds : List TokenKind) (r : Reading α) : Prop :=
  ∀ kind ∈ r.kind, kind = .error ∨ kind ∈ kinds

section

variable {kinds : List TokenKind} {kind : TokenKind} {value : TokenValue} {x : α}
  {e : SyntaxError} {c : Cursor}

theorem ofKinds_accept (h : kind ∈ kinds) : (accept kind value x c).OfKinds kinds :=
  fun _ hk => .inr (Option.some.inj hk ▸ h)

theorem ofKinds_decided (h : kind ∈ kinds) :
    ((undecided x c).decided kind value).OfKinds kinds :=
  fun _ hk => .inr (Option.some.inj hk ▸ h)

theorem ofKinds_reject : (reject e x c).OfKinds kinds :=
  fun _ hk => .inl (Option.some.inj hk).symm

theorem ofKinds_refuse : (refuse e c : Reading α).OfKinds kinds :=
  fun _ hk => .inl (Option.some.inj hk).symm

theorem ofKinds_acceptIf {test : Bool} (h : kind ∈ kinds) :
    (acceptIf test kind value e x c).OfKinds kinds := by
  cases test with
  | true => exact ofKinds_accept h
  | false => exact ofKinds_reject

theorem OfKinds.warnIf {r : Reading α} (h : r.OfKinds kinds) (test : Bool) (w : WarningKind) :
    (r.warnIf test w).OfKinds kinds := by
  cases test <;> exact h

theorem ofKinds_of {r : Reader β} {judge : β → Cursor → Reading α}
    (h : ∀ x d, (judge x d).OfKinds kinds) : (of r judge c).OfKinds kinds := by
  unfold of
  split
  · exact h _ _
  · exact ofKinds_refuse

/-- What is not an error was read by the reader, and judged where it ended. -/
theorem exists_of_kind {r : Reader β} {judge : β → Cursor → Reading α}
    (hj : ∀ x, Stays (judge x)) (hk : (of r judge c).kind ≠ some .error) :
    ∃ x, r c = (.ok x, (of r judge c).cursor) := by
  rcases h : r c with ⟨_ | x, d⟩
  · simp [of, h, refuse] at hk
  · simp only [of, h]
    exact ⟨x, by rw [(hj x).cursor]⟩

end
end Reading

namespace Argument

open Reading Reader

/-- The kinds of tokens that an argument may become, apart from errors. -/
def kinds : Argument → List TokenKind
  | identifier | word | quoted | line _ => [.string]
  | quotedKey | keyword _ | gameMode | difficulty | permissionState | axes | comparison
  | scoreOperator | selectorOption _ | hasitemKey => [.option]
  | text role | star role => [role.kind]
  | boolean | stateBoolean => [.boolean]
  | integer .. | number _ | range | experience | spreadRange _ | randomMaximum _ | scoreBound _
  | hasitemData | blockData | jsonNumber => [.number]
  | booleanOr _ | jsonConstant _ => [.option, .boolean]
  | identifierOr _ | textOr _ | lineOr _ => [.option, .string]
  | coordinate _ | selectorCoordinate | angle => [.position]
  | selectorVariable => [.selector]
  | staleBlockData => []

theorem ofKinds_read (a : Argument) (c : Cursor) : (a.read c).OfKinds a.kinds := by
  have hone {kind : TokenKind} {more : List TokenKind} : kind ∈ kind :: more :=
    List.mem_cons_self ..
  have htwo {first kind : TokenKind} : kind ∈ [first, kind] :=
    List.mem_cons_of_mem _ (List.mem_singleton_self kind)
  cases a with
  | identifier | word | quoted | quotedKey | boolean | range | experience | jsonNumber | text
  | star | angle => exact ofKinds_of fun _ _ => ofKinds_accept hone
  | integer | number | gameMode | difficulty | randomMaximum | permissionState | coordinate
  | selectorCoordinate => exact ofKinds_of fun _ _ => ofKinds_acceptIf hone
  | hasitemData | blockData => exact ofKinds_of fun _ _ => (ofKinds_acceptIf hone).warnIf _ _
  | line missing =>
    exact ofKinds_of (r := Reader.line) (c := c) fun _ _ => ofKinds_acceptIf hone
  | textOr allowed =>
    refine ofKinds_of fun w d => ofKinds_decided ?_
    split
    · exact hone
    · exact htwo
  | lineOr allowed =>
    refine ofKinds_of (r := Reader.line) (c := c) fun l d => ofKinds_decided ?_
    split
    · exact hone
    · exact htwo
  | stateBoolean | hasitemKey =>
    refine ofKinds_of fun w d => ?_
    split
    · exact ofKinds_accept hone
    · exact ofKinds_reject
  | keyword allowed | selectorOption allowed =>
    refine ofKinds_of fun w d => ?_
    split
    · exact ofKinds_accept hone
    · exact ofKinds_refuse
  | booleanOr allowed =>
    refine ofKinds_of fun w d => ?_
    split
    · exact ofKinds_decided hone
    split
    · exact ofKinds_decided htwo
    · exact ofKinds_refuse
  | identifierOr allowed =>
    refine ofKinds_of fun w d => ?_
    split
    · exact ofKinds_decided hone
    · exact ofKinds_decided htwo
  | spreadRange distance =>
    refine ofKinds_of fun x d => ?_
    split
    · exact ofKinds_reject
    · exact ofKinds_acceptIf hone
  | scoreBound least =>
    refine ofKinds_of fun n? d => ?_
    cases n? with
    | none => exact ofKinds_accept hone
    | some n => exact ofKinds_acceptIf hone
  | axes =>
    refine ofKinds_of fun w d => ?_
    cases axesError? [] w.toList with
    | none => exact ofKinds_accept hone
    | some e => exact ofKinds_reject
  | comparison => exact ofKinds_accept hone
  | scoreOperator =>
    simp only [read]
    split
    · exact ofKinds_accept hone
    · exact ofKinds_refuse
  | selectorVariable =>
    simp only [read]
    split
    · exact ofKinds_acceptIf hone
    · exact ofKinds_reject
  | staleBlockData => exact ofKinds_refuse
  | jsonConstant w =>
    simp only [read]
    split
    · exact ofKinds_accept hone
    · exact ofKinds_accept htwo

/-- What is read as a part of a position ends its argument, unless it is an angle that is a tilde
alone. -/
theorem endsArgument_read {a : Argument} {c : Cursor} (hk : (a.read c).kind = some .position) :
    c.EndsArgument (a.read c).cursor ∨
      a = .angle ∧ c.rest = '~' :: (a.read c).cursor.rest := by
  have hne : (a.read c).kind ≠ some .error := by simp [hk]
  have hmem : TokenKind.position ∈ a.kinds :=
    (ofKinds_read a c .position hk).resolve_left (by decide)
  cases a with
  | coordinate earlier =>
    obtain ⟨x, h⟩ := exists_of_kind (fun _ => stays_acceptIf) hne
    exact .inl (ends_coordinate c x _ h)
  | selectorCoordinate =>
    obtain ⟨x, h⟩ := exists_of_kind (fun _ => stays_acceptIf) hne
    exact .inl (ends_coordinate c x _ h)
  | angle =>
    obtain ⟨x, h⟩ := exists_of_kind (fun _ => stays_accept) hne
    exact (angle_ends h).imp_right fun htilde => ⟨rfl, htilde⟩
  | text role | star role => cases role <;> simp [kinds, Role.kind] at hmem
  | _ => simp [kinds] at hmem

/-- No part of a position stands in a JSON text. -/
theorem kind_ne_position_of_isJson {a : Argument} (h : a.isJson = true) (c : Cursor) :
    (a.read c).kind ≠ some .position := by
  intro hk
  have hmem := (ofKinds_read a c .position hk).resolve_left (by decide)
  cases a with
  | quoted | quotedKey | jsonNumber | jsonConstant => simp [kinds] at hmem
  | _ => simp [isJson] at h

end Argument
end BedrockCommand
