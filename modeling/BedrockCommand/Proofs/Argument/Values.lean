import BedrockCommand.Grammar.Table
import BedrockCommand.Proofs.Argument.Reading
/-!
What tokens are: the value of a token belongs to its kind, and a token with a warning is what the
warning says. Both hold of every argument, whatever its text.
-/
namespace BedrockCommand

/-- What the value of a token of some kind can be, if commands go by some names. -/
inductive TokenKind.HasValue (isName : String → Prop) : TokenKind → TokenValue → Prop where
  | error (e : SyntaxError) : HasValue isName .error (.error e)
  | command {name : String} (h : isName name) : HasValue isName .command (.command name)
  | boolean (b : Bool) : HasValue isName .boolean (.boolean b)
  | number (x : Binary64) : HasValue isName .number (.number x)
  /-- A range, or a bound that is no number. -/
  | bounds : HasValue isName .number .none
  | option : HasValue isName .option .none
  /-- An option by its number. -/
  | numbered (x : Binary64) : HasValue isName .option (.number x)
  | comment : HasValue isName .comment .none
  | string : HasValue isName .string .none
  | selector : HasValue isName .selector .none
  | scoreboard : HasValue isName .scoreboard .none
  | tag : HasValue isName .tag .none
  | position : HasValue isName .position .none

/-- What a token is that has a warning. -/
inductive WarningKind.Flags : WarningKind → TokenKind → TokenValue → Prop where
  | restricted {name : String} (h : name ∈ Grammar.restricted) (typed : String) :
    Flags (.noPermission typed) .command (.command name)
  | negative : Flags .negativeHasitemData .number (.number (.ofInt (-1)))
  | data {n : Int} (hl : -1 ≤ n) (hg : n ≤ 32767) : Flags .blockData .number (.number (.ofInt n))
  /-- An integer that is no data value. -/
  | outside : Flags .blockData .error (.error (.outOfRange (.ofInt (-1)) (some (.ofInt 32767))))

namespace TokenKind.HasValue

variable {isName : String → Prop}

theorem role (role : Role) : role.kind.HasValue isName .none := by
  cases role with
  | string => exact .string
  | selector => exact .selector
  | scoreboard => exact .scoreboard
  | tag => exact .tag

/-- Errors are the tokens that say what is wrong. -/
theorem error?_isSome {t : Token} (h : t.kind.HasValue isName t.value) :
    t.error?.isSome = t.isError := by
  obtain ⟨kind, value, span⟩ := t
  cases h <;> rfl

end TokenKind.HasValue

/-! ## Arguments -/

namespace Reading

variable {isName : String → Prop}

/-- A reading whose kind and value belong together, and about which there is no warning. -/
structure Plain (isName : String → Prop) (r : Reading α) : Prop where
  value : ∀ kind ∈ r.kind, kind.HasValue isName r.value
  silent : r.warning = none

theorem plain_decided {kind : TokenKind} {value : TokenValue} (h : kind.HasValue isName value)
    {x : α} {c : Cursor} : ((undecided x c).decided kind value).Plain isName :=
  ⟨fun _ hk => Option.some.inj hk ▸ h, rfl⟩

theorem plain_accept {kind : TokenKind} {value : TokenValue} (h : kind.HasValue isName value)
    {x : α} {c : Cursor} : (accept kind value x c).Plain isName :=
  ⟨fun _ hk => Option.some.inj hk ▸ h, rfl⟩

theorem plain_reject {e : SyntaxError} {x : α} {c : Cursor} :
    (reject e x c).Plain isName :=
  ⟨fun _ hk => Option.some.inj hk ▸ .error e, rfl⟩

theorem plain_refuse {e : SyntaxError} {c : Cursor} :
    (refuse e c : Reading α).Plain isName :=
  ⟨fun _ hk => Option.some.inj hk ▸ .error e, rfl⟩

theorem plain_acceptIf {test : Bool} {kind : TokenKind} {value : TokenValue}
    (h : kind.HasValue isName value) {e : SyntaxError} {x : α} {c : Cursor} :
    (acceptIf test kind value e x c).Plain isName := by
  cases test with
  | true => exact plain_accept h
  | false => exact plain_reject

theorem kind_warnIf (r : Reading α) (test : Bool) (w : WarningKind) :
    (r.warnIf test w).kind = r.kind := by
  cases test <;> rfl

theorem value_warnIf (r : Reading α) (test : Bool) (w : WarningKind) :
    (r.warnIf test w).value = r.value := by
  cases test <;> rfl

theorem plain_of {r : Reader β} {judge : β → Cursor → Reading α} {c : Cursor}
    (h : ∀ x d, (judge x d).Plain isName) : (of r judge c).Plain isName := by
  unfold of
  split
  · exact h _ _
  · exact plain_refuse

end Reading

namespace Argument

open Reading

/-- The warning that there may be about an argument. -/
def warning? : Argument → Option WarningKind
  | hasitemData => some .negativeHasitemData
  | blockData => some .blockData
  | _ => none

/-- All arguments but data values go without warnings. -/
theorem plain_read {isName : String → Prop} {a : Argument} (ha : a.warning? = none) (c : Cursor) :
    (a.read c).Plain isName := by
  cases a with
  | identifier | word | quoted => exact plain_of fun _ _ => plain_accept .string
  | quotedKey => exact plain_of fun _ _ => plain_accept .option
  | text role | star role => exact plain_of fun _ _ => plain_accept (.role role)
  | boolean => exact plain_of fun _ _ => plain_accept (.boolean _)
  | range => exact plain_of fun _ _ => plain_accept .bounds
  | angle => exact plain_of fun _ _ => plain_accept .position
  | experience | jsonNumber => exact plain_of fun _ _ => plain_accept (.number _)
  | integer | number | randomMaximum =>
    exact plain_of fun _ _ => plain_acceptIf (.number _)
  | coordinate | selectorCoordinate => exact plain_of fun _ _ => plain_acceptIf .position
  | gameMode | permissionState => exact plain_of fun _ _ => plain_acceptIf .option
  | difficulty => exact plain_of fun _ _ => plain_acceptIf (.numbered _)
  | hasitemData | blockData => simp [warning?] at ha
  | line missing => exact plain_of (r := Reader.line) (c := c) fun _ _ => plain_acceptIf .string
  | stateBoolean =>
    refine plain_of fun w d => ?_
    split
    · exact plain_accept (.boolean _)
    · exact plain_reject
  | keyword allowed | selectorOption allowed =>
    refine plain_of fun w d => ?_
    split
    · exact plain_accept .option
    · exact plain_refuse
  | booleanOr allowed =>
    refine plain_of fun w d => ?_
    split
    · exact plain_decided .option
    split
    · exact plain_decided (.boolean _)
    · exact plain_refuse
  | identifierOr allowed =>
    refine plain_of fun w d => ?_
    split
    · exact plain_decided .option
    · exact plain_decided .string
  | textOr allowed =>
    refine plain_of fun w d => plain_decided ?_
    split
    · exact .option
    · exact .string
  | lineOr allowed =>
    refine plain_of (r := Reader.line) (c := c) fun l d => plain_decided ?_
    by_cases hl : c.lineText ∈ allowed
    · rw [if_pos hl]
      exact .option
    · rw [if_neg hl]
      exact .string
  | spreadRange distance =>
    refine plain_of fun x d => ?_
    split
    · exact plain_reject
    · exact plain_acceptIf (.number x)
  | scoreBound least =>
    refine plain_of fun n? d => ?_
    cases n? with
    | none => exact plain_accept .bounds
    | some n => exact plain_acceptIf (.number _)
  | axes =>
    refine plain_of fun w d => ?_
    cases axesError? [] w.toList with
    | none => exact plain_accept .option
    | some e => exact plain_reject
  | comparison => exact plain_accept .option
  | scoreOperator =>
    simp only [read]
    split
    · exact plain_accept .option
    · exact plain_refuse
  | selectorVariable =>
    simp only [read]
    split
    · exact plain_acceptIf .selector
    · exact plain_reject
  | hasitemKey =>
    refine plain_of fun w d => ?_
    split
    · exact plain_accept .option
    · exact plain_reject
  | staleBlockData => exact plain_refuse
  | jsonConstant w =>
    simp only [read]
    split
    · exact plain_accept .option
    · exact plain_accept (.boolean _)

theorem isData_iff {n : Int} : isData n = true ↔ -1 ≤ n ∧ n ≤ 32767 := by
  simp [isData, liesIn]

/-- Reads a data value, with a warning about some of them. -/
def readData (warns : Int → Bool) (w : WarningKind) : Cursor → Reading Unit :=
  of Reader.integer fun n d =>
    (acceptIf (isData n) .number (integerValue n) dataError () d).warnIf (warns n) w

theorem hasitemData_eq_readData :
    hasitemData.read = readData (fun n => isData n && n < 0) .negativeHasitemData := rfl

theorem blockData_eq_readData : blockData.read = readData (fun _ => true) .blockData := rfl

section

variable {warns : Int → Bool} {w : WarningKind}

/-- A data value, an integer that is none, or no integer at all. -/
theorem readData_cases (warns : Int → Bool) (w : WarningKind) (c : Cursor) :
    (∃ n d, -1 ≤ n ∧ n ≤ 32767 ∧
      readData warns w c = (accept .number (integerValue n) () d).warnIf (warns n) w) ∨
    (∃ n d, isData n = false ∧ readData warns w c = (reject dataError () d).warnIf (warns n) w) ∨
    ∃ e d, readData warns w c = refuse e d := by
  unfold readData of
  split
  · next n d _ =>
    cases hn : isData n with
    | true =>
      obtain ⟨hl, hg⟩ := isData_iff.mp hn
      exact .inl ⟨n, d, hl, hg, by simp only [hn]; rfl⟩
    | false => exact .inr (.inl ⟨n, d, hn, by simp only [hn]; rfl⟩)
  · next e d _ => exact .inr (.inr ⟨e, d, rfl⟩)

theorem hasValue_readData {isName : String → Prop} {c : Cursor} :
    ∀ kind ∈ (readData warns w c).kind, kind.HasValue isName (readData warns w c).value := by
  rcases readData_cases warns w c with ⟨n, d, -, -, heq⟩ | ⟨n, d, -, heq⟩ | ⟨e, d, heq⟩
  · rw [heq, kind_warnIf, value_warnIf]
    exact (plain_accept (.number _)).value
  · rw [heq, kind_warnIf, value_warnIf]
    exact plain_reject.value
  · rw [heq]
    exact plain_refuse.value

/-- A warning about a data value means that there is an integer. -/
theorem exists_of_warning_readData {c : Cursor} {k : WarningKind}
    (h : (readData warns w c).warning = some k) : k = w ∧ ∃ n, warns n = true ∧
      ((-1 ≤ n ∧ n ≤ 32767 ∧ (readData warns w c).kind = some .number ∧
          (readData warns w c).value = integerValue n) ∨
        (isData n = false ∧ (readData warns w c).kind = some .error ∧
          (readData warns w c).value = .error dataError)) := by
  rcases readData_cases warns w c with ⟨n, d, hl, hg, heq⟩ | ⟨n, d, hn, heq⟩ | ⟨e, d, heq⟩
  · rw [heq] at h ⊢
    cases hw : warns n with
    | true =>
      rw [hw] at h
      exact ⟨(Option.some.inj h).symm, n, hw, .inl ⟨hl, hg, rfl, rfl⟩⟩
    | false => simp [hw, warnIf, accept] at h
  · rw [heq] at h ⊢
    cases hw : warns n with
    | true =>
      rw [hw] at h
      exact ⟨(Option.some.inj h).symm, n, hw, .inr ⟨hn, rfl, rfl⟩⟩
    | false => simp [hw, warnIf, reject] at h
  · simp [heq, refuse] at h

end

/-- The value of an argument belongs to its kind. -/
theorem hasValue_read {isName : String → Prop} (a : Argument) (c : Cursor) :
    ∀ kind ∈ (a.read c).kind, kind.HasValue isName (a.read c).value := by
  cases hw : a.warning? with
  | none => exact (plain_read hw c).value
  | some w =>
    cases a with
    | hasitemData => exact hasitemData_eq_readData ▸ hasValue_readData
    | blockData => exact blockData_eq_readData ▸ hasValue_readData
    | _ => simp [warning?] at hw

/-- A warning about an argument says what the argument is. -/
theorem flags_read {a : Argument} {c : Cursor} {w : WarningKind} {kind : TokenKind}
    (h : (a.read c).warning = some w) (hk : (a.read c).kind = some kind) :
    a.warning? = some w ∧ w.Flags kind (a.read c).value := by
  cases hw : a.warning? with
  | none =>
    have hplain : (a.read c).Plain fun _ => False := plain_read hw c
    simp [hplain.silent] at h
  | some v =>
    cases a with
    | hasitemData =>
      rw [hasitemData_eq_readData] at h hk ⊢
      obtain ⟨rfl, n, hn, ⟨hl, -, hk', hv⟩ | ⟨hd, -⟩⟩ := exists_of_warning_readData h
      · -- Among data values, minus one alone is negative.
        obtain rfl : n = -1 := by
          simp only [Bool.and_eq_true, decide_eq_true_eq] at hn
          omega
        obtain rfl := Option.some.inj (hk'.symm.trans hk)
        exact ⟨hw.symm.trans rfl, hv ▸ .negative⟩
      · simp [hd] at hn
    | blockData =>
      rw [blockData_eq_readData] at h hk ⊢
      obtain ⟨rfl, n, -, ⟨hl, hg, hk', hv⟩ | ⟨-, hk', hv⟩⟩ := exists_of_warning_readData h
      · obtain rfl := Option.some.inj (hk'.symm.trans hk)
        exact ⟨hw.symm.trans rfl, hv ▸ .data hl hg⟩
      · obtain rfl := Option.some.inj (hk'.symm.trans hk)
        exact ⟨hw.symm.trans rfl, hv ▸ .outside⟩
    | _ => simp [warning?] at hw

end Argument
end BedrockCommand
