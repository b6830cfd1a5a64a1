import BedrockCommand.Diagnostic.Json
import Mathlib.Data.List.Basic
/-!
Records of diagnostics and warnings. What is written as a record is read back from it, and whatever
a record is read from, it is read in the same way from what is written of it.
-/
namespace BedrockCommand

/-- Whether a place has a line and a column of at most 64 bits, as records can hold them. -/
def Position.InRange (p : Position) : Prop :=
  p.line < Nat.pow 2 64 ∧ p.column < Nat.pow 2 64

def Span.InRange (s : Span) : Prop :=
  s.start.InRange ∧ s.stop.InRange

/-! ## Values -/

namespace JsonValue

variable {v : JsonValue} {n : Nat}

theorem natural?_integer (h : n < Nat.pow 2 64) : (integer n).natural? = some n := by
  rw [natural?, if_pos ⟨Int.natCast_nonneg n, by simpa using h⟩, Int.toNat_natCast]

theorem lt_of_natural? (h : v.natural? = some n) : n < Nat.pow 2 64 := by
  unfold natural? at h
  split at h
  · next k =>
    obtain ⟨⟨-, hlt⟩, hn⟩ := Option.ite_none_right_eq_some.mp h
    exact Option.some.inj hn ▸ hlt
  · simp at h

/-- An optional field with a value has been read from the field. -/
theorem exists_of_optional? {read : JsonValue → Option α} {field : Option JsonValue} {x : α}
    (h : optional? read field = some (some x)) : ∃ v, read v = some x := by
  unfold optional? at h
  split at h
  · simp at h
  · simp at h
  · next v _ => exact ⟨v, by simpa using h⟩

end JsonValue

/-! ## Places -/

theorem Position.ofJson?_toJson {p : Position} (h : p.InRange) : ofJson? p.toJson = some p := by
  have hfields : p.toJson.fields? ["line", "column"] =
      some [some (.integer p.line), some (.integer p.column)] := rfl
  rw [ofJson?, hfields]
  simp [JsonValue.natural?_integer h.1, JsonValue.natural?_integer h.2]

theorem Position.inRange_of_ofJson? {v : JsonValue} {p : Position} (h : ofJson? v = some p) :
    p.InRange := by
  obtain ⟨fields, -, h⟩ := Option.bind_eq_some_iff.mp h
  split at h
  · next line column =>
    obtain ⟨l, hl, h⟩ := Option.bind_eq_some_iff.mp h
    obtain ⟨c, hc, h⟩ := Option.bind_eq_some_iff.mp h
    obtain rfl := Option.some.inj h
    exact ⟨JsonValue.lt_of_natural? hl, JsonValue.lt_of_natural? hc⟩
  · simp at h

theorem Span.ofJson?_toJson {s : Span} (h : s.InRange) : ofJson? s.toJson = some s := by
  have hfields : s.toJson.fields? ["begin", "end"] =
      some [some s.start.toJson, some s.stop.toJson] := rfl
  rw [ofJson?, hfields]
  simp [Position.ofJson?_toJson h.1, Position.ofJson?_toJson h.2]

theorem Span.inRange_of_ofJson? {v : JsonValue} {s : Span} (h : ofJson? v = some s) :
    s.InRange := by
  obtain ⟨fields, -, h⟩ := Option.bind_eq_some_iff.mp h
  split at h
  · obtain ⟨p, hp, h⟩ := Option.bind_eq_some_iff.mp h
    obtain ⟨q, hq, h⟩ := Option.bind_eq_some_iff.mp h
    obtain rfl := Option.some.inj h
    exact ⟨Position.inRange_of_ofJson? hp, Position.inRange_of_ofJson? hq⟩
  · simp at h

/-! ## Warnings -/

theorem WarningKind.ofJson?_toJson (k : WarningKind) : ofJson? k.toJson = some k := by
  cases k <;> rfl

theorem Warning.ofJson?_toJson {w : Warning} (h : w.span.InRange) : ofJson? w.toJson = some w := by
  have hfields : w.toJson.fields? ["kind", "span"] =
      some [some w.kind.toJson, some w.span.toJson] := rfl
  rw [ofJson?, hfields]
  simp [WarningKind.ofJson?_toJson, Span.ofJson?_toJson h]

theorem Warning.inRange_of_ofJson? {v : JsonValue} {w : Warning} (h : ofJson? v = some w) :
    w.span.InRange := by
  obtain ⟨fields, -, h⟩ := Option.bind_eq_some_iff.mp h
  split at h
  · obtain ⟨k, -, h⟩ := Option.bind_eq_some_iff.mp h
    obtain ⟨s, hs, h⟩ := Option.bind_eq_some_iff.mp h
    obtain rfl := Option.some.inj h
    exact Span.inRange_of_ofJson? hs
  · simp at h

/-! ## Contexts -/

namespace Context

/-- A part whose name comes after all others has its place at the end. -/
theorem place_of_lt {name value : String} {l : List (String × String)}
    (h : ∀ p ∈ l, p.1 < name) : place name value l = l ++ [(name, value)] := by
  induction l with
  | nil => rfl
  | cons p l ih =>
    obtain ⟨hp, hl⟩ := List.forall_mem_cons.mp h
    have hlt : ¬ name < p.1 := String.lt_asymm hp
    have hne : name ≠ p.1 := fun e => String.lt_irrefl _ (e ▸ hp)
    rw [place, if_neg hlt, if_neg hne, ih hl, List.cons_append]

/-- Parts in the order of their names stay as they are. -/
theorem entries_foldl (c : Context) {parts : List (String × String)}
    (h : (c.entries ++ parts).Pairwise fun a b => a.1 < b.1) :
    (parts.foldl (fun c p => c.insert p.1 p.2) c).entries = c.entries ++ parts := by
  induction parts generalizing c with
  | nil => simp
  | cons p parts ih =>
    have hlast : ∀ q ∈ c.entries, q.1 < p.1 := fun q hq =>
      (List.pairwise_append.mp h).2.2 q hq p (List.mem_cons_self ..)
    have hentries : (c.insert p.1 p.2).entries = c.entries ++ [p] := place_of_lt hlast
    rw [List.foldl_cons, ih _ (by simpa [hentries] using h), hentries, List.append_assoc,
      List.singleton_append]

theorem ofList_entries (c : Context) : ofList c.entries = c := by
  have hentries : (ofList c.entries).entries = c.entries := entries_foldl empty c.sorted
  generalize ofList c.entries = d at hentries
  obtain ⟨entries, _⟩ := d
  obtain rfl : entries = c.entries := hentries
  rfl

/-- The parts are read back one by one. -/
theorem mapM_string? (parts : List (String × String)) :
    ((parts.map fun p => (p.1, JsonValue.string p.2)).mapM fun p : String × JsonValue =>
      p.2.string?.bind fun value => some (p.1, value)) = some parts := by
  induction parts with
  | nil => rfl
  | cons p parts ih =>
    rw [List.map_cons, List.mapM_cons, ih]
    rfl

theorem ofJson?_toJson (c : Context) : ofJson? c.toJson = some c := by
  have hread : ofJson? c.toJson =
      ((c.entries.map fun p => (p.1, JsonValue.string p.2)).mapM fun p : String × JsonValue =>
        p.2.string?.bind fun value => some (p.1, value)).bind fun parts => some (ofList parts) :=
    rfl
  rw [hread, mapM_string?, Option.bind_some, ofList_entries]

end Context

/-! ## Diagnostics -/

theorem Severity.ofJson?_toJson (s : Severity) : ofJson? s.toJson = some s :=
  ofName?_name s

namespace Diagnostic

variable {d : Diagnostic}

/-- Whether the places of a diagnostic, if it has any, are such as records can hold. -/
def InRange (d : Diagnostic) : Prop :=
  ∀ s, d.span = some s → s.InRange

/-- Of the fields that a diagnostic may do without, its record has those that it has. -/
theorem field?_span (d : Diagnostic) : d.toJson.field? "span" = d.span.map Span.toJson := by
  obtain ⟨id, severity, message, _ | s, _ | c⟩ := d <;> rfl

theorem field?_context (d : Diagnostic) :
    d.toJson.field? "context" = d.context.map Context.toJson := by
  obtain ⟨id, severity, message, _ | s, _ | c⟩ := d <;> rfl

theorem fields?_toJson (d : Diagnostic) :
    d.toJson.fields? ["id", "severity", "message", "span", "context"] =
      some [some (.string d.id), some d.severity.toJson, some (.string d.message),
        d.span.map Span.toJson, d.context.map Context.toJson] := by
  obtain ⟨id, severity, message, _ | s, _ | c⟩ := d <;> rfl

theorem optional?_span (h : d.InRange) :
    JsonValue.optional? Span.ofJson? (d.span.map Span.toJson) = some d.span := by
  cases hs : d.span with
  | none => rfl
  | some s => exact congrArg (Option.map some) (Span.ofJson?_toJson (h s hs))

theorem optional?_context (c? : Option Context) :
    JsonValue.optional? Context.ofJson? (c?.map Context.toJson) = some c? := by
  cases c? with
  | none => rfl
  | some c => exact congrArg (Option.map some) c.ofJson?_toJson

theorem ofJson?_toJson (h : d.InRange) : ofJson? d.toJson = some d := by
  rw [ofJson?, fields?_toJson]
  simp [JsonValue.string?, Severity.ofJson?_toJson, optional?_span h, optional?_context]

theorem inRange_of_ofJson? {v : JsonValue} (h : ofJson? v = some d) : d.InRange := by
  obtain ⟨fields, -, h⟩ := Option.bind_eq_some_iff.mp h
  split at h
  · obtain ⟨id, -, h⟩ := Option.bind_eq_some_iff.mp h
    obtain ⟨severity, -, h⟩ := Option.bind_eq_some_iff.mp h
    obtain ⟨message, -, h⟩ := Option.bind_eq_some_iff.mp h
    obtain ⟨span, hspan, h⟩ := Option.bind_eq_some_iff.mp h
    obtain ⟨context, -, h⟩ := Option.bind_eq_some_iff.mp h
    obtain rfl := Option.some.inj h
    rintro s rfl
    obtain ⟨v, hv⟩ := JsonValue.exists_of_optional? hspan
    exact Span.inRange_of_ofJson? hv
  · simp at h

end Diagnostic

/-- Diagnostics and warnings are read back from their records, as long as their places are such as
records can hold. Whatever a record is read from, its places are, and the record that is written of
it is read as the same. A span or a context that is absent has no field in the record, and a context
without parts has one. -/
theorem records_round_trip :
    (∀ d : Diagnostic, d.InRange → Diagnostic.ofJson? d.toJson = some d) ∧
    (∀ w : Warning, w.span.InRange → Warning.ofJson? w.toJson = some w) ∧
    (∀ v d, Diagnostic.ofJson? v = some d → Diagnostic.ofJson? d.toJson = some d) ∧
    (∀ v w, Warning.ofJson? v = some w → Warning.ofJson? w.toJson = some w) ∧
    (∀ d : Diagnostic, d.toJson.field? "span" = d.span.map Span.toJson ∧
      d.toJson.field? "context" = d.context.map Context.toJson) ∧
    Context.empty.toJson = .object [] := by
  refine ⟨fun d h => Diagnostic.ofJson?_toJson h, fun w h => Warning.ofJson?_toJson h,
    fun v d h => ?_, fun v w h => ?_, fun d => ⟨d.field?_span, d.field?_context⟩, rfl⟩
  · exact Diagnostic.ofJson?_toJson (Diagnostic.inRange_of_ofJson? h)
  · exact Warning.ofJson?_toJson (Warning.inRange_of_ofJson? h)

/-- A record may leave out its span by a null, and may have fields that are passed over. What is
written of it has neither, but keeps the context without parts. -/
theorem records_round_trip_empty :
    let v := JsonValue.object [("severity", .string "warn"), ("id", .string "MCC2001"),
      ("message", .string ""), ("span", .null), ("context", .object []), ("more", .null)]
    let d : Diagnostic := ⟨"MCC2001", .warn, "", none, some .empty⟩
    let place : Span := ⟨⟨1, 0⟩, ⟨1, 2⟩⟩
    let w : Warning := ⟨.noPermission "op", place⟩
    (place.InRange ∧ Diagnostic.ofJson? (Diagnostic.ofWarning w).toJson =
      some (Diagnostic.ofWarning w)) ∧
    (Warning.ofJson? w.toJson = some w ∧ Warning.ofJson? w.toJson = some w) ∧
    Diagnostic.ofJson? v = some d ∧ Diagnostic.ofJson? d.toJson = some d ∧
      d.toJson.field? "span" = none ∧ d.toJson.field? "context" = some (.object []) := by
  intro v d place w
  obtain ⟨hdiagnostic, hwarning, hread, hreadWarning, hfields, -⟩ := records_round_trip
  have hplace : place.InRange := ⟨⟨by decide, by decide⟩, by decide, by decide⟩
  have hrange : (Diagnostic.ofWarning w).InRange := fun s hs => Option.some.inj hs ▸ hplace
  have hv : Diagnostic.ofJson? v = some d := by rfl
  have hw := hwarning w hplace
  exact ⟨⟨hplace, hdiagnostic _ hrange⟩, ⟨hw, hreadWarning _ _ hw⟩, hv, hread v d hv,
    (hfields d).1, (hfields d).2⟩

end BedrockCommand
