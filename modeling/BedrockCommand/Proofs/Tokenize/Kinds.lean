import BedrockCommand.Proofs.Argument.Values
import BedrockCommand.Proofs.Tokenize.Accepted
import BedrockCommand.Proofs.Tokenize.Offsets
/-!
The kind of a token and its value belong together, whatever a text says. So the tokens that count
as errors are those that say what is wrong, and a check agrees with the diagnostics that it shows.
-/
namespace BedrockCommand

/-- The names of the commands of a version, without their abbreviations. -/
structure Grammar.IsCommand (version : Version) (name : String) : Prop where
  registered : (command? name version).isSome
  canonical : name ∉ abbreviations.map Prod.fst

/-! ## Tokens -/

namespace Grammar

/-- What an abbreviation stands for is none itself. -/
theorem canonicalName_notMem (typed : String) :
    canonicalName typed ∉ abbreviations.map Prod.fst := by
  unfold canonicalName
  cases h : abbreviations.lookup typed with
  | none =>
    intro hmem
    obtain ⟨⟨name, full⟩, hp, rfl⟩ := List.mem_map.mp hmem
    have hne := List.lookup_eq_none_iff.mp h _ hp
    simp at hne
  | some full =>
    have hall : abbreviations.all (fun p => !(abbreviations.map Prod.fst).contains p.2) = true := by
      decide
    simpa using List.all_eq_true.mp hall _ (Rule.mem_of_lookup h)

end Grammar

theorem Reported.hasValue {version : Version} {c d : Cursor} {t : Token} {w : Option WarningKind}
    (h : Reported version c t w d) : t.kind.HasValue (Grammar.IsCommand version) t.value := by
  cases h with
  | argument a c hk => exact a.hasValue_read c _ hk
  | error e => exact .error e
  | keyword _ hr => exact .command ⟨by rw [hr]; rfl, Grammar.canonicalName_notMem _⟩
  | comment => exact .comment

/-- An event that is no token of which kind and value do not belong together. -/
def Event.HasValue (isName : String → Prop) : Event → Prop
  | .token t => t.kind.HasValue isName t.value
  | _ => True

theorem Event.coversArguments_hasValue {isName : String → Prop} {d : Dialect} :
    Event.CoversArguments d (Event.HasValue isName) where
  errors e _ := .error e
  argument _ _ _ h _ := Argument.hasValue_read _ _ _ h
  warning _ _ _ _ _ := trivial
  tooDeep _ := trivial
  json _ := trivial

theorem hasValue_tokenize {text : String} {start : Position} {version : Version} {t : Token}
    (h : t ∈ (Tokenized.ofEvents (readText text start version).events).tokens) :
    t.kind.HasValue (Grammar.IsCommand version) t.value := by
  have halong := (trace_readText text start version).readAlong _ (Tokenized.mem_tokens.mp h)
  obtain ⟨_, _, _, _, _, -, -, -, hreported⟩ := halong
  exact hreported.hasValue

/-- A text that is one JSON value has no token of a command. -/
theorem hasValue_readJson {text : String} {start : Position} {shape : JsonShape}
    {dialect : JsonDialect} {t : Token}
    (h : t ∈ (Tokenized.ofEvents (readJson text start shape dialect).events).tokens) :
    t.kind.HasValue (fun _ => False) t.value := by
  have honly : (readJson text start shape dialect).Only (Event.HasValue fun _ => False) :=
    .whole (fun e _ => .error e) (Rule.only_run Event.coversArguments_hasValue False.elim
      (.jsonText dialect shape) _)
  exact honly _ (Tokenized.mem_tokens.mp h)

/-! ## Errors -/

namespace Tokenized

/-- What tells whether there are errors, and what lists them, and what is said about them, agree. -/
structure AgreesOnErrors (result : Tokenized) : Prop where
  errors : result.errors.map Prod.fst = result.tokens.filter Token.isError
  listed : result.hasErrors = true ↔ result.errors ≠ []
  diagnosed : result.hasErrors = true ↔ result.diagnostics.filter (·.severity = .error) ≠ []

theorem severity_ofError (e : SyntaxError) (span : Span) :
    (Diagnostic.ofError e span).severity = .error := rfl

theorem filter_severity_diagnostics_eq_nil_iff {result : Tokenized} :
    result.diagnostics.filter (·.severity = .error) = [] ↔ result.errors = [] := by
  rw [List.filter_eq_nil_iff]
  constructor
  · intro h
    refine List.eq_nil_iff_forall_not_mem.mpr fun p hp => ?_
    refine h (Diagnostic.ofError p.2 p.1.span) ?_ (by simp [severity_ofError])
    rw [diagnostics, List.mem_mergeSort]
    exact List.mem_append_left _ (List.mem_map_of_mem hp)
  · intro h d hd
    rw [diagnostics, List.mem_mergeSort, h] at hd
    obtain ⟨w, -, rfl⟩ := List.mem_map.mp hd
    simp [Diagnostic.ofWarning]

theorem agreesOnErrors {result : Tokenized} {isName : String → Prop}
    (h : ∀ t ∈ result.tokens, t.kind.HasValue isName t.value) : result.AgreesOnErrors := by
  have herrors : result.errors.map Prod.fst = result.tokens.filter Token.isError := by
    rw [errors, List.map_filterMap, ← List.filterMap_eq_filter]
    refine List.filterMap_congr fun t ht => ?_
    have ht := (h t ht).error?_isSome
    cases he : t.error? with
    | none => simp [Option.guard, ← ht, he]
    | some e => simp [Option.guard, ← ht, he]
  have hlisted : result.hasErrors = true ↔ result.errors ≠ [] := by
    rw [Ne, ← List.map_eq_nil_iff (f := Prod.fst), herrors, List.filter_eq_nil_iff, hasErrors,
      List.any_eq_true]
    simp
  exact ⟨herrors, hlisted, by rw [Ne, filter_severity_diagnostics_eq_nil_iff]; exact hlisted⟩

/-- Errors are reported under every profile. -/
theorem exists_reported_error_iff {result : Tokenized} {profile : Option Profile} :
    (∃ d ∈ result.reported profile none, d.severity = .error) ↔
      result.diagnostics.filter (·.severity = .error) ≠ [] := by
  simp only [reported, Diagnostic.isReported, List.mem_filter, Ne, List.filter_eq_nil_iff,
    decide_eq_true_eq, not_forall, not_not, exists_prop]
  refine exists_congr fun d => ⟨fun h => ⟨h.1.1, h.2⟩, fun h => ⟨⟨h.1, by simp [h.2]⟩, h.2⟩⟩

/-- With a focus, what is reported is an error. -/
theorem severity_of_mem_reported {result : Tokenized} {profile : Option Profile} {line : Nat}
    {d : Diagnostic} (h : d ∈ result.reported profile (some line)) : d.severity = .error := by
  have hfound := List.find?_some (Option.mem_toList.mp h)
  simp only [Diagnostic.isErrorOn, Bool.and_eq_true, decide_eq_true_eq] at hfound
  exact hfound.1

end Tokenized

/-- The kind of every token and its value belong together, in command files and in JSON texts, and
the value of a command is its name, never an abbreviation of it. So a text has errors just where
there are errors to list and to report, and a check of it fails just where there are. Without a
focus an error is then among what is reported, and with one what is reported is an error. -/
theorem kind_and_value_agree (text : String) (start : Position) :
    (∀ version, ∃ result, tokenize text start version = .ok result ∧
      (∀ token ∈ result.tokens, token.kind.HasValue (Grammar.IsCommand version) token.value) ∧
      result.AgreesOnErrors ∧
      ∀ profile focus format,
        let file : CommandLine.LoadedFile := ⟨⟨version, start, profile⟩, text, result⟩
        ((file.checkResult focus format).code ≠ 0 ↔ result.errors ≠ []) ∧
        ((file.checkResult focus format).code ≠ 0 ↔
          ∃ d ∈ result.reported profile none, d.severity = .error) ∧
        ∀ d line, d ∈ result.reported profile (some line) →
          d.severity = .error ∧ (file.checkResult focus format).code ≠ 0) ∧
    ∀ shape dialect,
      let s := readJson text start shape dialect
      s.outcome = .done ∧
        (∀ token ∈ (Tokenized.ofEvents s.events).tokens,
          token.kind.HasValue (fun _ => False) token.value) ∧
        (Tokenized.ofEvents s.events).AgreesOnErrors := by
  refine ⟨fun version => ?_, fun shape dialect => ?_⟩
  · have hvalue := fun t => @hasValue_tokenize text start version t
    have hagrees := Tokenized.agreesOnErrors hvalue
    refine ⟨_, tokenize_eq .., hvalue, hagrees, fun profile focus format => ?_⟩
    intro file
    have hcode : (file.checkResult focus format).code ≠ 0 ↔ file.tokenized.hasErrors = true := by
      simp [CommandLine.code_checkResult]
    rw [hcode, Tokenized.exists_reported_error_iff]
    refine ⟨hagrees.listed, hagrees.diagnosed, fun d line hd => ?_⟩
    have herror := Tokenized.severity_of_mem_reported hd
    have hmem : d ∈ file.tokenized.diagnostics.filter (·.severity = .error) := List.mem_filter.mpr
      ⟨Tokenized.mem_diagnostics_of_mem_reported hd, decide_eq_true herror⟩
    exact ⟨herror, hagrees.diagnosed.mpr (List.ne_nil_of_mem hmem)⟩
  · exact ⟨(sound_jsonText dialect shape _).outcome_whole, fun _ => hasValue_readJson,
      Tokenized.agreesOnErrors fun _ => hasValue_readJson⟩

end BedrockCommand
