import BedrockCommand.Proofs.Tokenize.Kinds
import BedrockCommand.Proofs.Tokenize.Warnings
import Mathlib.Data.List.Sigma
/-!
The diagnostics of a text are its errors and its warnings, merged by where they start. Both are
found from the front of the text to its end, and what starts at one place is left in the order in
which it was put together. So the merge takes no error and no warning out of its order, and a check,
which only selects from it, does not either.
-/
namespace BedrockCommand

/-! ## Sorting -/

section Sorting

variable {α : Type u} {le : α → α → Bool} {l : List α}

/-- Sorting does not move what is in order already. -/
theorem filter_mergeSort (htrans : ∀ a b c, le a b = true → le b c = true → le a c = true)
    (htotal : ∀ a b, (le a b || le b a) = true) {p : α → Bool}
    (h : (l.filter p).Pairwise fun a b => le a b = true) :
    (l.mergeSort le).filter p = l.filter p := by
  have hsub : ((l.filter p).filter p).Sublist ((l.mergeSort le).filter p) :=
    (List.sublist_mergeSort htrans htotal h List.filter_sublist).filter p
  have hself : (l.filter p).filter p = l.filter p := by simp
  rw [hself] at hsub
  exact (hsub.eq_of_length ((List.mergeSort_perm l le).symm.filter p).length_eq).symm

/-- Sorting leaves any two that may stand in either order as they stood. -/
theorem pairwise_mergeSort_of_ties
    (htrans : ∀ a b c, le a b = true → le b c = true → le a c = true)
    (htotal : ∀ a b, (le a b || le b a) = true) {P : α → α → Prop} (h : l.Pairwise P) :
    (l.mergeSort le).Pairwise fun a b => le b a = true → P a b := by
  have hsorted := List.pairwise_mergeSort (List.zipIdxLE_trans htrans)
    (List.zipIdxLE_total htotal) l.zipIdx
  have hnodup : (l.zipIdx.mergeSort (List.zipIdxLE le)).Nodup :=
    (List.mergeSort_perm ..).nodup_iff.mpr (.of_map _ (List.nodup_zipIdx_map_snd l))
  rw [← List.mergeSort_zipIdx, List.pairwise_map]
  refine (hsorted.and hnodup).imp_of_mem ?_
  rintro ⟨a, i⟩ ⟨b, j⟩ hi hj ⟨hle, hne⟩ hba
  have hi := List.mk_mem_zipIdx_iff_getElem?.mp (List.mem_mergeSort.mp hi)
  have hj := List.mk_mem_zipIdx_iff_getElem?.mp (List.mem_mergeSort.mp hj)
  obtain ⟨hil, rfl⟩ := List.getElem?_eq_some_iff.mp hi
  obtain ⟨hjl, rfl⟩ := List.getElem?_eq_some_iff.mp hj
  have hij : i ≤ j := by
    simp only [List.zipIdxLE] at hle
    split at hle
    · simpa [hba] using hle
    · simp at hle
  have hlt : i < j := by
    refine Nat.lt_of_le_of_ne hij ?_
    rintro rfl
    exact hne rfl
  exact List.pairwise_iff_getElem.mp h i j hil hjl hlt

end Sorting

/-- The first of some things and the first of others that they stand for. -/
theorem forall₂_find? {α β : Type} {R : α → β → Prop} {p : α → Bool} {q : β → Bool} {as : List α}
    {bs : List β} (h : List.Forall₂ R as bs) (hpq : ∀ a b, R a b → p a = q b) :
    List.Forall₂ R (as.find? p).toList (bs.find? q).toList := by
  induction h with
  | nil => exact .nil
  | @cons a b as bs hab _ ih =>
    rw [List.find?_cons, List.find?_cons, hpq a b hab]
    cases q b with
    | true => exact .cons hab .nil
    | false => exact ih

/-! ## The merge -/

/-- Whether a diagnostic is what is said about an error token. -/
def Diagnostic.Reports (d : Diagnostic) (t : Token) : Prop :=
  ∃ e, t.value = .error e ∧ d = .ofError e t.span

/-- Whether a diagnostic stands before another: it starts no later and, where both start at one
place, is no warning before an error. -/
def Diagnostic.Precedes (d e : Diagnostic) : Prop :=
  ∃ s t, d.span = some s ∧ e.span = some t ∧ s.start ≤ t.start ∧
    (s.start = t.start → d.severity = .warn → e.severity = .warn)

namespace Tokenized

variable {result : Tokenized} {profile : Option Profile}

/-- Whether the diagnostics are a merge of the errors, one for each error token, and of the
warnings, both in their order. -/
structure Merges (result : Tokenized) : Prop where
  ordered : result.diagnostics.Pairwise Diagnostic.Precedes
  errors : List.Forall₂ Diagnostic.Reports (result.diagnostics.filter (·.severity = .error))
    (result.tokens.filter Token.isError)
  warnings : result.diagnostics.filter (·.severity = .warn) =
    result.warnings.map Diagnostic.ofWarning

/-- What is reported under a profile. Without a focus, that is part of the diagnostics, in their
order: the errors, and the warnings of which the profile does not suppress the code. With a focus on
a line it is the first error on the line. -/
structure Selects (result : Tokenized) (profile : Option Profile) : Prop where
  sublist : (result.reported profile none).Sublist result.diagnostics
  errors : (result.reported profile none).filter (·.severity = .error) =
    result.diagnostics.filter (·.severity = .error)
  warnings : (result.reported profile none).filter (·.severity = .warn) =
    (result.warnings.filter fun w => !profile.any (·.suppresses w.kind.code)).map
      Diagnostic.ofWarning
  focused : ∀ line, List.Forall₂ Diagnostic.Reports (result.reported profile (some line))
    ((result.tokens.filter Token.isError).find? fun t => t.span.start.line = line).toList

theorem standsBefore_trans (d e f : Diagnostic) (hde : standsBefore d e = true)
    (hef : standsBefore e f = true) : standsBefore d f = true := by
  unfold standsBefore at *
  cases hd : d.span with
  | none => rfl
  | some s =>
    cases he : e.span with
    | none => simp [hd, he] at hde
    | some t =>
      cases hf : f.span with
      | none => simp [he, hf] at hef
      | some u =>
        simp only [hd, he, hf, decide_eq_true_eq] at hde hef ⊢
        exact Position.le_trans hde hef

theorem standsBefore_total (d e : Diagnostic) :
    (standsBefore d e || standsBefore e d) = true := by
  unfold standsBefore
  cases d.span with
  | none => rfl
  | some s =>
    cases e.span with
    | none => rfl
    | some t => simpa using Position.le_total s.start t.start

/-- The diagnostics before they are sorted: the errors, and behind them the warnings. -/
def found (result : Tokenized) : List Diagnostic :=
  result.errors.map (fun p => Diagnostic.ofError p.2 p.1.span) ++
    result.warnings.map Diagnostic.ofWarning

theorem severity_of_error {d : Diagnostic}
    (h : d ∈ result.errors.map fun p => Diagnostic.ofError p.2 p.1.span) :
    d.severity = .error := by
  obtain ⟨p, -, rfl⟩ := List.mem_map.mp h
  rfl

theorem severity_of_warning {d : Diagnostic} (h : d ∈ result.warnings.map Diagnostic.ofWarning) :
    d.severity = .warn := by
  obtain ⟨w, -, rfl⟩ := List.mem_map.mp h
  rfl

theorem filter_error_found : result.found.filter (·.severity = .error) =
    result.errors.map fun p => Diagnostic.ofError p.2 p.1.span := by
  rw [found, List.filter_append,
    List.filter_eq_self.mpr fun d hd => decide_eq_true (severity_of_error hd),
    List.filter_eq_nil_iff.mpr fun d hd => by simp [severity_of_warning hd], List.append_nil]

theorem filter_warn_found : result.found.filter (·.severity = .warn) =
    result.warnings.map Diagnostic.ofWarning := by
  rw [found, List.filter_append,
    List.filter_eq_nil_iff.mpr fun d hd => by simp [severity_of_error hd],
    List.filter_eq_self.mpr fun d hd => decide_eq_true (severity_of_warning hd), List.nil_append]

/-- Errors are found before warnings. -/
theorem pairwise_found (result : Tokenized) :
    result.found.Pairwise fun d e => d.severity = .warn → e.severity = .warn := by
  refine List.pairwise_append.mpr ⟨List.pairwise_of_forall_mem_list fun d hd _ _ h => ?_,
    List.pairwise_of_forall_mem_list fun _ _ e he _ => severity_of_warning he,
    fun _ _ e he _ => severity_of_warning he⟩
  simp [severity_of_error hd] at h

theorem value_of_mem_errors {p : Token × SyntaxError} (h : p ∈ result.errors) :
    p.1.value = .error p.2 := by
  obtain ⟨t, -, ht⟩ := List.mem_filterMap.mp h
  obtain ⟨e, he, rfl⟩ := Option.map_eq_some_iff.mp ht
  unfold Token.error? at he
  split at he
  · next hvalue => exact hvalue.trans (congrArg _ (Option.some.inj he))
  · simp at he

theorem forall₂_reports (h : result.AgreesOnErrors) : List.Forall₂ Diagnostic.Reports
    (result.errors.map fun p => Diagnostic.ofError p.2 p.1.span)
    (result.tokens.filter Token.isError) := by
  rw [← h.errors, List.forall₂_map_left_iff, List.forall₂_map_right_iff, List.forall₂_same]
  exact fun p hp => ⟨p.2, value_of_mem_errors hp, rfl⟩

/-- Where tokens and warnings stand in the order of their places, sorting merges the errors with the
warnings. -/
theorem merges (h : result.AgreesOnErrors)
    (htokens : result.tokens.Pairwise fun s t => s.span.start ≤ t.span.start)
    (hwarnings : result.warnings.Pairwise fun v w => v.span.start ≤ w.span.start) :
    result.Merges := by
  have herrors : (result.found.filter (·.severity = .error)).Pairwise
      fun d e => standsBefore d e = true := by
    rw [filter_error_found, List.pairwise_map, errors, List.pairwise_filterMap]
    refine htokens.imp fun {s t} hle p hp q hq => ?_
    obtain ⟨d, -, rfl⟩ := Option.map_eq_some_iff.mp hp
    obtain ⟨e, -, rfl⟩ := Option.map_eq_some_iff.mp hq
    exact decide_eq_true hle
  have hwarns : (result.found.filter (·.severity = .warn)).Pairwise
      fun d e => standsBefore d e = true := by
    rw [filter_warn_found, List.pairwise_map]
    exact hwarnings.imp fun hle => decide_eq_true hle
  have hsorted := List.pairwise_mergeSort standsBefore_trans standsBefore_total result.found
  have hties := pairwise_mergeSort_of_ties standsBefore_trans standsBefore_total
    (pairwise_found result)
  refine ⟨?_, ?_, ?_⟩
  · refine (hsorted.and hties).imp_of_mem ?_
    rintro d e hd he ⟨hle, htie⟩
    obtain ⟨s, hs, -⟩ := exists_of_mem_diagnostics hd
    obtain ⟨t, ht, -⟩ := exists_of_mem_diagnostics he
    unfold standsBefore at hle htie
    simp only [hs, ht, decide_eq_true_eq] at hle htie
    refine ⟨s, t, hs, ht, hle, fun heq => htie ?_⟩
    rw [heq]
    exact Position.le_refl _
  · rw [diagnostics, ← found, filter_mergeSort standsBefore_trans standsBefore_total herrors,
      filter_error_found]
    exact forall₂_reports h
  · rw [diagnostics, ← found, filter_mergeSort standsBefore_trans standsBefore_total hwarns,
      filter_warn_found]

/-! ## What is reported -/

theorem filter_error_reported : (result.reported profile none).filter (·.severity = .error) =
    result.diagnostics.filter (·.severity = .error) := by
  simp only [reported, List.filter_filter]
  refine List.filter_congr fun d _ => ?_
  cases hd : d.severity <;> simp [Diagnostic.isReported, hd]

theorem filter_warn_reported (h : result.Merges) :
    (result.reported profile none).filter (·.severity = .warn) =
      (result.warnings.filter fun w => !profile.any (·.suppresses w.kind.code)).map
        Diagnostic.ofWarning := by
  have hkept : (result.reported profile none).filter (·.severity = .warn) =
      (result.diagnostics.filter (·.severity = .warn)).filter
        fun d => !profile.any (·.suppresses d.id) := by
    simp only [reported, List.filter_filter]
    refine List.filter_congr fun d _ => ?_
    cases hd : d.severity <;> simp [Diagnostic.isReported, hd]
  rw [hkept, h.warnings, List.filter_map]
  rfl

/-- With a focus the profile does not matter, since errors are always reported. -/
theorem reported_focused (profile : Option Profile) (line : Nat) :
    result.reported profile (some line) =
      ((result.diagnostics.filter (·.severity = .error)).find?
        fun d => d.span.any (·.start.line = line)).toList := by
  simp only [reported, List.find?_filter]
  congr 2
  funext d
  cases hd : d.severity <;> simp [Diagnostic.isReported, Diagnostic.isErrorOn, hd]

theorem selects (h : result.Merges) (profile : Option Profile) : result.Selects profile where
  sublist := List.filter_sublist
  errors := filter_error_reported
  warnings := filter_warn_reported h
  focused line := by
    rw [reported_focused]
    refine forall₂_find? h.errors ?_
    rintro d t ⟨e, -, rfl⟩
    rfl

theorem hasErrors_iff : result.hasErrors = true ↔ ∃ t ∈ result.tokens, t.isError = true :=
  List.any_eq_true

end Tokenized

/-- Tokens that are laid out start one after another. -/
theorem LaidOut.pairwise_start {cs : List Char} {p : Position} {ts : List Token}
    (h : LaidOut cs p ts) : ts.Pairwise fun s t => s.span.start ≤ t.span.start :=
  h.ordered.imp_of_mem fun hs _ hle => Position.le_trans (h.within _ hs).ordered hle

/-- The warnings of a trace stand in the order of their tokens. -/
theorem Trace.pairwise_start {version : Version} {free : Char → Prop} {c d : Cursor}
    {es : List Event} (h : Trace version free c es d) :
    (Tokenized.ofEvents es).warnings.Pairwise fun v w => v.span.start ≤ w.span.start := by
  obtain ⟨fs, htokens, hwarnings, -⟩ := h.exists_findings
  obtain ⟨cs, -, -, hlaid⟩ := h.laidOut
  have hstart := hlaid.pairwise_start
  rw [htokens, List.pairwise_map] at hstart
  rw [hwarnings, List.pairwise_filterMap]
  refine hstart.imp fun hle v hv w hw => ?_
  obtain ⟨k, -, rfl⟩ := Option.map_eq_some_iff.mp hv
  obtain ⟨l, -, rfl⟩ := Option.map_eq_some_iff.mp hw
  exact hle

/-! ## What a check leaves behind -/

namespace CommandLine

/-- What a check leaves behind of the file that it has read at a path. It prints what is reported
or, behind the log, shows it and sums it up. It fails just where there is an error token, whatever
is reported. -/
structure Checks (files : Files) (path : String) (o : Overrides) (file : LoadedFile) : Prop
    extends file.IsReadFrom files path o where
  printed : ∀ focus verbose,
    (Request.result ⟨.check path o focus, .json, verbose⟩ files).output =
      printed (.array
        ((file.tokenized.reported file.settings.profile focus).map Diagnostic.toJson))
  shown : ∀ focus verbose,
    let index := LineIndex.ofText file.text.toList file.settings.start
    let reported := file.tokenized.reported file.settings.profile focus
    (Request.result ⟨.check path o focus, .pretty, verbose⟩ files).remarks =
      ((readFile files path o).1.filter (isShown verbose)).map .log ++
        (reported.flatMap (diagnosticRemarks index) ++ summary reported ++
          if file.tokenized.tokens.any Token.isError then []
          else [.line ("check ok (" ++ toString file.settings.version ++ ")")])
  exits : ∀ focus format verbose,
    (Request.result ⟨.check path o focus, format, verbose⟩ files).code = 1 ↔
      ∃ t ∈ file.tokenized.tokens, t.isError = true

theorem checks_of_readFile {files : Files} {path : String} {o : Overrides} {log : List LogRecord}
    {file : LoadedFile} (h : readFile files path o = (log, .ok file)) :
    Checks files path o file where
  toIsReadFrom := readFile_eq_ok_iff.mp (congrArg Prod.snd h)
  printed focus verbose := by
    simp only [Request.result, Request.afterReading, h]
    rfl
  shown focus verbose := by
    simp only [Request.result, Request.afterReading, h]
    rfl
  exits focus format verbose := by
    simp only [Request.result, Request.afterReading, h]
    rw [code_checkResult, ← Tokenized.hasErrors_iff]
    simp

theorem code_check_of_error {files : Files} {path : String} {o : Overrides} {e : Failure}
    (h : (readFile files path o).2 = .error e) (focus : Option Nat) (format : OutputFormat)
    (verbose : Bool) :
    (Request.result ⟨.check path o focus, format, verbose⟩ files).code = 1 := by
  simp only [Request.result, Request.afterReading, h]
  exact code_failure e format

end CommandLine

/-- The diagnostics of a text are a merge of its errors and its warnings, in the order of their
places. What a check reports is selected from them by the profile and the focus. A check of a file
shows what is reported, and fails just where the file is not read or has an error token. -/
theorem diagnostics_merged_and_reported :
    (∀ text start version, ∃ result, tokenize text start version = .ok result ∧ result.Merges ∧
      ∀ profile, result.Selects profile) ∧
    ∀ (files : CommandLine.Files) (path : String) (o : CommandLine.Overrides),
      (∃ e, (CommandLine.readFile files path o).2 = .error e ∧
        (∀ file : CommandLine.LoadedFile, ¬ file.IsReadFrom files path o) ∧
        ∀ focus format verbose,
          (CommandLine.Request.result ⟨.check path o focus, format, verbose⟩ files).code = 1) ∨
      ∃ file, (CommandLine.readFile files path o).2 = .ok file ∧
        CommandLine.Checks files path o file := by
  constructor
  · intro text start version
    have htrace := trace_readText text start version
    obtain ⟨cs, -, -, hlaid⟩ := htrace.laidOut
    have hagrees := Tokenized.agreesOnErrors fun t => @hasValue_tokenize text start version t
    have hmerges := Tokenized.merges hagrees hlaid.pairwise_start htrace.pairwise_start
    exact ⟨_, tokenize_eq .., hmerges, Tokenized.selects hmerges⟩
  · intro files path o
    rcases h : CommandLine.readFile files path o with ⟨log, e | file⟩
    · refine .inl ⟨e, rfl, fun file hfile => ?_, CommandLine.code_check_of_error (by rw [h])⟩
      simpa [h] using CommandLine.readFile_eq_ok_iff.mpr hfile
    · exact .inr ⟨file, rfl, CommandLine.checks_of_readFile h⟩

end BedrockCommand
