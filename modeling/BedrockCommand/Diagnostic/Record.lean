import BedrockCommand.Diagnostic.SyntaxError
import BedrockCommand.Diagnostic.Warning
import BedrockCommand.Diagnostic.Explanation
import BedrockCommand.Json.Value
/-!
Diagnostics: errors and warnings in one form, ready to be shown or kept as JSON records.
Reading a record gives back what was written.
-/
namespace BedrockCommand

/-- How bad a diagnostic is. -/
inductive Severity where
  | error
  | warn
deriving DecidableEq, Repr, Inhabited

namespace Severity

def name : Severity → String
  | error => "error"
  | warn => "warn"

def ofName? (s : String) : Option Severity :=
  if s = "error" then some .error
  else if s = "warn" then some .warn
  else none

instance : ToString Severity := ⟨name⟩

theorem ofName?_name (s : Severity) : ofName? s.name = some s := by
  cases s <;> decide

end Severity

/-- The named parts of a message, in the order of their names, each name once. -/
structure Context where
  entries : List (String × String)
  sorted : entries.Pairwise fun a b => a.1 < b.1
deriving DecidableEq, Repr

namespace Context

/-- The context without parts. -/
def empty : Context := ⟨[], .nil⟩

instance : Inhabited Context := ⟨empty⟩

/-- Puts a part in its place; a part of the same name gives way. -/
def place (name value : String) : List (String × String) → List (String × String)
  | [] => [(name, value)]
  | (k, v) :: rest =>
    if name < k then (name, value) :: (k, v) :: rest
    else if name = k then (name, value) :: rest
    else (k, v) :: place name value rest

theorem mem_place {name value : String} {l : List (String × String)} {p : String × String}
    (h : p ∈ place name value l) : p = (name, value) ∨ p ∈ l := by
  induction l with
  | nil => simpa [place] using h
  | cons q rest ih =>
    unfold place at h
    split at h
    · simpa using h
    · split at h
      · simp only [List.mem_cons] at h ⊢
        rcases h with h | h
        · exact Or.inl h
        · exact Or.inr (Or.inr h)
      · simp only [List.mem_cons] at h ⊢
        rcases h with h | h
        · exact Or.inr (Or.inl h)
        · rcases ih h with h | h
          · exact Or.inl h
          · exact Or.inr (Or.inr h)

theorem pairwise_place {name value : String} {l : List (String × String)}
    (h : l.Pairwise fun a b => a.1 < b.1) :
    (place name value l).Pairwise fun a b => a.1 < b.1 := by
  induction l with
  | nil => simp [place]
  | cons q rest ih =>
    obtain ⟨hq, hrest⟩ := List.pairwise_cons.mp h
    unfold place
    split
    · next hlt =>
      refine List.pairwise_cons.mpr ⟨?_, h⟩
      intro p hp
      rcases List.mem_cons.mp hp with rfl | hp
      · exact hlt
      · exact String.lt_trans hlt (hq p hp)
    · split
      · next heq =>
        refine List.pairwise_cons.mpr ⟨fun p hp => ?_, hrest⟩
        show name < p.1
        rw [heq]
        exact hq p hp
      · next hlt hne =>
        refine List.pairwise_cons.mpr ⟨fun p hp => ?_, ih hrest⟩
        rcases mem_place hp with rfl | hp
        · show q.1 < name
          grind
        · exact hq p hp

/-- A context with one more part. -/
def insert (c : Context) (name value : String) : Context :=
  ⟨place name value c.entries, pairwise_place c.sorted⟩

/-- The context of a list of parts; of two parts of one name the later one counts. -/
def ofList (parts : List (String × String)) : Context :=
  parts.foldl (fun c p => c.insert p.1 p.2) empty

end Context

/-- An error or a warning as it is reported. -/
structure Diagnostic where
  id : String
  severity : Severity
  message : String
  /-- The source that it is about. -/
  span : Option Span
  /-- The named parts of the message, where it has any. -/
  context : Option Context
deriving DecidableEq, Repr, Inhabited

namespace Diagnostic

/-- The named parts of a message, or none if there are none. -/
def contextOf (parts : List (String × String)) : Option Context :=
  if parts.isEmpty then none else some (Context.ofList parts)

/-- The diagnostic for an error in a stretch of source. -/
def ofError (e : SyntaxError) (span : Span) : Diagnostic where
  id := e.code
  severity := .error
  message := e.message
  span := some span
  context := contextOf e.parameters

def ofWarning (w : Warning) : Diagnostic where
  id := w.kind.code
  severity := .warn
  message := w.kind.message
  span := some w.span
  context := contextOf w.kind.parameters

/-- The message after the span that it is about. -/
def located (d : Diagnostic) : String :=
  match d.span with
  | some s => toString s ++ ": " ++ d.message
  | none => d.message

/-- What the code of a diagnostic means, where that is known. -/
def explanation? (d : Diagnostic) : Option String :=
  explain? d.id

instance : ToString Diagnostic where
  toString d := toString d.severity ++ "[" ++ d.id ++ "]: " ++ d.message

end Diagnostic
end BedrockCommand
