import BedrockCommand.Version.Basic
/-!
Things that differ from version to version. Each form of such a thing is in force from some
version on, until a later form takes over.
-/
namespace BedrockCommand

/-- The forms of a thing, each with the version from which it is in force, the newest
form first. -/
structure Versioned (α : Type u) where
  forms : List (Version × α)

/-- A version that was given two forms. -/
structure RepeatedThreshold where
  threshold : Version

/-- What is said about a repeated threshold. -/
def RepeatedThreshold.message (r : RepeatedThreshold) : String :=
  "version " ++ toString r.threshold ++ " registered twice"

namespace Versioned

/-- A thing that exists from a version on. -/
def since (threshold : Version) (form : α) : Versioned α :=
  ⟨[(threshold, form)]⟩

/-- A thing that exists in every version. -/
def always (form : α) : Versioned α :=
  since .oldest form

/-- The versions from which a form is in force, the newest first. -/
def thresholds (r : Versioned α) : List Version :=
  r.forms.map Prod.fst

/-- Puts a form in front of the first one that is older. -/
def place (threshold : Version) (form : α) : List (Version × α) → List (Version × α)
  | [] => [(threshold, form)]
  | (v, f) :: rest =>
    if v.order threshold = .lt then (threshold, form) :: (v, f) :: rest
    else (v, f) :: place threshold form rest

/-- One more form, in its place. -/
def insert (r : Versioned α) (threshold : Version) (form : α) : Versioned α :=
  ⟨place threshold form r.forms⟩

/-- One more form, from a version on that has none yet. -/
def variation (r : Versioned α) (threshold : Version) (form : α) :
    Except RepeatedThreshold (Versioned α) :=
  if threshold ∈ r.thresholds then .error ⟨threshold⟩ else .ok (r.insert threshold form)

/-- The form in force at a version, if the thing exists there. -/
def resolve? (r : Versioned α) (version : Version) : Option α :=
  (r.forms.find? fun (v, _) => v.atMost version).map Prod.snd

end Versioned
end BedrockCommand
