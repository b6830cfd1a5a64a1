import BedrockCommand.Proofs.Rule.Append
import BedrockCommand.Proofs.Rule.Counted
/-!
JSON with the counter of containers. An array or an object inside a value goes through the counter,
an outermost one that is asked for does not. With the counter a text is read as without it, the
counter is the number of the containers around that are counted, and it ends where it began.
-/
namespace BedrockCommand

namespace Rule

/-- A value in which arrays and objects go through the counter. -/
def jsonCountedValue (dialect : JsonDialect) : Rule :=
  jsonValueWith dialect (.nested .done) (.nested .done)

/-- The container that begins at a cursor. -/
def jsonContainer (item : Rule) (c : Cursor) : Rule :=
  if c.isAt '[' then jsonArray item else jsonObject item

/-- A text of a shape, with a rule for the values in it. -/
def jsonShaped (value : Rule) (shape : JsonShape) : Rule :=
  .spaces <| match shape with
    | .any => value
    | .object => jsonObject value
    | .array => jsonArray value

end Rule

/-- Reads a container inside others, with the counter. -/
def countContainer (dialect : JsonDialect) (fuel : Nat) : Counting :=
  Counted.nesting (Rule.jsonTooDeep.run ⟨⟨none, []⟩, Step.done⟩)
    (fun inside n c => (Rule.jsonContainer (Rule.jsonCountedValue dialect) c).count ⟨none, []⟩
      inside n c) fuel

/-- Reads a text that is one JSON value, with the counter. -/
def countJson (dialect : JsonDialect) (shape : JsonShape) : Counting := fun n c =>
  ((Rule.jsonShaped (Rule.jsonCountedValue dialect) shape).count ⟨none, []⟩
    (countContainer dialect (maxNesting + 1)) n c).whole

namespace Rule

variable {env env' : Env} {c : Cursor} {dialect : JsonDialect} {item item' : Rule}

theorem run_jsonConstant (names : List String) (c : Cursor) :
    (jsonConstant names).run env c = (jsonConstant names).run env' c := by
  induction names with
  | nil => rfl
  | cons w names ih =>
    change (if (Look.jsonConstant w).holds c then _ else (jsonConstant names).run env c) =
      if (Look.jsonConstant w).holds c then _ else (jsonConstant names).run env' c
    rw [ih]
    rfl

/-- A value runs alike with containers that run alike where they begin. -/
theorem run_jsonValueWith {array object array' object' : Rule}
    (ha : c.isAt '[' = true → array.run env c = array'.run env' c)
    (ho : c.isAt '[' = false → c.isAt '\x7b' = true → object.run env c = object'.run env' c) :
    (jsonValueWith dialect array object).run env c =
      (jsonValueWith dialect array' object').run env' c := by
  unfold jsonValueWith
  simp only [run]
  split
  · rfl
  split
  · rfl
  split
  · next hat => exact ha hat
  · next hat =>
    split
    · next hobject => exact ho (by simpa [Look.holds] using hat) hobject
    · exact run_jsonConstant _ c

/-- An array runs as its items do, and an object as its values do. -/
theorem run_jsonArray (h : item.run env = item'.run env') :
    (jsonArray item).run env c = (jsonArray item').run env' c := by
  simp only [jsonArray, run, h]

theorem run_jsonObject (h : item.run env = item'.run env') :
    (jsonObject item).run env c = (jsonObject item').run env' c := by
  simp only [jsonObject, run, h]

/-- What comes of a container with so many levels left. -/
def runContainer (dialect : JsonDialect) : Nat → Cursor → Step
  | 0 => jsonTooDeep.run ⟨⟨none, []⟩, Step.done⟩
  | levels + 1 => fun c =>
    (jsonContainer (jsonValue dialect levels) c).run ⟨⟨none, []⟩, Step.done⟩ c

theorem jsonContainer_array (hat : c.isAt '[' = true) : jsonContainer item c = jsonArray item :=
  if_pos hat

theorem jsonContainer_object (hat : c.isAt '[' = false) :
    jsonContainer item c = jsonObject item :=
  if_neg (by simp [hat])

theorem runContainer_succ (dialect : JsonDialect) (levels : Nat) (c : Cursor) :
    runContainer dialect (levels + 1) c =
      (jsonContainer (jsonValue dialect levels) c).run ⟨⟨none, []⟩, Step.done⟩ c :=
  rfl

/-- A value with such containers in it is a value with so many levels. -/
theorem run_jsonCountedValue (levels : Nat) :
    (jsonCountedValue dialect).run ⟨⟨none, []⟩, runContainer dialect levels⟩ =
      (jsonValue dialect levels).run env := by
  funext c
  have hnested : (nested done).run ⟨⟨none, []⟩, runContainer dialect levels⟩ c =
      runContainer dialect levels c := Step.andThen_eq_self rfl
  induction levels generalizing env c with
  | zero => exact run_jsonValueWith (fun _ => hnested) fun _ _ => hnested
  | succ levels ih =>
    have hitem : (jsonValue dialect levels).run ⟨⟨none, []⟩, Step.done⟩ =
        (jsonValue dialect levels).run env := by
      funext d
      have hd : (nested done).run ⟨⟨none, []⟩, runContainer dialect levels⟩ d =
        runContainer dialect levels d := Step.andThen_eq_self rfl
      exact (ih d hd).symm.trans (ih d hd)
    refine run_jsonValueWith (fun hat => ?_) fun hat _ => ?_
    · rw [hnested, runContainer_succ, jsonContainer_array hat]
      exact run_jsonArray hitem
    · rw [hnested, runContainer_succ, jsonContainer_object hat]
      exact run_jsonObject hitem

/-- A container is read with the values in it one level further down. -/
theorem runContainer_eq_counted (levels : Nat) (c : Cursor) :
    runContainer dialect (levels + 1) c = (jsonContainer (jsonCountedValue dialect) c).run
      ⟨⟨none, []⟩, runContainer dialect levels⟩ c := by
  have hitem : (jsonValue dialect levels).run ⟨⟨none, []⟩, Step.done⟩ =
      (jsonCountedValue dialect).run ⟨⟨none, []⟩, runContainer dialect levels⟩ :=
    (run_jsonCountedValue levels).symm
  rw [runContainer_succ]
  cases hat : c.isAt '[' with
  | true =>
    rw [jsonContainer_array hat, jsonContainer_array hat]
    exact run_jsonArray hitem
  | false =>
    rw [jsonContainer_object hat, jsonContainer_object hat]
    exact run_jsonObject hitem

theorem Regular.jsonCountedValue : (jsonCountedValue dialect).Regular True :=
  .jsonValueWith dialect ⟨trivial, trivial⟩ ⟨trivial, trivial⟩

theorem Regular.jsonContainer : (jsonContainer (Rule.jsonCountedValue dialect) c).Regular True := by
  unfold Rule.jsonContainer
  split
  · exact ⟨jsonCountedValue, fun _ => trivial⟩
  · exact ⟨fun _ => jsonCountedValue, fun _ => trivial⟩

theorem Regular.jsonShaped (shape : JsonShape) :
    (jsonShaped (Rule.jsonCountedValue dialect) shape).Regular True := by
  cases shape with
  | any => exact jsonCountedValue
  | object => exact ⟨fun _ => jsonCountedValue, fun _ => trivial⟩
  | array => exact ⟨jsonCountedValue, fun _ => trivial⟩

theorem run_jsonShaped (shape : JsonShape) (h : item.run env = item'.run env') :
    (jsonShaped item shape).run env c = (jsonShaped item' shape).run env' c := by
  cases shape with
  | any => exact congrFun h _
  | object => exact run_jsonObject h
  | array => exact run_jsonArray h

end Rule

open Counted Rule in
/-- A container that is entered from a count. -/
theorem tracks_countContainer (dialect : JsonDialect) {n fuel : Nat} (hle : n ≤ maxNesting)
    (hf : maxNesting < n + fuel) (c : Cursor) :
    Tracks (Call.Counts (runContainer dialect) n) n (runContainer dialect (maxNesting - n) c)
      (countContainer dialect fuel n c) := by
  refine Tracks.nesting rfl (fun P hP levels n inside hi c => ?_) hle hf c
  exact runContainer_eq_counted levels c ▸ tracks_count hP (fun _ => hi) Regular.jsonContainer c

open Counted Rule in
/-- A text is read with the counter as without it, in commands and by itself. -/
theorem tracks_countJson (dialect : JsonDialect) (shape : JsonShape) (env : Env) (c : Cursor) :
    Tracks (Call.Counts (runContainer dialect) 0) 0 ((jsonText dialect shape).run env c).whole
      (countJson dialect shape 0 c) := by
  have hvalue : (jsonCountedValue dialect).run ⟨⟨none, []⟩, runContainer dialect maxNesting⟩ =
      (jsonValue dialect maxNesting).run env := run_jsonCountedValue maxNesting
  have hrun := run_jsonShaped (c := c) shape hvalue
  have hstable := Call.stable_counts (runContainer dialect) 0
  refine Tracks.whole hstable (hrun ▸ tracks_count hstable (fun _ d => ?_) (.jsonShaped shape) c)
  exact tracks_countContainer dialect (Nat.zero_le _) (by omega) d

end BedrockCommand
