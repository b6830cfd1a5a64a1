import BedrockCommand.Proofs.Argument.Final
import BedrockCommand.Proofs.Argument.Forward
import BedrockCommand.Proofs.Argument.Padding
import BedrockCommand.Proofs.Argument.Plain
import BedrockCommand.Proofs.Grammar.Shared
import Mathlib.Data.List.Basic
/-!
What the rules of commands are composed of. What holds of the parts, and of the ways to put them
together, holds of every command.
-/
namespace BedrockCommand.Rule

/-- A rule that is composed of arguments, targets, JSON texts, what follows the names of blocks
and, if that is allowed, other commands. -/
inductive Composed (nests : Prop) : Rule → Prop where
  | done : Composed nests .done
  | read {a : Argument} {next : a.Answer → Rule} (ha : a.FitsAfter none) (hp : a.isPlain = true)
    (h : ∀ x, Composed nests (next x)) : Composed nests (.read a next)
  | spaces {r : Rule} (h : Composed nests r) : Composed nests (.spaces r)
  | look {q : Look} {yes no : Rule} (hq : q.isPlain = true) (hy : Composed nests yes)
    (hn : Composed nests no) : Composed nests (.look q yes no)
  /-- A comparison is read only where one is seen. -/
  | compare {next : Argument.comparison.Answer → Rule} {no : Rule}
    (hy : ∀ x, Composed nests (next x)) (hn : Composed nests no) :
    Composed nests (.look .comparison (.read .comparison next) no)
  | append {r s : Rule} (hr : Composed nests r) (hs : Composed nests s) : Composed nests (r ++ s)
  | complain {e : SyntaxError} {r : Rule} (he : e.isFixed = true) (h : Composed nests r) :
    Composed nests (.complain e r)
  | target : Composed nests .target
  | blockSuffix : Composed nests .blockSuffix
  | json (shape : JsonShape) : Composed nests (.json shape)
  | clauses {keywords : List String} {clause : String → Rule} {next : Option String → Rule}
    (hk : keywords.all isPlainWord = true) (hc : ∀ w, Composed nests (clause w))
    (hn : ∀ w, Composed nests (next w)) : Composed nests (.clauses keywords clause next)
  | nested (h : nests) : Composed nests (.nested .done)

namespace Composed

variable {nests : Prop} {r : Rule}

theorem wellFormed {version : Version} (h : Composed nests r) :
    r.WellFormed (Grammar.dialect version) none := by
  induction h with
  | done => trivial
  | read ha _ _ ih => exact ⟨ha, fun x _ => ih x⟩
  | spaces _ ih | complain _ _ ih => exact ih
  | look hq _ _ ihy ihn => exact ⟨Look.isPlain_ne_newline hq, ihy.anywhere _, ihn⟩
  | compare _ _ ihy ihn => exact .look rfl ⟨rfl, fun x _ => ihy x⟩ ihn
  | append _ _ ihr ihs => exact ihr.append ihs
  | target => exact .target
  | blockSuffix => exact .blockSuffix
  | json shape => exact .json shape
  | clauses _ _ _ ihc ihn => exact ⟨ihc, ihn⟩
  | nested => trivial

end Composed

/-- Whether an argument may stand inside a command, in every version: what is left of a line may
not. It must not be empty, and it takes in the spaces behind it. -/
def isInner (a : Argument) : Bool :=
  a.isPlain && !a.isLine && !a.mayBeEmpty && a.takesSpaces

/-- What is known of an argument inside a command. -/
structure Inner (a : Argument) : Prop where
  isPlain : a.isPlain = true
  isLine : a.isLine = false
  mayBeEmpty : a.mayBeEmpty = false
  takesSpaces : a.takesSpaces = true

theorem inner_of_isInner {a : Argument} (h : isInner a = true) : Inner a := by
  simp only [isInner, Bool.and_eq_true, Bool.not_eq_true'] at h
  obtain ⟨⟨⟨hplain, hline⟩, hempty⟩, hspaces⟩ := h
  exact ⟨hplain, hline, hempty, hspaces⟩

/-- Where a rule stands in a command: others may follow it, or it comes last. -/
inductive Place where
  | inside
  | last

/-- A rule that is composed of arguments, targets, JSON texts and what follows the names of blocks,
in such an order that what is left of a line is read last. Behind every argument the spaces are
passed over. -/
inductive Arranged : Place → Rule → Prop where
  | done {p : Place} : Arranged p .done
  | read {p : Place} {a : Argument} {next : a.Answer → Rule} (ha : a.FitsAfter none)
    (hi : isInner a = true) (h : ∀ x, Arranged p (next x)) : Arranged p (.read a next)
  /-- An argument that leaves the spaces behind it to the rule. -/
  | spacedRead {p : Place} {a : Argument} {next : a.Answer → Rule} (ha : a.FitsAfter none)
    (hp : a.isPlain = true) (hl : a.isLine = false) (he : a.mayBeEmpty = false)
    (h : ∀ x, Arranged p (next x)) : Arranged p (.read a fun x => .spaces (next x))
  /-- What is left of the line. -/
  | line {missing : SyntaxError} (hm : missing.isFixed = true) :
    Arranged .last (.argument (.line missing))
  | spaces {p : Place} {r : Rule} (h : Arranged p r) : Arranged p (.spaces r)
  | look {p : Place} {q : Look} {yes no : Rule} (hq : q.isPlain = true) (hy : Arranged p yes)
    (hn : Arranged p no) : Arranged p (.look q yes no)
  /-- A comparison is read only where one is seen. -/
  | compare {p : Place} {next : Argument.comparison.Answer → Rule} {no : Rule}
    (hy : ∀ x, Arranged p (next x)) (hn : Arranged p no) :
    Arranged p (.look .comparison (.read .comparison fun x => .spaces (next x)) no)
  | append {p : Place} {r s : Rule} (hr : Arranged .inside r) (hs : Arranged p s) :
    Arranged p (r ++ s)
  | target {p : Place} : Arranged p .target
  | blockSuffix {p : Place} : Arranged p .blockSuffix
  | json (shape : JsonShape) : Arranged .last (.json shape)

theorem append_done (r : Rule) : r ++ .done = r := by
  change r.andThen .done = r
  induction r with
  | done | refuse | refuseLine | fault => rfl
  | look q yes no ihy ihn => simp only [andThen, ihy, ihn]
  | list b mayBeEmpty element next _ ih | clauses keywords clause next _ ih
  | read a next ih | ask next ih => simp only [andThen, ih]
  | embedded inner next _ ih | expect x next ih | spaces next ih | negation next ih
  | complain e next ih | mark name next ih | nested next ih | noteTooDeep next ih =>
    simp only [andThen, ih]

namespace Arranged

variable {p : Place} {r s : Rule} {rs : List Rule}

theorem composed {nests : Prop} (h : Arranged p r) : Composed nests r := by
  induction h with
  | done => exact .done
  | read ha hi _ ih => exact .read ha (inner_of_isInner hi).isPlain ih
  | spacedRead ha hp _ _ _ ih => exact .read ha hp fun x => .spaces (ih x)
  | line hm => exact .read trivial hm fun _ => .done
  | spaces _ ih => exact .spaces ih
  | look hq _ _ ihy ihn => exact .look hq ihy ihn
  | compare _ _ ihy ihn => exact .compare (fun x => .spaces (ihy x)) ihn
  | append _ _ ihr ihs => exact .append ihr ihs
  | target => exact .target
  | blockSuffix => exact .blockSuffix
  | json shape => exact .json shape

/-! ## Rules that many commands share -/

theorem argument {a : Argument} (ha : a.FitsAfter none) (hi : isInner a = true) :
    Arranged p (argument a) :=
  .read ha hi fun _ => .done

theorem isInner_keyword {allowed : List String} (h : allowed.all isPlainWord = true) :
    isInner (.keyword allowed) = true := by
  simpa [isInner, Argument.isPlain, Argument.isLine, Argument.mayBeEmpty, Argument.takesSpaces]
    using h

theorem oneOf {allowed : List String} (h : allowed.all isPlainWord = true) :
    Arranged p (oneOf allowed) :=
  .argument trivial (isInner_keyword h)

/-- An argument that may be left out, with what may be left out behind it. -/
theorem chainCons (hr : Arranged .inside r) (h : Arranged p (chain rs)) :
    Arranged p (chain (r :: rs)) :=
  .look rfl (.append hr h) .done

theorem chain (h : rs.Forall (Arranged .inside)) : Arranged p (chain rs) := by
  induction rs with
  | nil => exact .done
  | cons r rs ih =>
    obtain ⟨hr, hrs⟩ := List.forall_cons _ r rs |>.mp h
    exact .chainCons hr (ih hrs)

/-- One argument that may be left out. -/
theorem optional (h : Arranged p r) : Arranged p (Rule.chain [r]) :=
  .look rfl ((append_done r).symm ▸ h) .done

/-- A rule from a table, or no rule for a word that the table does not have. -/
theorem lookup {table : List (String × Rule)} (h : (table.map Prod.snd).Forall (Arranged p))
    (w : String) : Arranged p ((table.lookup w).getD .done) := by
  cases hl : table.lookup w with
  | none => exact .done
  | some r =>
    exact List.forall_iff_forall_mem.mp h _ (List.mem_map_of_mem (mem_of_lookup hl))

theorem cases {table : List (String × Rule)}
    (hw : (table.map Prod.fst).all isPlainWord = true)
    (h : (table.map Prod.snd).Forall (Arranged p)) : Arranged p (cases table) :=
  .read trivial (isInner_keyword hw) (.lookup h)

theorem identifier : Arranged p identifier := .argument trivial rfl

theorem word : Arranged p word := .argument trivial rfl

theorem text : Arranged p text := .argument trivial rfl

theorem objective : Arranged p objective := .argument trivial rfl

theorem flag : Arranged p flag := .argument trivial rfl

theorem anyInteger : Arranged p anyInteger := .argument trivial rfl

theorem integerBetween (least greatest : Int) : Arranged p (integerBetween least greatest) :=
  .argument trivial rfl

theorem integerFrom (least : Int) : Arranged p (integerFrom least) := .argument trivial rfl

theorem anyNumber : Arranged p anyNumber := .argument trivial rfl

theorem numberBetween (least greatest : Binary64) :
    Arranged p (numberBetween least greatest) := .argument trivial rfl

theorem numberFrom (least : Binary64) : Arranged p (numberFrom least) := .argument trivial rfl

theorem range : Arranged p range := .argument trivial rfl

theorem coordinates (n : Nat) (earlier : List Reader.Anchor) :
    Arranged p (coordinates n earlier) := by
  induction n generalizing earlier with
  | zero => exact .done
  | succ n ih => exact .read trivial rfl fun a => ih (a :: earlier)

theorem position : Arranged p position := .coordinates 3 []

theorem angle : Arranged p angle := .spacedRead trivial rfl rfl rfl fun _ => .done

theorem message : Arranged .last message := .line rfl

theorem functionPath : Arranged .last functionPath := .line rfl

theorem positionOrText : Arranged p positionOrText := .look rfl .position .text

theorem circle : Arranged p circle := .append .position (.integerFrom 0)

theorem spawnEvent : Arranged p spawnEvent := .look rfl (.argument trivial rfl) .identifier

theorem gameMode : Arranged p gameMode := .look rfl (.argument trivial rfl) (.oneOf rfl)

theorem permissionState : Arranged p permissionState := .argument trivial rfl

theorem block : Arranged p block := .append .identifier .blockSuffix

theorem starOrTarget : Arranged p starOrTarget := .look rfl (.argument trivial rfl) .target

end Arranged
end BedrockCommand.Rule
