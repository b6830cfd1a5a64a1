import BedrockCommand.Rule.List
/-!
Grammar rules. A rule is a tree: each node reads something and says how the rule goes on, so
that what holds of every node holds of the grammar of every command.
-/
namespace BedrockCommand

/-- What may follow the name of a block. -/
inductive BlockSuffix where
  | dataOrStates
  | states
deriving DecidableEq, Repr

/-- What the game version decides about arguments. -/
structure Dialect where
  blockSuffix : Option BlockSuffix
  selectorOptions : List String
deriving DecidableEq, Repr

/-- A question about the text at the cursor, which reads nothing. -/
inductive Look where
  /-- Is anything left of the line? -/
  | line
  /-- Does a given character come next? -/
  | char (x : Char)
  | number
  | coordinate
  | angle
  /-- Does a word or a quoted string come next? -/
  | text
  | comparison
  /-- Is a given word what comes next? -/
  | word (w : String)
  | jsonNumber
  /-- Is a given name what comes next in JSON? -/
  | jsonConstant (w : String)
deriving DecidableEq, Repr

/-- The answer to a question. -/
def Look.holds (l : Look) (c : Cursor) : Bool :=
  match l with
  | line => c.lineContinues
  | char x => c.isAt x
  | number => Reader.startsNumber c
  | coordinate => Reader.startsNumber c || c.isAt '~' || c.isAt '^'
  | angle => Reader.startsNumber c || c.isAt '~'
  | text => !c.terminated || c.isAt '"'
  | comparison => c.isAt '<' || c.isAt '>' || c.isAt '='
  | word w => c.ahead (fun x => !isTerminating x) = w.toList
  | jsonNumber => c.isAt '-' || c.rest.head?.any Char.isDigit
  | jsonConstant w => c.ahead Char.isAlphanum = w.toList

/-- How deep commands, and values in JSON, may lie in others. -/
def maxNesting : Nat := 64

/-- A grammar rule. -/
inductive Rule where
  /-- Nothing more is read. -/
  | done
  /-- An argument, and the rule for its answer. -/
  | read (a : Argument) (next : a.Answer → Rule)
  /-- A given character and the spaces after it, in no token. -/
  | expect (x : Char) (next : Rule)
  | spaces (next : Rule)
  /-- An exclamation mark and the spaces after it, if there is one, in no token. -/
  | negation (next : Rule)
  /-- One rule or another, by the text at the cursor. -/
  | look (question : Look) (yes no : Rule)
  /-- An error at the cursor. -/
  | complain (e : SyntaxError) (next : Rule)
  /-- An error at the cursor, after which the rule gives up. -/
  | refuse (e : SyntaxError)
  /-- An error up to the end of the line, after which the rule gives up. -/
  | refuseLine (e : SyntaxError)
  /-- A list in brackets, and the rule for the entries that its elements mark. -/
  | list (b : Brackets) (mayBeEmpty : Bool) (element : Rule) (next : List String → Rule)
  /-- Marks an entry for the list around. -/
  | mark (name : String) (next : Rule)
  /-- Clauses up to the end of the line, each a keyword and the rule for it, and the rule for
  the keyword of the last one. -/
  | clauses (keywords : List String) (clause : String → Rule) (next : Option String → Rule)
  | nested (next : Rule)
  /-- A rule for what is left of the line, all of which it has to read. -/
  | embedded (inner : Rule) (next : Rule)
  /-- Notes that a JSON value lies too deep. -/
  | noteTooDeep (next : Rule)
  /-- The rule that the game version decides on. -/
  | ask (next : Dialect → Rule)
  /-- A defect of the grammar. -/
  | fault (f : Fault)

namespace Rule

def andThen : Rule → Rule → Rule
  | done, r => r
  | read a next, r => .read a fun x => (next x).andThen r
  | expect x next, r => .expect x (next.andThen r)
  | spaces next, r => .spaces (next.andThen r)
  | negation next, r => .negation (next.andThen r)
  | look q yes no, r => .look q (yes.andThen r) (no.andThen r)
  | complain e next, r => .complain e (next.andThen r)
  | refuse e, _ => .refuse e
  | refuseLine e, _ => .refuseLine e
  | list b mayBeEmpty element next, r => .list b mayBeEmpty element fun ms => (next ms).andThen r
  | mark name next, r => .mark name (next.andThen r)
  | clauses keywords clause next, r => .clauses keywords clause fun w => (next w).andThen r
  | nested next, r => .nested (next.andThen r)
  | embedded inner next, r => .embedded inner (next.andThen r)
  | noteTooDeep next, r => .noteTooDeep (next.andThen r)
  | ask next, r => .ask fun d => (next d).andThen r
  | fault f, _ => .fault f

instance : Append Rule := ⟨andThen⟩

/-- Arguments that may be left out from the right: each is read only if something is left of
the line after those before it. -/
def chain : List Rule → Rule
  | [] => .done
  | r :: rs => .look .line (r ++ chain rs) .done

/-- An argument whose answer does not matter. -/
def argument (a : Argument) : Rule :=
  .read a fun _ => .done

/-- A word of a list, and the rule for it. -/
def keyword (allowed : List String) (next : String → Rule) : Rule :=
  .read (.keyword allowed) next

def oneOf (allowed : List String) : Rule :=
  argument (.keyword allowed)

def cases (table : List (String × Rule)) : Rule :=
  keyword (table.map Prod.fst) fun w => (table.lookup w).getD .done

end Rule
end BedrockCommand
