/-!
The files that a run reads.
-/
namespace BedrockCommand.CommandLine

/-- Why a file is not read. -/
inductive ReadFailure where
  /-- There is no such file. -/
  | missing
  /-- The path goes on after a file as if that were a directory. -/
  | notDirectory
  | directory
  /-- A name in the path, or the path, has too many bytes. -/
  | nameTooLong
  /-- The bytes are not UTF-8. -/
  | notText
  | other (message : String)
deriving DecidableEq, Repr

/-- What is said about a refusal of the system. -/
def ReadFailure.systemMessage (code : Nat) (text : String) : String :=
  text ++ " (os error " ++ toString code ++ ")"

/-- What is said about a file that is not read. -/
def ReadFailure.message : ReadFailure → String
  | missing => systemMessage 2 "No such file or directory"
  | notDirectory => systemMessage 20 "Not a directory"
  | directory => systemMessage 21 "Is a directory"
  | nameTooLong => systemMessage 36 "File name too long"
  | notText => "stream did not contain valid UTF-8"
  | other message => message

/-- The files that a run can reach. -/
structure Files where
  /-- The bytes of the file at a path. -/
  atPath : String → Except ReadFailure ByteArray
  standardInput : Except ReadFailure ByteArray

namespace Files

def decode (bytes : ByteArray) : Except ReadFailure String :=
  match String.fromUTF8? bytes with
  | some text => .ok text
  | none => .error .notText

def text (files : Files) (path : String) : Except ReadFailure String :=
  files.atPath path >>= decode

def inputText (files : Files) : Except ReadFailure String :=
  files.standardInput >>= decode

/-- A text with a newline in place of each pair of a carriage return and a newline. -/
def plainBreaks : List Char → List Char
  | '\r' :: '\n' :: cs => '\n' :: plainBreaks cs
  | c :: cs => c :: plainBreaks cs
  | [] => []

end Files
end BedrockCommand.CommandLine
