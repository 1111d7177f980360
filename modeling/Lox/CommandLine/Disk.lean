import Lox.Text.Printable

namespace Lox.CommandLine

namespace Path

def pieces : List Char → List (List Char)
  | [] => [[]]
  | '/' :: cs => [] :: pieces cs
  | c :: cs =>
    match pieces cs with
    | [] => [[c]]
    | piece :: rest => (c :: piece) :: rest

def names (path : String) : List String :=
  ((pieces path.toList).map String.ofList).filter (· ≠ "")

def root (path : String) : String :=
  match path.toList with
  | '/' :: '/' :: '/' :: _ => "/"
  | '/' :: '/' :: _ => "//"
  | '/' :: _ => "/"
  | _ => ""

def normal (path : String) : String :=
  let text := root path ++ "/".intercalate ((names path).filter (· ≠ "."))
  if text = "" then "." else text

end Path

inductive FileError where
  | missing
  | notADirectory
  | isADirectory
  | nameTooLong
  | nullCharacter
  | unnamed
  | other (text : String)
  deriving DecidableEq, Inhabited

namespace FileError

def message (path : String) : FileError → String
  | .missing => "[Errno 2] No such file or directory: " ++ Text.quoted path
  | .notADirectory => "[Errno 20] Not a directory: " ++ Text.quoted path
  | .isADirectory => "[Errno 21] Is a directory: " ++ Text.quoted path
  | .nameTooLong => "[Errno 36] File name too long: " ++ Text.quoted path
  | .nullCharacter => "embedded null byte"
  | .unnamed => "expected str, bytes or os.PathLike object, not list"
  | .other text => text

def isAbsence : FileError → Bool
  | .missing | .notADirectory | .nullCharacter => true
  | .isADirectory | .nameTooLong | .unnamed | .other _ => false

end FileError

/-- To write makes the file if it is not there, and leaves nothing of what it held. -/
structure Disk (m : Type → Type) where
  read : String → m (Except FileError ByteArray)
  write : String → ByteArray → m (Except FileError Unit)

end Lox.CommandLine
