import Lox.CommandLine.Disk
import Lox.Entries

namespace Lox.CommandLine

abbrev Folder := Entries String ByteArray

inductive Spot where
  | directory (names : List String)
  | outside
  | file (path : String)
  | device
  | absent (path? : Option String)
  deriving DecidableEq, Inhabited

namespace Folder

def pathOf (names : List String) : String :=
  "/".intercalate names

def isDirectory (f : Folder) (names : List String) : Bool :=
  (Entries.keys f).any fun path => (pathOf names ++ "/").isPrefixOf path

def child (f : Folder) (names : List String) (name : String) : Spot :=
  let inner := names ++ [name]
  if Entries.has (pathOf inner) f then .file (pathOf inner)
  else if f.isDirectory inner then .directory inner
  else .absent (some (pathOf inner))

def step (f : Folder) (name : String) : Spot → Except FileError Spot
  | .file _ | .device => .error .notADirectory
  | .absent _ => .error .missing
  | .outside =>
    if name = "." ∨ name = ".." then .ok .outside
    else if 255 < name.utf8ByteSize then .error .nameTooLong
    else .ok (.absent none)
  | .directory names =>
    if name = "." then .ok (.directory names)
    else if name = ".." then .ok (if names.isEmpty then .outside else .directory names.dropLast)
    else if 255 < name.utf8ByteSize then .error .nameTooLong
    else .ok (f.child names name)

def check (path : String) : Except FileError Unit :=
  if path.toList.contains (Char.ofNat 0) then .error .nullCharacter
  else if path = "" then .error .missing
  else if 4096 ≤ path.utf8ByteSize then .error .nameTooLong
  else .ok ()

def start (path : String) : Spot :=
  if path.toList.head? = some '/' then .outside else .directory []

def locate (f : Folder) (path : String) : Except FileError Spot := do
  check path
  if path = "/dev/null" then return .device
  (Path.names path).foldlM (fun spot name => f.step name spot) (start path)

/-- A slash behind the last name asks for a directory. -/
def target (f : Folder) (path : String) : Except FileError Spot := do
  check path
  let last := (Path.names path).getLast?.getD "."
  if path.toList.getLast? = some '/' ∧ last ≠ "." ∧ last ≠ ".." then
    let _ ← (Path.names path).dropLast.foldlM (fun spot name => f.step name spot) (start path) >>= f.step "."
    throw .isADirectory
  else f.locate path

def read (f : Folder) (path : String) : Except FileError ByteArray := do
  match ← f.locate path with
  | .file path => return (Entries.get? path f).getD .empty
  | .device => return .empty
  | .absent _ => throw .missing
  | .directory _ | .outside => throw .isADirectory

def write (f : Folder) (path : String) (bytes : ByteArray) : Except FileError Folder := do
  match ← f.target path with
  | .file path | .absent (some path) => return Entries.set path bytes f
  | .device | .absent none => return f
  | .directory _ | .outside => throw .isADirectory

def disk : Disk (StateM Folder) where
  read path := fun f => (f.read path, f)
  write path bytes := fun f =>
    match f.write path bytes with
    | .ok f => (.ok (), f)
    | .error e => (.error e, f)

end Folder

end Lox.CommandLine
