import Lox.CommandLine.Arguments
import Lox.CommandLine.Disk
import Lox.Json.Printer
import Lox.Json.Reader
import Lox.Node.Json
import Lox.Prompt
import Lox.Text

namespace Lox.CommandLine

inductive Failure where
  | noFrontEnd
  | notFound (path : String)
  | file (path : String) (e : FileError)
  | notText (path : String)
  | json (e : Json.ReadError)
  | unreadable (e : Unreadable)
  | unwritable (e : Unwritable)
  | misfit (m : Misfit)
  | outOfTurns
  deriving DecidableEq, Inhabited

structure Performance where
  ending : Except Failure Nat
  out : String
  err : String

namespace Performance

def finished (exit : Nat) (out err : String) : Performance :=
  ⟨.ok exit, out, err⟩

def ofFailure : Failure → Performance
  | .notFound path => finished 66 "" ("Error: file " ++ path ++ " not found\n")
  | f => ⟨.error f, "", ""⟩

def ofReport (r : Report) : Performance :=
  let ending := match r.outcome with
    | .rejected _ => .ok (Status.exitCode ⟨true, false⟩)
    | .ended .finished => .ok (Status.exitCode ⟨false, false⟩)
    | .ended (.failed _) => .ok (Status.exitCode ⟨false, true⟩)
    | .ended (.misfit m) => .error (.misfit m)
    | .ended .outOfTurns => .error .outOfTurns
  ⟨ending, r.out, r.err⟩

def ofDialogue (said : List Prompt.Utterance) : Performance :=
  finished 0 (String.join (said.map Prompt.Utterance.text))
    (String.join ((said.filterMap Prompt.Utterance.report?).map Report.err))

def misuse : Performance :=
  finished 64 "" "Usage: pylox [script]\n"

end Performance

def ofBytes? (bytes : ByteArray) : Option String :=
  (String.fromUTF8? bytes).map fun s => String.ofList (Text.unifyNewlines s.toList)

section

variable {m : Type → Type} [Monad m] (disk : Disk m)

def readText (path : String) : ExceptT Failure m String := do
  match ← disk.read path with
  | .error e => throw (if e.isAbsence then .notFound path else .file path e)
  | .ok bytes =>
    match ofBytes? bytes with
    | none => throw (.notText path)
    | some text => return text

def writeText (path text : String) : ExceptT Failure m Unit := do
  match ← disk.write path text.toUTF8 with
  | .error e => throw (.file path e)
  | .ok _ => return ()

def keepNotes (a : Arguments) (notes : Array Note) : ExceptT Failure m Unit :=
  if a.verbosity = 0 then pure ()
  else match a.debugFile with
    | none => throw (.file "" .unnamed)
    | some path => writeText disk path (notesText notes)

def session (a : Arguments) : Except Failure Session :=
  a.frontEnd.elim (.error .noFrontEnd) fun f => .ok (.start f a.verbosity)

def emitTree (a : Arguments) (s : Session) (path : String) : ExceptT Failure m Performance := do
  let r := s.frontEnd.read (← readText disk path)
  keepNotes disk a (s.settings.trace r)
  if r.diagnostics ≠ [] then
    return .finished (Status.exitCode ⟨true, false⟩) "" (Diagnostic.lines r.diagnostics)
  let beside := path ++ ".ast.json"
  writeText disk beside ""
  let body ← (Node.write r.statements).mapError Failure.unwritable
  writeText disk beside (Json.write Json.indented (Node.programRecord body))
  return .finished 0 (beside ++ "\n") ""

def performReport (a : Arguments) (r : Report) : ExceptT Failure m Performance := do
  keepNotes disk a r.notes
  return .ofReport r

def runTree (a : Arguments) (s : Session) (path : String) : ExceptT Failure m Performance := do
  let v ← (Json.read (← readText disk path)).mapError Failure.json
  let statements ← (Node.readProgram v).mapError Failure.unreadable
  performReport disk a (s.runStatements statements).1

def runScript (a : Arguments) (s : Session) (path : String) : ExceptT Failure m Performance := do
  performReport disk a (s.run (← readText disk path)).1

def converse (a : Arguments) (s : Session) (lines : List String) : ExceptT Failure m Performance := do
  let (said, _) := Prompt.converse s lines
  let notes := (said.filterMap Prompt.Utterance.report?).map Report.notes
  keepNotes disk a (notes.foldl (· ++ ·) #[])
  return .ofDialogue said

def Task.perform (a : Arguments) (s : Session) (lines : List String) :
    Task → ExceptT Failure m Performance
  | .emit path => emitTree disk a s (Path.normal path)
  | .tree path => runTree disk a s (Path.normal path)
  | .script path => runScript disk a s (Path.normal path)
  | .prompt => converse disk a s lines

/-- Carry out what the arguments ask for. The file of notes is made before anything else, even before a
front end is missed. -/
def Arguments.perform (a : Arguments) (lines : List String) : m Performance :=
  match a.task? with
  | none => pure .misuse
  | some task => do
    let work : ExceptT Failure m Performance := do
      keepNotes disk a #[]
      task.perform disk a (← session a) lines
    match ← work.run with
    | .ok p => return p
    | .error f => return .ofFailure f

end

end Lox.CommandLine
