import Lox.CommandLine.Performance

namespace Lox.CommandLine

def fileError : IO.Error → FileError
  | .noFileOrDirectory _ _ _ => .missing
  | .inappropriateType _ code _ => if code = 20 ∨ code = -20 then .notADirectory else .isADirectory
  | .invalidArgument _ code details => if code = 36 ∨ code = -36 then .nameTooLong else .other details
  | e => .other (toString e)

def realDisk : Disk IO where
  read path := do
    match ← (IO.FS.readBinFile path).toBaseIO with
    | .ok bytes => return .ok bytes
    | .error e => return .error (fileError e)
  write path bytes := do
    match ← (IO.FS.writeBinFile path bytes).toBaseIO with
    | .ok _ => return .ok ()
    | .error e => return .error (fileError e)

def Failure.message : Failure → String
  | .noFrontEnd => unknownFrontEnd (.list [])
  | .notFound path => "file " ++ path ++ " not found"
  | .file path e => e.message path
  | .notText path => "file " ++ path ++ " is no text"
  | .json _ => "no JSON text"
  | .unreadable e => e.message?.getD "tree too deep"
  | .unwritable e => e.message?.getD "tree too deep"
  | .misfit m => m.message?.getD "token expected"
  | .outOfTurns => "too many turns"

def usage : String :=
  "usage: pylox [-h] [-v] [--debug-file DEBUG_FILE] [--parser \x7bdescent,lark\x7d]\n"
    ++ "             [--emit-ast LOX_FILE | --ast AST_JSON_FILE] [script ...]\n"

def put (p : Performance) : IO UInt32 := do
  IO.print p.out
  IO.eprint p.err
  match p.ending with
  | .ok code => return UInt32.ofNat code
  | .error f => do
    IO.eprintln f.message
    return 1

partial def talk (session : Session) (notes : Array Note) : IO (Array Note) := do
  IO.print Prompt.sign
  (← IO.getStdout).flush
  let line ← (← IO.getStdin).getLine
  let command := if line.isEmpty then .endOfInput
    else Command.ofLine (if line.endsWith "\n" then String.ofList line.toList.dropLast else line)
  let (report?, session) := command.perform session
  IO.print command.reply
  if let some r := report? then
    IO.print r.out
    IO.eprint r.err
  let notes := notes ++ (report?.map Report.notes).getD #[]
  if command.stops then return notes else talk session notes

def prompt (a : Arguments) : IO UInt32 := do
  match ← (keepNotes realDisk a #[]).run, session a with
  | .error f, _ | .ok _, .error f => put (.ofFailure f)
  | .ok _, .ok session => do
    IO.print Prompt.intro
    let notes ← talk session #[]
    match ← (keepNotes realDisk a notes).run with
    | .error f => put (.ofFailure f)
    | .ok _ => return 0

def execute (words : List String) : IO UInt32 := do
  match Arguments.read words with
  | .error .help => do
    IO.print usage
    return 0
  | .error .misuse => do
    IO.eprint usage
    return 2
  | .ok a =>
    if a.task? = some .prompt then prompt a
    else put (← a.perform realDisk [])

end Lox.CommandLine

def main (words : List String) : IO UInt32 :=
  Lox.CommandLine.execute words
