import Lox.Execution
import Lox.Reading

namespace Lox

structure Status where
  syntaxError : Bool
  runtimeError : Bool
  deriving DecidableEq, Inhabited

def Status.exitCode (s : Status) : Nat :=
  if s.syntaxError then 65 else if s.runtimeError then 70 else 0

inductive Outcome where
  | rejected (ds : List Diagnostic)
  | ended (e : Ending)
  deriving DecidableEq, Inhabited

structure Report where
  outcome : Outcome
  printed : Array String
  notes : Array Note
  deriving DecidableEq, Inhabited

def asLines (texts : List String) : String :=
  String.join (texts.map (· ++ "\n"))

namespace Report

def status? (r : Report) : Option Status :=
  match r.outcome with
  | .rejected _ => some ⟨true, false⟩
  | .ended .finished => some ⟨false, false⟩
  | .ended (.failed _) => some ⟨false, true⟩
  | .ended (.misfit _) | .ended .outOfTurns => none

def out (r : Report) : String :=
  asLines r.printed.toList

def err (r : Report) : String :=
  match r.outcome with
  | .rejected ds => Diagnostic.lines ds
  | .ended (.failed e) => e.text ++ "\n"
  | .ended _ => ""

def runtimeError? (r : Report) : Option RuntimeError :=
  match r.outcome with
  | .ended (.failed e) => some e
  | _ => none

end Report

def notesText (notes : Array Note) : String :=
  asLines (notes.toList.map Note.text)

def Event.text : Event → String
  | .entered r => "parse rule: " ++ r.name
  | .taken t => "parse consume: " ++ t.kind.name ++ " " ++ t.lexeme.quoted ++ " line " ++ toString t.line

def Settings.ofVerbosity (verbosity : Nat) : Settings :=
  ⟨verbosity, Nat.pow 10 18, 980⟩

def Settings.note (s : Settings) (level : Nat) (text : String) : Array Note :=
  if level ≤ s.verbosity then #[⟨level, text⟩] else #[]

def Settings.trace (s : Settings) (r : Reading) : Array Note :=
  if 4 ≤ s.verbosity then r.events.map fun e => ⟨4, e.text⟩ else #[]

structure Session where
  frontEnd : FrontEnd
  settings : Settings
  globals : Scope
  deriving DecidableEq, Inhabited

namespace Session

def start (frontEnd : FrontEnd) (verbosity : Nat) : Session :=
  ⟨frontEnd, .ofVerbosity verbosity, []⟩

def execute (session : Session) (before : Array Note) (statements : List Node) : Report × Session :=
  let s := session.settings
  let start := s.note 1 ("run: executing " ++ toString statements.length ++ " statement(s)")
  let (ending, m) := interpret s statements ⟨.start session.globals, #[], before ++ start⟩
  (⟨.ended ending, m.printed, m.notes⟩, { session with globals := m.env.globals })

def runStatements (session : Session) (statements : List Node) : Report × Session :=
  session.execute #[] statements

def runReading (session : Session) (source : String) (r : Reading) : Report × Session :=
  let s := session.settings
  let notes := s.note 1 ("run: " ++ toString source.length ++ " characters") ++ s.trace r
  if r.diagnostics = [] then session.execute notes r.statements
  else
    let refusal := "run: " ++ toString r.diagnostics.length ++ " syntax error(s), not evaluating"
    (⟨.rejected r.diagnostics, #[], notes ++ s.note 1 refusal⟩, session)

def run (session : Session) (source : String) : Report × Session :=
  session.runReading source (session.frontEnd.read source)

/-- The runs of texts one after another, each with the session behind it. -/
def runs : Session → List String → List (Report × Session)
  | _, [] => []
  | session, source :: sources =>
    let r := session.run source
    r :: r.2.runs sources

end Session

namespace Reporter

def descending (r : Reporter) (tokens : List Token) : Reporter :=
  match Descent.program Descent.depthLimit tokens with
  | .ok _ c | .error _ c => c.complaints.foldl (fun r x => r.syntaxError x.diagnostic) r

def reading (r : Reporter) (source : String) : FrontEnd → Reporter
  | .descent => (r.scanning source).descending (scan source).tokens
  | .ascent => (Reading.ascent source).diagnostics.foldl syntaxError r

end Reporter

def Session.reported (session : Session) (source : String) (r : Reporter) : Reporter :=
  let r := r.reading source session.frontEnd
  (session.run source).1.runtimeError?.elim r r.runtimeError

end Lox
