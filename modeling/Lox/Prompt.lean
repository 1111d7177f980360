import Lox.Session
import Lox.Text

namespace Lox

inductive Command where
  | nothing
  | leave
  | endOfInput
  | run (line : String)
  deriving DecidableEq, Inhabited

namespace Command

def ofLine (line : String) : Command :=
  let word := Text.trim line
  if word = "EOF" then .endOfInput
  else if word = "exit" then .leave
  else if word = "" then .nothing
  else .run line

def stops : Command → Bool
  | .leave | .endOfInput => true
  | .nothing | .run _ => false

def reply : Command → String
  | .endOfInput => "\n"
  | _ => ""

def perform (session : Session) : Command → Option Report × Session
  | .run line =>
    let (report, session) := session.run line
    (some report, session)
  | _ => (none, session)

end Command

namespace Prompt

def intro : String :=
  "pylox :: Lox tree-walking interpreter\nType 'exit' or press Ctrl-D to leave.\n"

def sign : String := "> "

inductive Utterance where
  | own (text : String)
  | report (r : Report)
  deriving DecidableEq, Inhabited

/-- The dialogue over lines up to one that leaves; the end of the lines leaves too. -/
def dialogue (session : Session) : List String → List Utterance × Session
  | [] => ([.own sign, .own Command.endOfInput.reply], session)
  | line :: lines =>
    let command := Command.ofLine line
    let (report?, session) := command.perform session
    let said := [Utterance.own sign, .own command.reply] ++ report?.toList.map .report
    if command.stops then (said, session)
    else
      let (later, session) := dialogue session lines
      (said ++ later, session)

def converse (session : Session) (lines : List String) : List Utterance × Session :=
  let (said, session) := dialogue session lines
  (.own intro :: said, session)

namespace Utterance

def ownText : Utterance → String
  | .own text => text
  | .report _ => ""

def report? : Utterance → Option Report
  | .own _ => none
  | .report r => some r

def text : Utterance → String
  | .own text => text
  | .report r => r.out

end Utterance

end Prompt

end Lox
