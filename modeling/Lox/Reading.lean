import Lox.Ascent
import Lox.Descent

namespace Lox

inductive FrontEnd where
  | descent
  | ascent
  deriving DecidableEq, Inhabited

namespace FrontEnd

def all : List FrontEnd := [.descent, .ascent]

def name : FrontEnd → String
  | .descent => "descent"
  | .ascent => "lark"

def ofName? (s : String) : Option FrontEnd :=
  all.find? (·.name == s)

@[simp] theorem ofName?_name (f : FrontEnd) : ofName? f.name = some f := by
  cases f <;> decide

end FrontEnd

def unknownFrontEnd (v : Value) : String :=
  "unknown front end " ++ v.quoted

structure Reading where
  statements : List Node
  diagnostics : List Diagnostic
  events : Array Event
  deriving DecidableEq, Inhabited

namespace Reading

/-- The problems of the text come before those of its tokens. -/
def descent (source : String) : Reading :=
  let s := scan source
  match Descent.program Descent.depthLimit s.tokens with
  | .ok statements c => ⟨statements, s.diagnostics ++ c.complaints.toList.map Complaint.diagnostic, c.events⟩
  | .error _ c => ⟨[], s.diagnostics ++ c.complaints.toList.map Complaint.diagnostic, c.events⟩

/-- Reading with any reader of texts from the bottom up. -/
def ascentBy (parse : Ascent.Reader) (source : String) : Reading :=
  let (statements, diagnostics) := Ascent.program parse Ascent.heightLimit source
  ⟨statements, diagnostics, #[]⟩

def ascent : String → Reading :=
  ascentBy Ascent.parse

end Reading

def FrontEnd.read : FrontEnd → String → Reading
  | .descent => Reading.descent
  | .ascent => Reading.ascent

end Lox
