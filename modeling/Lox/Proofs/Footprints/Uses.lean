import Lox.Node
import Lox.Scope

namespace Lox

inductive Use where
  | read (x : Name)
  | written (x : Name)
  deriving DecidableEq, Inhabited

namespace Use

def name : Use → Name
  | .read x | .written x => x

def written? : Use → Option Name
  | .written x => some x
  | .read _ => none

end Use

namespace Node

def name? : Node → Option Name
  | .token t => t.name?
  | _ => none

mutual

def uses : Node → List Use
  | .data _ | .token _ | .literal _ => []
  | .grouping e | .unary _ e | .expression e | .print e => e.uses
  | .binary a _ b | .logical a _ b | .loop a b => a.uses ++ b.uses
  | .variable n => n.name?.toList.map .read
  | .assign n e | .var n e => e.uses ++ n.name?.toList.map .written
  | .block ss => usesAll ss
  | .branch c a b => c.uses ++ a.uses ++ b.uses

def usesAll : List Node → List Use
  | [] => []
  | n :: ns => n.uses ++ usesAll ns

end

variable {n : Node} {ns : List Node} {u : Use}

theorem mem_usesAll (hn : n ∈ ns) (hu : u ∈ n.uses) : u ∈ usesAll ns := by
  induction ns with
  | nil => cases hn
  | cons n' ns ih =>
    apply List.mem_append.mpr
    rcases List.mem_cons.mp hn with rfl | hn
    · exact .inl hu
    · exact .inr (ih hn)

theorem mem_name? {x : Name} {f : Name → Use} (h : x ∈ n.name?) : f x ∈ n.name?.toList.map f :=
  List.mem_map_of_mem (Option.mem_toList.mpr h)

end Node

/-- The names of the variables that a program reads, assigns or declares. -/
def namesOf (program : List Node) : List Name :=
  (Node.usesAll program).map Use.name

/-- The names of the variables that a program assigns or declares. -/
def writtenBy (program : List Node) : List Name :=
  (Node.usesAll program).filterMap Use.written?

theorem mem_namesOf {program : List Node} {u : Use} (h : u ∈ Node.usesAll program) : u.name ∈ namesOf program :=
  List.mem_map_of_mem h

theorem mem_writtenBy {program : List Node} {x : Name} : x ∈ writtenBy program ↔ .written x ∈ Node.usesAll program := by
  unfold writtenBy
  rw [List.mem_filterMap]
  constructor
  · rintro ⟨u, hu, hx⟩
    cases u with
    | read => cases hx
    | written => cases hx; exact hu
  · exact fun h => ⟨_, h, rfl⟩

end Lox
