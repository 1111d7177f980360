import Lox.Cursor
import Lox.Session

namespace Lox

variable (f : Int → Int)

def unlined : Int → Int := fun _ => 0

namespace Token

def reline (t : Token) : Token :=
  { t with line := f t.line }

@[simp] theorem kind_reline (t : Token) : (t.reline f).kind = t.kind := rfl

@[simp] theorem literal_reline (t : Token) : (t.reline f).literal = t.literal := rfl

@[simp] theorem lexeme_reline (t : Token) : (t.reline f).lexeme = t.lexeme := rfl

@[simp] theorem name?_reline (t : Token) : (t.reline f).name? = t.name? := rfl

@[simp] theorem spelling_reline (t : Token) : (t.reline f).spelling = t.spelling := rfl

@[simp] theorem reline_id (t : Token) : t.reline id = t := rfl

end Token

def Diagnostic.reline (d : Diagnostic) : Diagnostic :=
  { d with line := f d.line }

def Complaint.reline (x : Complaint) : Complaint :=
  { x with token := x.token.reline f }

theorem Complaint.diagnostic_reline (x : Complaint) : (x.reline f).diagnostic = x.diagnostic.reline f := rfl

def Event.reline : Event → Event
  | .entered r => .entered r
  | .taken t => .taken (t.reline f)

namespace Cursor

def reline (c : Cursor) : Cursor :=
  ⟨c.rest.map (·.reline f), c.taken, c.complaints.map (·.reline f), c.events.map (·.reline f)⟩

theorem start_reline (ts : List Token) : (start ts).reline f = start (ts.map (·.reline f)) := by
  simp [start, reline]

end Cursor

namespace Part

mutual

def reline : Part → Part
  | .value v => .value v
  | .token t => .token (t.reline f)
  | .sequence ps => .sequence (relineAll ps)
  | .node ps => .node (relineAll ps)

def relineAll : List Part → List Part
  | [] => []
  | p :: ps => p.reline :: relineAll ps

end

theorem relineAll_eq_map (ps : List Part) : relineAll f ps = ps.map (·.reline f) := by
  induction ps with
  | nil => rfl
  | cons p ps ih => rw [relineAll, ih, List.map_cons]

theorem token?_reline (p : Part) : (p.reline f).token? = p.token?.map (·.reline f) := by
  cases p <;> rfl

theorem parts_reline (p : Part) : (p.reline f).parts = p.parts.map (·.reline f) := by
  cases p with
  | value v => rfl
  | token t => rfl
  | sequence ps => exact relineAll_eq_map f ps
  | node ps => exact relineAll_eq_map f ps

mutual

theorem ofValue_reline : ∀ v : Value, (ofValue v).reline f = ofValue v
  | .list items => congrArg Part.sequence (ofItems_reline items)
  | .nil | .bool _ | .whole _ | .number _ | .text _ | .record _ => rfl

theorem ofItems_reline : ∀ vs : List Value, relineAll f (ofItems vs) = ofItems vs
  | [] => rfl
  | v :: vs => by rw [ofItems, relineAll, ofValue_reline v, ofItems_reline vs]

end

theorem firstTokenIn?_reline (queue : List Part) :
    firstTokenIn? (queue.map (·.reline f)) = (firstTokenIn? queue).map (·.reline f) := by
  fun_induction firstTokenIn? queue with
  | case1 => rw [List.map_nil, firstTokenIn?]; rfl
  | case2 p queue t ht =>
    rw [List.map_cons, firstTokenIn?, token?_reline, ht]
    rfl
  | case3 p queue ht ih =>
    rw [List.map_cons, firstTokenIn?, token?_reline, ht]
    rw [List.map_append, ← parts_reline] at ih
    exact ih

theorem firstToken_reline {p : Part} (hf : f 0 = 0 ∨ p.firstToken.line ≠ 0) :
    (p.reline f).firstToken = p.firstToken.reline f := by
  have h := firstTokenIn?_reline f [p]
  rw [List.map_singleton] at h
  rw [firstToken] at hf ⊢
  rw [firstToken, h]
  cases ht : firstTokenIn? [p] with
  | some t => rfl
  | none =>
    rw [ht] at hf
    have hzero : f 0 = 0 := hf.resolve_right fun hline => hline rfl
    simp [Token.reline, hzero]

end Part

namespace Node

mutual

def reline : Node → Node
  | .data v => .data v
  | .token t => .token (t.reline f)
  | .literal v => .literal v
  | .grouping e => .grouping e.reline
  | .unary o e => .unary o.reline e.reline
  | .binary a o b => .binary a.reline o.reline b.reline
  | .logical a o b => .logical a.reline o.reline b.reline
  | .variable n => .variable n.reline
  | .assign n e => .assign n.reline e.reline
  | .expression e => .expression e.reline
  | .print e => .print e.reline
  | .var n e => .var n.reline e.reline
  | .block ss => .block (relineAll ss)
  | .branch c a b => .branch c.reline a.reline b.reline
  | .loop c b => .loop c.reline b.reline

def relineAll : List Node → List Node
  | [] => []
  | n :: ns => n.reline :: relineAll ns

end

theorem relineAll_eq_map (ns : List Node) : relineAll f ns = ns.map (·.reline f) := by
  induction ns with
  | nil => rfl
  | cons n ns ih => rw [relineAll, ih, List.map_cons]

mutual

theorem reline_id : ∀ n : Node, n.reline id = n
  | .data _ | .token _ | .literal _ => rfl
  | .grouping e | .variable e | .expression e | .print e => by simp only [reline, reline_id e]
  | .unary a b | .assign a b | .var a b | .loop a b => by simp only [reline, reline_id a, reline_id b]
  | .binary a b c | .logical a b c | .branch a b c => by simp only [reline, reline_id a, reline_id b, reline_id c]
  | .block ss => by simp only [reline, relineAll_id ss]

theorem relineAll_id : ∀ ns : List Node, relineAll id ns = ns
  | [] => rfl
  | n :: ns => by simp only [relineAll, reline_id n, relineAll_id ns]

end

@[simp] theorem reline_absent : absent.reline f = absent := rfl

theorem reline_eq_absent {n : Node} : n.reline f = absent ↔ n = absent := by
  cases n <;> simp [reline, absent]

@[simp] theorem kindName_reline (n : Node) : (n.reline f).kindName = n.kindName := by
  cases n <;> rfl

theorem forLoop_reline (i c e : Option Node) (b : Node) :
    (forLoop i c e b).reline f = forLoop (i.map (·.reline f)) (c.map (·.reline f)) (e.map (·.reline f)) (b.reline f) := by
  cases i <;> cases c <;> cases e <;> rfl

mutual

theorem part_reline : ∀ n : Node, (n.reline f).part = n.part.reline f
  | .data v => (Part.ofValue_reline f v).symm
  | .token _ => rfl
  | .literal v => by simp only [reline, part, Part.reline, Part.relineAll, Part.ofValue_reline]
  | .grouping e | .variable e | .expression e | .print e => by
    simp only [reline, part, Part.reline, Part.relineAll, part_reline e]
  | .unary a b | .assign a b | .var a b | .loop a b => by
    simp only [reline, part, Part.reline, Part.relineAll, part_reline a, part_reline b]
  | .binary a b c | .logical a b c | .branch a b c => by
    simp only [reline, part, Part.reline, Part.relineAll, part_reline a, part_reline b, part_reline c]
  | .block ss => by simp only [reline, part, Part.reline, Part.relineAll, partAll_reline ss]

theorem partAll_reline : ∀ ns : List Node, partAll (relineAll f ns) = Part.relineAll f (partAll ns)
  | [] => rfl
  | n :: ns => by simp only [relineAll, partAll, Part.relineAll, part_reline n, partAll_reline ns]

end

theorem firstToken_reline {n : Node} (hf : f 0 = 0 ∨ n.firstToken.line ≠ 0) :
    (n.reline f).firstToken = n.firstToken.reline f := by
  rw [firstToken, part_reline]
  exact Part.firstToken_reline f hf

end Node

theorem Ascent.Phrase.fold_reline (l : Level) (a b : Node) (o : Token) :
    (fold l a o b).reline f = fold l (a.reline f) (o.reline f) (b.reline f) := by
  unfold fold
  split <;> rfl

def RuntimeError.reline (e : RuntimeError) : RuntimeError :=
  { e with token := e.token.reline f }

namespace Stop

def reline : Stop → Stop
  | .fault e => .fault (e.reline f)
  | e => e

theorem reline_id (e : Stop) : e.reline id = e := by
  cases e <;> rfl

end Stop

namespace Ending

def reline : Ending → Ending
  | .failed e => .failed (e.reline f)
  | e => e

theorem reline_id (e : Ending) : e.reline id = e := by
  cases e <;> rfl

end Ending

namespace Outcome

def reline : Outcome → Outcome
  | .rejected ds => .rejected (ds.map (·.reline f))
  | .ended e => .ended (e.reline f)

theorem reline_id (o : Outcome) : o.reline id = o := by
  cases o with
  | rejected ds => exact congrArg Outcome.rejected (List.map_id ds)
  | ended e => exact congrArg Outcome.ended e.reline_id

end Outcome

end Lox
