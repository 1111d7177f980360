import Lox.Proofs.Footprints.Uses
import Lox.Proofs.Tandem

namespace Lox

namespace Scope

def AgreeOn (names : List Name) (globals globals' : Scope) : Prop :=
  ∀ x ∈ names, globals.get? x = globals'.get? x

def AgreeOff (names : List Name) (globals globals' : Scope) : Prop :=
  ∀ x, x ∉ names → globals.get? x = globals'.get? x

variable {names : List Name} {globals globals' : Scope}

theorem AgreeOn.set (h : AgreeOn names globals globals') (x : Name) (v : Value) :
    AgreeOn names (Entries.set x v globals) (Entries.set x v globals') := by
  intro y hy
  by_cases hyx : y = x
  · subst hyx
    rw [Entries.get?_set_self, Entries.get?_set_self]
  · rw [Entries.get?_set_of_ne hyx, Entries.get?_set_of_ne hyx]
    exact h y hy

theorem AgreeOff.set (h : AgreeOff names globals globals') {x : Name} (hx : x ∈ names) (v : Value) :
    AgreeOff names (Entries.set x v globals) globals' := by
  intro y hy
  have hyx : y ≠ x := by
    rintro rfl
    exact hy hx
  rw [Entries.get?_set_of_ne hyx]
  exact h y hy

end Scope

/-- Scopes of two runs of a program: the local ones are the same, the globals agree where the program looks, and both
runs have left alone what it does not write. -/
structure Env.Confined (program : List Node) (globals globals' : Scope) (env env' : Env) : Prop where
  locals : env.locals = env'.locals
  agree : env.globals.AgreeOn (namesOf program) env'.globals
  unwritten : env.globals.AgreeOff (writtenBy program) globals
  unwritten' : env'.globals.AgreeOff (writtenBy program) globals'

namespace Env.Confined

variable {program : List Node} {globals globals' : Scope} {env env' : Env} {x : Name}

theorem start (h : globals.AgreeOn (namesOf program) globals') :
    Confined program globals globals' (.start globals) (.start globals') :=
  ⟨rfl, h, fun _ _ => rfl, fun _ _ => rfl⟩

theorem get? (h : Confined program globals globals' env env') (hx : x ∈ namesOf program) :
    env.get? x = env'.get? x := by
  unfold Env.get?
  rw [h.locals, h.agree x hx]

theorem enter (h : Confined program globals globals' env env') :
    Confined program globals globals' env.enter env'.enter :=
  ⟨congrArg ([] :: ·) h.locals, h.agree, h.unwritten, h.unwritten'⟩

theorem leave (h : Confined program globals globals' env env') :
    Confined program globals globals' env.leave env'.leave :=
  ⟨congrArg List.tail h.locals, h.agree, h.unwritten, h.unwritten'⟩

variable (hx : .written x ∈ Node.usesAll program) (v : Value)

include hx

theorem set_globals (h : Confined program globals globals' env env') : Confined program globals globals'
    { env with globals := env.globals.set x v } { env' with globals := env'.globals.set x v } :=
  ⟨h.locals, h.agree.set x v, h.unwritten.set (mem_writtenBy.mpr hx) v, h.unwritten'.set (mem_writtenBy.mpr hx) v⟩

theorem define (h : Confined program globals globals' env env') :
    Confined program globals globals' (env.define x v) (env'.define x v) := by
  obtain ⟨locals, g⟩ := env
  obtain ⟨locals', g'⟩ := env'
  obtain rfl : locals = locals' := h.locals
  cases locals with
  | nil => exact h.set_globals hx v
  | cons scope scopes => exact ⟨rfl, h.agree, h.unwritten, h.unwritten'⟩

theorem assign? (h : Confined program globals globals' env env') :
    Option.Rel (Confined program globals globals') (env.assign? x v) (env'.assign? x v) := by
  have hhas : env.globals.has x = env'.globals.has x := congrArg Option.isSome (h.agree x (mem_namesOf hx))
  have hset := h.set_globals hx v
  rw [h.locals] at hset
  unfold Env.assign?
  rw [h.locals, hhas]
  split
  · exact .some ⟨rfl, h.agree, h.unwritten, h.unwritten'⟩
  split
  · exact .some hset
  · exact .none

end Env.Confined

def Machine.Confined (program : List Node) (globals globals' : Scope) (m m' : Machine) : Prop :=
  m.env.Confined program globals globals' m'.env ∧ m.printed = m'.printed ∧ m.notes = m'.notes

namespace Run

variable {s : Settings} {program : List Node} {globals globals' : Scope} {m m' : Machine}

theorem noted_confined (hm : m.Confined program globals globals' m') (level : Nat) (text : String) :
    (m.noted s level text).Confined program globals globals' (m'.noted s level text) :=
  ⟨hm.1, hm.2.1, congrArg (· ++ s.note level text) hm.2.2⟩

theorem coupled_confined (s : Settings) (program : List Node) (globals globals' : Scope) :
    CoupledOn (· ∈ Node.usesAll program) s s fun _ => Machine.Confined program globals globals' where
  turns := rfl
  note hm _ _ text := noted_confined hm _ text
  noteDepth {_ m m'} hm := by
    have hdepth : m.env.depth = m'.env.depth := congrArg List.length hm.1.locals
    rw [hdepth]
    exact noted_confined hm _ _
  print hm line := ⟨hm.1, congrArg (·.push line) hm.2.1, hm.2.2⟩
  get? hm x hx := hm.1.get? (mem_namesOf hx)
  assign? {_ m m'} hm x v hx := by
    have henv := hm.1.assign? hx v
    generalize m.env.assign? x v = env? at henv
    generalize m'.env.assign? x v = env?' at henv
    cases henv with
    | some h => exact .some ⟨h, hm.2⟩
    | none => exact .none
  define hm x v hx := ⟨hm.1.define hx v, hm.2⟩
  enter hm := ⟨hm.1.enter, hm.2⟩
  leave hm := ⟨hm.1.leave, hm.2⟩

theorem interpret_confined (hm : m.Confined program globals globals' m') :
    (interpret s program m).1 = (interpret s program m').1 ∧
      (interpret s program m).2.Confined program globals globals' (interpret s program m').2 := by
  have hends := (coupled_confined s program globals globals').interpret (f := id) rfl (fun e hm => ?_) (fun _ h => h) hm
    (.inl rfl)
  · rw [Node.relineAll_id, Ending.reline_id] at hends
    exact ⟨hends.1.symm, hends.2⟩
  · rw [failed_apply, failed_apply]
    exact noted_confined hm 1 _

end Run

/-- A run comes to no end, whatever number of turns its loops may take. -/
def Endless (s : Settings) (program : List Node) (globals : Scope) : Prop :=
  ∀ turns, (interpret { s with turns := turns } program ⟨.start globals, #[], #[]⟩).1 = .outOfTurns

/-- From globals that agree on the names of a program, it runs on without end or comes to the same end, a fault at the
same token included, with the same lines printed and noted. The globals still agree on its names then, and those that it
does not write are as they were. -/
theorem run_confined (s : Settings) (program : List Node) {globals globals' : Scope}
    (h : ∀ x ∈ namesOf program, globals.get? x = globals'.get? x) :
    let r := interpret s program ⟨.start globals, #[], #[]⟩
    let r' := interpret s program ⟨.start globals', #[], #[]⟩
    (Endless s program globals ↔ Endless s program globals') ∧
      r.1 = r'.1 ∧ r.2.printed = r'.2.printed ∧ r.2.notes = r'.2.notes ∧
      (∀ x ∈ namesOf program, r.2.env.globals.get? x = r'.2.env.globals.get? x) ∧
      (∀ x, x ∉ writtenBy program → r.2.env.globals.get? x = globals.get? x) ∧
      ∀ x, x ∉ writtenBy program → r'.2.env.globals.get? x = globals'.get? x := by
  have hstart : Machine.Confined program globals globals' ⟨.start globals, #[], #[]⟩ ⟨.start globals', #[], #[]⟩ :=
    ⟨.start h, rfl, rfl⟩
  obtain ⟨hending, henv, hprinted, hnotes⟩ := Run.interpret_confined (s := s) hstart
  refine ⟨?_, hending, hprinted, hnotes, henv.agree, henv.unwritten, henv.unwritten'⟩
  apply forall_congr'
  intro turns
  rw [(Run.interpret_confined hstart).1]

theorem run_confined_shadowing :
    let name (x : String) : Node := .token ⟨.identifier, .text x, .nil, 1⟩
    let program : List Node := [
      .block [.var (name "x") (.variable (name "x")), .expression (.assign (name "y") (.variable (name "x"))),
        .expression (.assign (name "x") (.literal .nil))],
      .print (.variable (name "z"))]
    let globals : Scope := [(.text "x", .text "a"), (.text "y", .nil), (.text "w", .bool true)]
    let globals' : Scope := [(.text "y", .nil), (.text "x", .text "a")]
    (∀ x ∈ namesOf program, globals.get? x = globals'.get? x) ∧
      (interpret ⟨0, 0, 9⟩ program ⟨.start globals, #[], #[]⟩).1 =
        (interpret ⟨0, 0, 9⟩ program ⟨.start globals', #[], #[]⟩).1 ∧
      (interpret ⟨0, 0, 9⟩ program ⟨.start globals, #[], #[]⟩).1 =
        .failed ⟨⟨.identifier, .text "z", .nil, 1⟩, .undefinedVariable "z"⟩ := by
  intro name program globals globals'
  have hagree : ∀ x ∈ namesOf program, globals.get? x = globals'.get? x := by decide +kernel
  exact ⟨hagree, (run_confined ⟨0, 0, 9⟩ program hagree).2.1, by decide +kernel⟩

end Lox
