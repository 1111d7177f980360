import Lox.Proofs.Scoping.Programs
import Lox.Proofs.Scoping.Undefined

namespace Lox

open Run

/-- A program is run with lexical scopes. -/
structure Scoped (s : Settings) (program : List Node) (globals : Scope) (start : Machine) : Prop where
  keys : ∀ {p limit t m}, Reached s program start p limit t m →
    m.env.keys = p.keys globals.keys ∧ m.env.depth = p.blocks.length
  fresh : ∀ {p limit t m}, Reached s program start p limit t m → p.blocks.head? = some [] → m.env.locals.head? = some []
  kept : ∀ {p limit before n behind m m₁},
    Reached s program start p (limit + 1) (.execute (.block (before ++ n :: behind))) m →
    inside s limit before { m with env := m.env.enter } = .ok () m₁ → m₁.env.leave.keys = m.env.keys
  read : ∀ {p limit t x m}, Reached s program start p (limit + 1) (.evaluate (.variable (.token t))) m →
    t.name? = some x →
    match p.slot? globals.keys x with
    | some slot => ∃ scope v, m.env.scope? slot = some scope ∧ scope.get? x = some v ∧
      evaluate s (limit + 1) (.variable (.token t)) m = .ok v m
    | none => evaluate s (limit + 1) (.variable (.token t)) m = .error (.fault ⟨t, .undefinedVariable t.spelling⟩) m
  assigned : ∀ {p limit t x e m v m₁}, Reached s program start p (limit + 1) (.evaluate (.assign (.token t) e)) m →
    t.name? = some x → evaluate s limit e m = .ok v m₁ →
    match p.slot? globals.keys x with
    | some slot => ∃ m₂, evaluate s (limit + 1) (.assign (.token t) e) m = .ok v m₂ ∧ m₂.env = m₁.env.store x v slot
    | none => evaluate s (limit + 1) (.assign (.token t) e) m = .error (.fault ⟨t, .undefinedVariable t.spelling⟩) m₁
  undefined : ∀ {t text}, (interpret s program start).1 = .failed ⟨t, .undefinedVariable text⟩ →
    ∃ p limit task m x, Reached s program start p (limit + 1) task m ∧ task.Names s limit t m ∧
      t.name? = some x ∧ p.slot? globals.keys x = none
  left : (interpret s program start).2.env.locals = [] ∧
    ∃ before behind m, program = before ++ behind ∧ before.forM (execute s s.depth) start = .ok () m ∧
      (interpret s program start).2.env.globals.keys = declared globals.keys before ∧
      ((interpret s program start).1 = .finished ∧ behind = [] ∨
        ∃ n rest e m', behind = n :: rest ∧ execute s s.depth n m = .error e m' ∧
          (interpret s program start).1 = e.ending n)

section

variable {s : Settings} {program : List Node} {globals : Scope} {start : Machine}

section

variable {p : Site} {limit : Nat} {t : Token} {x : Name} {m : Machine}

theorem read_of_keys (hkeys : m.env.keys = p.keys globals.keys) (hname : t.name? = some x) :
    match p.slot? globals.keys x with
    | some slot => ∃ scope v, m.env.scope? slot = some scope ∧ scope.get? x = some v ∧
      evaluate s (limit + 1) (.variable (.token t)) m = .ok v m
    | none => evaluate s (limit + 1) (.variable (.token t)) m = .error (.fault ⟨t, .undefinedVariable t.spelling⟩) m := by
  rw [evaluate_variable, lookup_apply hname]
  split
  · rename_i slot hslot
    obtain ⟨⟨scope, v, hscope, hv, hget⟩, -⟩ := Env.found_of_slot? .nil hkeys hslot
    exact ⟨scope, v, hscope, hv, by rw [hget]⟩
  · rename_i hslot
    rw [(Env.not_found_of_slot? .nil hkeys hslot).1]

theorem assigned_of_keys {e : Node} {v : Value} {m₁ : Machine} (hkeys : m.env.keys = p.keys globals.keys)
    (hname : t.name? = some x) (hv : evaluate s limit e m = .ok v m₁) :
    match p.slot? globals.keys x with
    | some slot => ∃ m₂, evaluate s (limit + 1) (.assign (.token t) e) m = .ok v m₂ ∧ m₂.env = m₁.env.store x v slot
    | none => evaluate s (limit + 1) (.assign (.token t) e) m = .error (.fault ⟨t, .undefinedVariable t.spelling⟩) m₁ := by
  have hkeys := (((closed_keeps s).evaluate _ _).ok hv).trans hkeys
  rw [evaluate_assign hv, bind_apply, assign_apply hname]
  split
  · rename_i slot hslot
    rw [(Env.found_of_slot? _ hkeys hslot).2]
    obtain ⟨m₂, hm₂, henv⟩ := note_return _ _
    exact ⟨m₂, hm₂, henv⟩
  · rename_i hslot
    rw [(Env.not_found_of_slot? _ hkeys hslot).2]

theorem slot?_of_undefined {task : Task} (hkeys : m.env.keys = p.keys globals.keys) (hn : task.Names s limit t m)
    (hu : task.Undefined s (limit + 1) t m) : ∃ x, t.name? = some x ∧ p.slot? globals.keys x = none := by
  cases hname : t.name? with
  | none =>
    cases hn with
    | read =>
      obtain ⟨text, m', hu⟩ := hu
      rw [evaluate_variable, lookup_misfit hname] at hu
      cases hu
    | assigned hv =>
      obtain ⟨text, m', hu⟩ := hu
      rw [evaluate_assign hv, bind_apply, assign_misfit hname] at hu
      cases hu
  | some x =>
    refine ⟨x, rfl, ?_⟩
    cases hslot : p.slot? globals.keys x with
    | none => rfl
    | some slot =>
      cases hn with
      | read =>
        have hread := @read_of_keys s globals p limit t x m hkeys hname
        rw [hslot] at hread
        obtain ⟨scope, v, -, -, hok⟩ := hread
        obtain ⟨text, m', hu⟩ := hu
        rw [hok] at hu
        cases hu
      | assigned hv =>
        have hassigned := assigned_of_keys hkeys hname hv
        rw [hslot] at hassigned
        obtain ⟨m₂, hok, -⟩ := hassigned
        obtain ⟨text, m', hu⟩ := hu
        rw [hok] at hu
        cases hu

end

theorem eq_fault_of_ending {e : Stop} {n : Node} {t : Token} {text : String}
    (h : e.ending n = .failed ⟨t, .undefinedVariable text⟩) : e = .fault ⟨t, .undefinedVariable text⟩ := by
  cases e with
  | fault e =>
    cases h
    rfl
  | _ => cases h

theorem locals_eq_nil {env : Env} {keys : List Name} (h : env.keys = ([], keys)) : env.locals = [] :=
  List.map_eq_nil_iff.mp (congrArg Prod.fst h)

theorem scoped_of_tidy (hp : ∀ n ∈ program, n.Tidy) (hs : start.env = .start globals) :
    Scoped s program globals start := by
  have hreached : ∀ {p limit t m}, Reached s program start p limit t m → t.Tidy ∧ m.env.keys = p.keys globals.keys :=
    fun h => h.keys hp hs
  have hstops := interpret_stops (s := s) hp start
  refine ⟨fun h => ?_, fun h hfirst => ?_, fun h hx => ?_, fun h => read_of_keys (hreached h).2,
    fun h => assigned_of_keys (hreached h).2, fun h => ?_, ?_⟩
  · obtain ⟨-, hkeys⟩ := hreached h
    refine ⟨hkeys, ?_⟩
    have hlength := congrArg (fun keys => keys.1.length) hkeys
    simpa [Env.keys, Env.depth, Site.keys] using hlength
  · obtain ⟨-, hkeys⟩ := hreached h
    have hhead := congrArg (fun keys => keys.1.head?) hkeys
    simp only [Env.keys, Site.keys, List.head?_map, hfirst, Option.map_some] at hhead
    obtain ⟨scope, hscope, hnil⟩ := Option.map_eq_some_iff.mp hhead
    rw [hscope, List.map_eq_nil_iff.mp hnil]
  · obtain ⟨ht, -⟩ := hreached h
    have htidy := Node.tidyAll_iff.mp ht
    have hkeys := inside_keys (fun n hn => htidy n (by simp [hn])) hx
    have hlocals := congrArg (fun keys => keys.1.tail) hkeys
    have hglobals := congrArg Prod.snd hkeys
    refine Prod.ext ?_ hglobals
    simpa [Env.keys, Env.leave, List.map_tail] using hlocals
  · obtain ⟨before, behind, m, heq, hm, -, ⟨hfinished, -⟩ | ⟨n, rest, e, m', rfl, hx, hend⟩⟩ := hstops
    · rw [hfinished] at h
      cases h
    · cases eq_fault_of_ending (hend.symm.trans h)
      obtain ⟨p, limit, task, m₁, hr, hn, hu⟩ := (Reached.top heq hm).undefined ⟨_, m', hx⟩
      obtain ⟨x, hname, hslot⟩ := slot?_of_undefined (hreached hr).2 hn hu
      exact ⟨p, limit, task, m₁, x, hr, hn, hname, hslot⟩
  · obtain ⟨before, behind, m, heq, hm, hkeys, hend⟩ := hstops
    rw [(forM_execute_declares fun n hn => hp n (by simp [heq, hn])).ok hm, hs] at hkeys
    exact ⟨locals_eq_nil hkeys, before, behind, m, heq, hm, congrArg Prod.snd hkeys, hend⟩

end

/-- Whatever either front end reads is run with lexical scopes. -/
theorem run_scoped (f : FrontEnd) (source : String) (s : Settings) (globals : Scope) (notes : Array Note) :
    Scoped s (f.read source).statements globals ⟨.start globals, #[], notes⟩ :=
  scoped_of_tidy (statements_tidy f source) rfl

theorem run_scoped_shadowing :
    let source := "var a = true; { print a; var a = nil; print a; }"
    let s : Settings := ⟨0, 10, 10⟩
    let program := (FrontEnd.descent.read source).statements
    let start : Machine := ⟨.start [], #[], #[]⟩
    let a : Token := ⟨.identifier, .text "a", .nil, 1⟩
    let read := Task.evaluate (.variable (.token a))
    Scoped s program [] start ∧
      ∃ p p' limit m m', Reached s program start p (limit + 1) read m ∧ p.slot? [] (.text "a") = some .globals ∧
        evaluate s (limit + 1) (.variable (.token a)) m = .ok (.bool true) m ∧
        Reached s program start p' (limit + 1) read m' ∧ p'.slot? [] (.text "a") = some (.block 0) ∧
        evaluate s (limit + 1) (.variable (.token a)) m' = .ok .nil m' := by
  intro source s program start a read
  have hscoped : Scoped s program [] start := run_scoped .descent source s [] #[]
  let outer : Node := .var (.token a) (.literal (.bool true))
  let shown : Node := .print (.variable (.token a))
  let inner : Node := .var (.token a) (.literal .nil)
  have hprogram : program = [outer, .block [shown, inner, shown]] := by decide +kernel
  let around : Machine := ⟨⟨[], [(.text "a", .bool true)]⟩, #[], #[]⟩
  have htop : Reached s program start ⟨[], [outer]⟩ 10 (.execute (.block [shown, inner, shown])) around :=
    .top hprogram rfl
  have hinside : ∀ {before n behind m}, before ++ n :: behind = [shown, inner, shown] →
      inside s 9 before { around with env := around.env.enter } = .ok () m →
      Reached s program start ⟨[before], [outer]⟩ 9 (.execute n) m :=
    fun heq h => .block (heq ▸ htop) h
  have hfirst : Reached s program start ⟨[[]], [outer]⟩ 8 read _ := .call (hinside rfl rfl) .print
  have hlast : Reached s program start ⟨[[shown, inner]], [outer]⟩ 8 read _ := .call (hinside rfl rfl) .print
  refine ⟨hscoped, _, _, 7, _, _, hfirst, by decide +kernel, ?_, hlast, by decide +kernel, ?_⟩
  · obtain ⟨scope, v, hscope, hv, hread⟩ := hscoped.read hfirst rfl
    cases hscope
    cases hv
    exact hread
  · obtain ⟨scope, v, hscope, hv, hread⟩ := hscoped.read hlast rfl
    cases hscope
    cases hv
    exact hread

end Lox
