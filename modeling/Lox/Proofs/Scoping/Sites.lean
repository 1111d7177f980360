import Lox.Proofs.Scoping.Keys

namespace Lox

/-- Where a part of a program stands: the statements before it in each block around it, the innermost block first,
and those before it at top level. -/
structure Site where
  blocks : List (List Node)
  top : List Node
  deriving DecidableEq, Inhabited

inductive Slot where
  | block (index : Nat)
  | globals
  deriving DecidableEq, Inhabited

namespace Site

def inner (p : Site) (before : List Node) : Site :=
  { p with blocks := before :: p.blocks }

def keys (p : Site) (globals : List Name) : Keys :=
  (p.blocks.map (declared []), declared globals p.top)

/-- The innermost block around a site that declares a name before it, or else the globals if the name is there. -/
def slot? (p : Site) (globals : List Name) (x : Name) : Option Slot :=
  match p.blocks.findIdx? fun before => ∃ n ∈ before, n.declares? = some x with
  | some i => some (.block i)
  | none => if x ∈ globals ∨ ∃ n ∈ p.top, n.declares? = some x then some .globals else none

end Site

namespace Env

def scope? (env : Env) : Slot → Option Scope
  | .block i => env.locals[i]?
  | .globals => some env.globals

def store (env : Env) (x : Name) (v : Value) : Slot → Env
  | .block i => { env with locals := env.locals.modify i (Entries.set x v) }
  | .globals => { env with globals := env.globals.set x v }

variable {env : Env} {p : Site} {globals : List Name} {x : Name}

theorem exists_get? {scope : Scope} (h : x ∈ scope.keys) : ∃ v, scope.get? x = some v :=
  Option.isSome_iff_exists.mp (Entries.has_iff.mpr h)

theorem locals_of_findIdx? {scopes : List Scope} {blocks : List (List Node)} {i : Nat} (v : Value)
    (hkeys : scopes.map Entries.keys = blocks.map (declared []))
    (h : blocks.findIdx? (fun before => ∃ n ∈ before, n.declares? = some x) = some i) :
    (∃ scope w, scopes[i]? = some scope ∧ scope.get? x = some w ∧ scopes.findSome? (Entries.get? x) = some w) ∧
      assignFirst? x v scopes = some (scopes.modify i (Entries.set x v)) := by
  induction blocks generalizing scopes i with
  | nil => cases h
  | cons before blocks ih =>
    obtain ⟨scope, scopes, rfl⟩ : ∃ scope rest, scopes = scope :: rest := by
      cases scopes with
      | nil => cases hkeys
      | cons scope rest => exact ⟨scope, rest, rfl⟩
    rw [List.map_cons, List.map_cons, List.cons.injEq] at hkeys
    obtain ⟨hscope, hrest⟩ := hkeys
    have hmem : x ∈ scope.keys ↔ ∃ n ∈ before, n.declares? = some x := by
      rw [hscope, mem_declared]
      simp
    rw [List.findIdx?_cons] at h
    split at h
    · rename_i hx
      cases h
      have hx := hmem.mpr (by simpa using hx)
      obtain ⟨w, hw⟩ := exists_get? hx
      refine ⟨⟨scope, w, rfl, hw, by rw [List.findSome?_cons, hw]⟩, ?_⟩
      rw [assignFirst?, if_pos (Entries.has_iff.mpr hx)]
      rfl
    · rename_i hx
      obtain ⟨j, hj, rfl⟩ := Option.map_eq_some_iff.mp h
      have hx : x ∉ scope.keys := fun hm => hx (by simpa using hmem.mp hm)
      obtain ⟨⟨found, w, hfound, hw, hfirst⟩, hassign⟩ := ih hrest hj
      refine ⟨⟨found, w, by rw [List.getElem?_cons_succ, hfound], hw, ?_⟩, ?_⟩
      · rw [List.findSome?_cons, Entries.get?_eq_none hx]
        exact hfirst
      · rw [assignFirst?, if_neg (mt Entries.has_iff.mp hx), hassign]
        rfl

theorem locals_of_findIdx?_none {scopes : List Scope} {blocks : List (List Node)} (v : Value)
    (hkeys : scopes.map Entries.keys = blocks.map (declared []))
    (h : blocks.findIdx? (fun before => ∃ n ∈ before, n.declares? = some x) = none) :
    scopes.findSome? (Entries.get? x) = none ∧ assignFirst? x v scopes = none := by
  have hnot : ∀ scope ∈ scopes, x ∉ scope.keys := by
    intro scope hm hx
    have hscope : scope.keys ∈ blocks.map (declared []) := hkeys ▸ List.mem_map_of_mem hm
    obtain ⟨before, hbefore, heq⟩ := List.mem_map.mp hscope
    have hdeclared : ∃ n ∈ before, n.declares? = some x := by
      rw [← heq, mem_declared] at hx
      simpa using hx
    simpa [hdeclared] using List.findIdx?_eq_none_iff.mp h before hbefore
  clear hkeys
  refine ⟨List.findSome?_eq_none_iff.mpr fun scope hm => Entries.get?_eq_none (hnot scope hm), ?_⟩
  induction scopes with
  | nil => rfl
  | cons scope scopes ih =>
    have hx := hnot scope (by simp)
    have ih := ih fun scope hm => hnot scope (by simp [hm])
    rw [assignFirst?, if_neg (mt Entries.has_iff.mp hx), ih]
    rfl

theorem mem_globals (hkeys : env.keys = p.keys globals) :
    x ∈ env.globals.keys ↔ x ∈ globals ∨ ∃ n ∈ p.top, n.declares? = some x := by
  have hglobals : env.globals.keys = declared globals p.top := congrArg Prod.snd hkeys
  rw [hglobals, mem_declared]

theorem found_of_slot? {slot : Slot} (v : Value) (hkeys : env.keys = p.keys globals) (h : p.slot? globals x = some slot) :
    (∃ scope w, env.scope? slot = some scope ∧ scope.get? x = some w ∧ env.get? x = some w) ∧
      env.assign? x v = some (env.store x v slot) := by
  have hlocals : env.locals.map Entries.keys = p.blocks.map (declared []) := congrArg Prod.fst hkeys
  unfold Site.slot? at h
  split at h
  · rename_i i hi
    cases h
    obtain ⟨⟨scope, w, hscope, hw, hfirst⟩, hassign⟩ := locals_of_findIdx? v hlocals hi
    refine ⟨⟨scope, w, hscope, hw, ?_⟩, ?_⟩
    · rw [get?, hfirst, Option.some_or]
    · rw [assign?, hassign]
      rfl
  · rename_i hnone
    split at h
    · rename_i hx
      cases h
      obtain ⟨hfirst, hassign⟩ := locals_of_findIdx?_none v hlocals hnone
      have hx := (mem_globals hkeys).mpr hx
      obtain ⟨w, hw⟩ := exists_get? hx
      refine ⟨⟨env.globals, w, rfl, hw, ?_⟩, ?_⟩
      · rw [get?, hfirst, Option.none_or, hw]
      · rw [assign?, hassign]
        exact if_pos (Entries.has_iff.mpr hx)
    · cases h

theorem not_found_of_slot? (v : Value) (hkeys : env.keys = p.keys globals) (h : p.slot? globals x = none) :
    env.get? x = none ∧ env.assign? x v = none := by
  have hlocals : env.locals.map Entries.keys = p.blocks.map (declared []) := congrArg Prod.fst hkeys
  unfold Site.slot? at h
  split at h
  · cases h
  · rename_i hnone
    split at h
    · cases h
    · rename_i hx
      obtain ⟨hfirst, hassign⟩ := locals_of_findIdx?_none v hlocals hnone
      have hx := mt (mem_globals hkeys).mp hx
      refine ⟨?_, ?_⟩
      · rw [get?, hfirst, Option.none_or, Entries.get?_eq_none hx]
      · rw [assign?, hassign]
        exact if_neg (mt Entries.has_iff.mp hx)

end Env

end Lox
