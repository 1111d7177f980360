import Lox.Node
import Lox.Scope

namespace Lox

namespace Entries

variable {κ α : Type} [DecidableEq κ]

theorem has_iff {key : κ} {es : Entries κ α} : es.has key = true ↔ key ∈ es.keys := by
  unfold has
  induction es with
  | nil => simp [get?, keys]
  | cons e es ih =>
    obtain ⟨k, v⟩ := e
    by_cases h : k = key
    · simp [get?, keys, h]
    · have h' : ¬ key = k := fun he => h he.symm
      rw [get?, if_neg h, ih, keys, keys, List.map_cons, List.mem_cons]
      simp [h']

theorem has_set (key other : κ) (v : α) (es : Entries κ α) :
    (es.set key v).has other = (decide (other = key) || es.has other) := by
  by_cases h : other = key
  · subst h
    simp [has]
  · simp [has, get?_set_of_ne h, h]

theorem keys_set (key : κ) (v : α) (es : Entries κ α) :
    (es.set key v).keys = if key ∈ es.keys then es.keys else es.keys ++ [key] := by
  induction es with
  | nil => rfl
  | cons e es ih =>
    obtain ⟨k, w⟩ := e
    by_cases h : k = key
    · simp [set, keys, h]
    · have h' : ¬ key = k := fun he => h he.symm
      have hcons : keys ((k, w) :: es) = k :: keys es := rfl
      have hmem : key ∈ k :: keys es ↔ key ∈ keys es := by simp [h']
      rw [set, if_neg h, keys, List.map_cons, ← keys, ih, hcons]
      by_cases hk : key ∈ keys es
      · rw [if_pos hk, if_pos (hmem.mpr hk)]
      · rw [if_neg hk, if_neg (mt hmem.mp hk)]
        rfl

theorem keys_set_of_has {key : κ} {v : α} {es : Entries κ α} (h : es.has key = true) : (es.set key v).keys = es.keys := by
  rw [keys_set, if_pos (has_iff.mp h)]

theorem get?_eq_none {key : κ} {es : Entries κ α} (h : key ∉ es.keys) : es.get? key = none := by
  cases hg : es.get? key with
  | none => rfl
  | some v => exact absurd (has_iff.mp (by rw [has, hg, Option.isSome_some])) h

end Entries

def Node.declares? : Node → Option Name
  | .var (.token t) _ => t.name?
  | _ => none

def declared (keys : List Name) (ns : List Node) : List Name :=
  (ns.filterMap Node.declares?).foldl (fun keys x => if x ∈ keys then keys else keys ++ [x]) keys

theorem declared_append (keys : List Name) (ns ms : List Node) :
    declared keys (ns ++ ms) = declared (declared keys ns) ms := by
  rw [declared, List.filterMap_append, List.foldl_append]
  rfl

theorem mem_declared {keys : List Name} {ns : List Node} {x : Name} :
    x ∈ declared keys ns ↔ x ∈ keys ∨ ∃ n ∈ ns, n.declares? = some x := by
  have hfold : ∀ (xs keys : List Name),
      x ∈ xs.foldl (fun keys x => if x ∈ keys then keys else keys ++ [x]) keys ↔ x ∈ keys ∨ x ∈ xs := by
    intro xs
    induction xs with
    | nil => simp
    | cons y ys ih =>
      intro keys
      rw [List.foldl_cons, ih, List.mem_cons]
      split
      · rename_i h
        constructor
        · rintro (h | h)
          · exact .inl h
          · exact .inr (.inr h)
        · rintro (h' | rfl | h')
          · exact .inl h'
          · exact .inl h
          · exact .inr h'
      · rw [List.mem_append, List.mem_singleton, or_assoc]
  rw [declared, hfold, List.mem_filterMap]

abbrev Keys := List (List Name) × List Name

namespace Keys

def declare (ns : List Node) : Keys → Keys
  | ([], globals) => ([], declared globals ns)
  | (scope :: scopes, globals) => (declared scope ns :: scopes, globals)

theorem declare_append (ns ms : List Node) (keys : Keys) : keys.declare (ns ++ ms) = (keys.declare ns).declare ms := by
  obtain ⟨_ | ⟨scope, scopes⟩, globals⟩ := keys <;> simp only [declare, declared_append]

theorem declare_nil (keys : Keys) : keys.declare [] = keys := by
  obtain ⟨_ | ⟨scope, scopes⟩, globals⟩ := keys <;> rfl

theorem declare_none {n : Node} (h : n.declares? = none) (keys : Keys) : keys.declare [n] = keys := by
  have hd : ∀ ks, declared ks [n] = ks := fun ks => by simp [declared, h]
  obtain ⟨_ | ⟨scope, scopes⟩, globals⟩ := keys <;> simp only [declare, hd]

end Keys

namespace Env

def keys (env : Env) : Keys :=
  (env.locals.map Entries.keys, env.globals.keys)

variable {x : Name} {v : Value} {env env' : Env}

theorem keys_assignFirst? {scopes scopes' : List Scope} (h : assignFirst? x v scopes = some scopes') :
    scopes'.map Entries.keys = scopes.map Entries.keys := by
  induction scopes generalizing scopes' with
  | nil => cases h
  | cons scope scopes ih =>
    rw [assignFirst?] at h
    split at h
    · rename_i hhas
      cases h
      rw [List.map_cons, List.map_cons, Entries.keys_set_of_has hhas]
    · obtain ⟨rest, hrest, rfl⟩ := Option.map_eq_some_iff.mp h
      rw [List.map_cons, List.map_cons, ih hrest]

theorem keys_assign? (h : env.assign? x v = some env') : env'.keys = env.keys := by
  rw [assign?] at h
  split at h
  · rename_i scopes hscopes
    cases h
    exact Prod.ext (keys_assignFirst? hscopes) rfl
  · split at h
    · rename_i hhas
      cases h
      exact Prod.ext rfl (Entries.keys_set_of_has hhas)
    · cases h

theorem keys_define {n : Node} (h : n.declares? = some x) : (env.define x v).keys = env.keys.declare [n] := by
  have hset : ∀ scope : Scope, (scope.set x v).keys = declared scope.keys [n] := by
    intro scope
    rw [Entries.keys_set, declared, List.filterMap_cons, h]
    rfl
  obtain ⟨_ | ⟨scope, scopes⟩, globals⟩ := env
  · exact Prod.ext rfl (hset globals)
  · exact Prod.ext (congrArg (· :: scopes.map Entries.keys) (hset scope)) rfl

end Env

end Lox
