import Lox.Proofs.Forests.Chains
import Lox.Proofs.Scoping.Keys

/-!
What is stored in a forest of scopes, however it was made: a name is looked up where the nearest scope has it and gives
what was stored there last, and storing touches no other variable. Main statement: `store_laws`.
-/
namespace Lox

namespace Forest

variable {f f' : Forest} {i j : Nat} {x y : Name} {v : Value}

section

variable {enclosing : Option Nat}

theorem scope_of_le (h : f.size ≤ i) : f.scope i = [] := by
  rw [scope, Array.getElem?_eq_none h]
  rfl

theorem scope_plant (f : Forest) (enclosing : Option Nat) (j : Nat) : (f.plant enclosing).scope j = f.scope j := by
  by_cases h : j = f.size
  · rw [scope_of_le (Nat.le_of_eq h.symm), scope, plant, Array.getElem?_push, if_pos h]
    rfl
  · rw [scope, plant, Array.getElem?_push, if_neg h, scope]

theorem aged_plant (ha : f.Aged) (h : ∀ e ∈ enclosing, e < f.size) : (f.plant enclosing).Aged := by
  intro i t ht e he
  rw [plant, Array.getElem?_push] at ht
  split at ht
  · rename_i hi
    cases ht
    exact hi ▸ h e he
  · exact ha i t ht e he

theorem tract_define (f : Forest) (i j : Nat) (x : Name) (v : Value) : (f.define i x v)[j]? =
    if i = j then f[j]?.map fun t => { t with scope := t.scope.set x v } else f[j]? := by
  rw [define, Array.getElem?_modify]

theorem enclosing_define (f : Forest) (i j : Nat) (x : Name) (v : Value) :
    (f.define i x v)[j]?.map Tract.enclosing = f[j]?.map Tract.enclosing := by
  rw [tract_define]
  split
  · cases f[j]? <;> rfl
  · rfl

theorem chain_define (f : Forest) (i j : Nat) (x : Name) (v : Value) : (f.define i x v).chain j = f.chain j :=
  chain_congr (fun j => enclosing_define f i j x v) Array.size_modify j

theorem aged_define (ha : f.Aged) : (f.define i x v).Aged := by
  intro j t ht e he
  have henclosing := enclosing_define f i j x v
  rw [ht, Option.map_some] at henclosing
  obtain ⟨t', ht', heq⟩ := Option.map_eq_some_iff.mp henclosing.symm
  exact ha j t' ht' e (heq ▸ he)

theorem scope_define (h : i < f.size) : (f.define i x v).scope j = if j = i then (f.scope i).set x v else f.scope j := by
  obtain ⟨t, ht⟩ := exists_tract h
  by_cases hj : j = i
  · subst hj
    rw [scope, tract_define, if_pos rfl, if_pos rfl, scope, ht]
    rfl
  · rw [scope, tract_define, if_neg (Ne.symm hj), if_neg hj, scope]

theorem has_define (h : i < f.size) :
    ((f.define i x v).scope j).has y = (decide (j = i ∧ y = x) || (f.scope j).has y) := by
  rw [scope_define h]
  by_cases hj : j = i
  · subst hj
    rw [if_pos rfl, Entries.has_set]
    simp
  · rw [if_neg hj]
    simp [hj]

theorem get?_scope_define (h : i < f.size) (hne : ¬ (j = i ∧ y = x)) :
    ((f.define i x v).scope j).get? y = (f.scope j).get? y := by
  rw [scope_define h]
  split
  · rename_i hj
    subst hj
    exact Entries.get?_set_of_ne (fun hy => hne ⟨rfl, hy⟩) v _
  · rfl

end

def Reaches (f : Forest) (j i : Nat) (x : Name) : Prop :=
  ∃ before behind, f.chain j = before ++ i :: behind ∧ ∀ k ∈ before, (f.scope k).has x = false

theorem owner?_eq_some_iff_reaches : f.owner? j x = some i ↔ (f.scope i).has x = true ∧ f.Reaches j i x :=
  owner?_eq_some_iff

theorem get?_of_owner? (h : f.owner? j x = some i) : f.get? j x = (f.scope i).get? x := by
  rw [get?, h]
  rfl

theorem get?_eq_none_iff : f.get? j x = none ↔ f.owner? j x = none := by
  cases h : f.owner? j x with
  | none => simp [get?, h]
  | some i =>
    have hhas : ((f.scope i).get? x).isSome = true := (owner?_eq_some_iff.mp h).1
    rw [get?_of_owner? h]
    exact iff_of_false (Option.isSome_iff_ne_none.mp hhas) (Option.some_ne_none i)

theorem size_of_owner? (h : f.owner? j x = some i) : i < f.size := by
  have hhas := (owner?_eq_some_iff.mp h).1
  refine Nat.lt_of_not_le fun hi => ?_
  rw [scope_of_le hi] at hhas
  cases hhas

theorem owner?_define_self (h : i < f.size) (hr : f.Reaches j i x) : (f.define i x v).owner? j x = some i := by
  obtain ⟨before, behind, hchain, hbefore⟩ := hr
  rw [owner?, chain_define, hchain, List.find?_append]
  cases hfind : before.find? fun k => ((f.define i x v).scope k).has x with
  | none => simp [has_define h]
  | some k =>
    have hk := List.find?_some hfind
    rw [has_define h, hbefore k (List.mem_of_find?_eq_some hfind)] at hk
    simp at hk
    rw [hk, Option.some_or]

theorem owner?_define_other (h : i < f.size) (hne : ¬ (y = x ∧ f.Reaches j i x)) :
    (f.define i x v).owner? j y = f.owner? j y := by
  have hhas : ∀ k, (f.scope k).has y = true → ((f.define i x v).scope k).has y = true := by
    intro k hk
    rw [has_define h, hk, Bool.or_true]
  cases hown : (f.define i x v).owner? j y with
  | none =>
    rw [owner?, chain_define, List.find?_eq_none] at hown
    exact (List.find?_eq_none.mpr fun k hk => mt (hhas k) (hown k hk)).symm
  | some k =>
    obtain ⟨hk, before, behind, hchain, hbefore⟩ := owner?_eq_some_iff.mp hown
    rw [chain_define] at hchain
    have hbefore' : ∀ l ∈ before, (f.scope l).has y = false := by
      intro l hl
      exact Bool.eq_false_iff.mpr (mt (hhas l) (by simp [hbefore l hl]))
    rw [has_define h, Bool.or_eq_true, decide_eq_true_iff] at hk
    rcases hk with ⟨rfl, rfl⟩ | hk
    · exact absurd ⟨rfl, before, behind, hchain, hbefore'⟩ hne
    · exact (owner?_eq_some_iff.mpr ⟨hk, before, behind, hchain, hbefore'⟩).symm

theorem get?_define_self (h : i < f.size) (hr : f.Reaches j i x) : (f.define i x v).get? j x = some v := by
  rw [get?_of_owner? (owner?_define_self h hr), scope_define h, if_pos rfl, Entries.get?_set_self]

theorem get?_define_other (h : i < f.size) (hne : ¬ (y = x ∧ f.Reaches j i x)) :
    (f.define i x v).get? j y = f.get? j y := by
  have hown := owner?_define_other (v := v) h hne
  cases hk : f.owner? j y with
  | none => rw [get?_eq_none_iff.mpr hk, get?_eq_none_iff.mpr (hown.trans hk)]
  | some k =>
    rw [get?_of_owner? hk, get?_of_owner? (hown.trans hk), get?_scope_define h]
    rintro ⟨rfl, rfl⟩
    exact hne ⟨rfl, (owner?_eq_some_iff_reaches.mp hk).2⟩

theorem assign?_eq_some_iff : f.assign? i x v = some f' ↔ ∃ o, f.owner? i x = some o ∧ f' = f.define o x v := by
  cases h : f.owner? i x with
  | none => simp [assign?, h]
  | some o => simp [assign?, h, eq_comm]

theorem assign?_eq_none_iff : f.assign? i x v = none ↔ f.get? i x = none := by
  rw [get?_eq_none_iff]
  cases h : f.owner? i x <;> simp [assign?, h]

theorem keys_scope_assign? (h : f.assign? i x v = some f') : (f'.scope j).keys = (f.scope j).keys := by
  obtain ⟨o, ho, rfl⟩ := assign?_eq_some_iff.mp h
  rw [scope_define (size_of_owner? ho)]
  split
  · rename_i hj
    rw [hj, Entries.keys_set_of_has (owner?_eq_some_iff.mp ho).1]
  · rfl

/-- A value put under a name in a scope. -/
structure Store where
  scope : Nat
  name : Name
  value : Value
  deriving DecidableEq, Inhabited

def latest (log : List Store) (i : Nat) (x : Name) : Option Value :=
  (log.find? fun s => s.scope = i ∧ s.name = x).map Store.value

inductive Act where
  | plant (enclosing : Option Nat)
  | define (i : Nat) (x : Name) (v : Value)
  | get (i : Nat) (x : Name)
  | assign (i : Nat) (x : Name) (v : Value)
  deriving DecidableEq, Inhabited

namespace Act

def Fits (f : Forest) : Act → Prop
  | .plant enclosing => ∀ e ∈ enclosing, e < f.size
  | .define i _ _ | .get i _ | .assign i _ _ => i < f.size

instance (f : Forest) : (a : Act) → Decidable (a.Fits f)
  | .plant enclosing => inferInstanceAs (Decidable (∀ e ∈ enclosing, e < f.size))
  | .define i _ _ | .get i _ | .assign i _ _ => inferInstanceAs (Decidable (i < f.size))

def perform (f : Forest) : Act → Forest
  | .plant enclosing => f.plant enclosing
  | .define i x v => f.define i x v
  | .get _ _ => f
  | .assign i x v => (f.assign? i x v).getD f

def store? (f : Forest) : Act → Option Store
  | .define i x v => some ⟨i, x, v⟩
  | .assign i x v => (f.owner? i x).map (⟨·, x, v⟩)
  | .plant _ | .get _ _ => none

end Act

/-- The forests that any acts make from nothing, with the log of what was stored. -/
inductive Grown : List Store → Forest → Prop
  | nothing : Grown [] #[]
  | act {log f} {a : Act} : Grown log f → a.Fits f → Grown ((a.store? f).toList ++ log) (a.perform f)

theorem latest_cons_self (i : Nat) (x : Name) (v : Value) (log : List Store) : latest (⟨i, x, v⟩ :: log) i x = some v := by
  simp [latest]

theorem latest_cons_other {log : List Store} (h : ¬ (j = i ∧ y = x)) :
    latest (⟨i, x, v⟩ :: log) j y = latest log j y := by
  have h' : ¬ (i = j ∧ x = y) := fun ⟨hi, hx⟩ => h ⟨hi.symm, hx.symm⟩
  simp [latest, h']

structure Sound (log : List Store) (f : Forest) : Prop where
  aged : f.Aged
  holds : ∀ i x, (f.scope i).get? x = latest log i x

namespace Sound

variable {log : List Store}

theorem plant (h : Sound log f) {enclosing : Option Nat} (he : ∀ e ∈ enclosing, e < f.size) :
    Sound log (f.plant enclosing) :=
  ⟨aged_plant h.aged he, fun i x => by rw [scope_plant, h.holds]⟩

theorem define (h : Sound log f) (hi : i < f.size) (x : Name) (v : Value) :
    Sound (⟨i, x, v⟩ :: log) (f.define i x v) := by
  refine ⟨aged_define h.aged, fun j y => ?_⟩
  by_cases hjy : j = i ∧ y = x
  · obtain ⟨rfl, rfl⟩ := hjy
    rw [latest_cons_self, scope_define hi, if_pos rfl, Entries.get?_set_self]
  · rw [latest_cons_other hjy, get?_scope_define hi hjy, h.holds]

theorem perform (h : Sound log f) {a : Act} (ha : a.Fits f) : Sound ((a.store? f).toList ++ log) (a.perform f) := by
  cases a with
  | plant enclosing => exact h.plant ha
  | define i x v => exact h.define ha x v
  | get => exact h
  | assign i x v =>
    cases ho : f.owner? i x with
    | none => simpa [Act.store?, Act.perform, assign?, ho] using h
    | some o => simpa [Act.store?, Act.perform, assign?, ho] using h.define (size_of_owner? ho) x v

end Sound

theorem sound_of_grown {log : List Store} (h : Grown log f) : Sound log f := by
  induction h with
  | nothing => exact ⟨nofun, fun _ _ => rfl⟩
  | act _ ha ih => exact ih.perform ha

/-- The laws of looking up, assigning and defining in a forest with a log. -/
structure Laws (log : List Store) (f : Forest) : Prop where
  walk : ∀ {i}, i < f.size → ∃ is, ∀ is', Walk f i is' ↔ is' = is
  depth : ∀ {i is}, i < f.size → Walk f i is → is.length = f.depth i + 1
  owner : ∀ {i x is}, i < f.size → Walk f i is → f.owner? i x = is.find? fun k => (f.scope k).has x
  get : ∀ i x, f.get? i x = (f.owner? i x).bind fun o => latest log o x
  get_fails : ∀ i x, f.get? i x = none ↔ f.owner? i x = none
  assign_fails : ∀ i x v, (f.assign? i x v = none ↔ f.get? i x = none) ∧
    (f.assign? i x v = none → (Act.assign i x v).perform f = f)
  assigned : ∀ {i x v f'}, f.assign? i x v = some f' →
    (∀ j, f.owner? j x = f.owner? i x → f'.get? j x = some v) ∧
      (∀ j y, ¬ (y = x ∧ f.owner? j x = f.owner? i x) → f'.get? j y = f.get? j y) ∧
      ∀ j, (f'.scope j).keys = (f.scope j).keys
  defined : ∀ {i x v}, i < f.size →
    (∀ j, f.Reaches j i x → (f.define i x v).get? j x = some v) ∧
      (∀ j y, ¬ (y = x ∧ f.Reaches j i x) → (f.define i x v).get? j y = f.get? j y) ∧
      ∀ j, j ≠ i → (f.define i x v).scope j = f.scope j

/-- The laws of stores hold of every forest, in whatever way it was made. -/
theorem store_laws {log : List Store} {f : Forest} (h : Grown log f) : Laws log f := by
  have hsound := sound_of_grown h
  have hwalk : ∀ {i is}, i < f.size → (Walk f i is ↔ is = f.chain i) := fun hi => walk_iff hsound.aged hi
  refine ⟨fun {i} hi => ⟨f.chain i, fun _ => hwalk hi⟩, fun hi hw => ?_, fun hi hw => ?_, fun i x => ?_,
    fun _ _ => get?_eq_none_iff, fun i x v => ⟨assign?_eq_none_iff, fun hn => ?_⟩, fun {i x v f'} hf' => ?_,
    fun hi => ⟨fun _ => get?_define_self hi, fun _ _ => get?_define_other hi, fun j hj => ?_⟩⟩
  · rw [(hwalk hi).mp hw, depth_eq hsound.aged hi]
  · rw [(hwalk hi).mp hw, owner?]
  · cases ho : f.owner? i x with
    | none => exact get?_eq_none_iff.mpr ho
    | some o => rw [get?_of_owner? ho, hsound.holds, Option.bind_some]
  · rw [Act.perform, hn, Option.getD_none]
  · obtain ⟨o, ho, rfl⟩ := assign?_eq_some_iff.mp hf'
    have hsize := size_of_owner? ho
    have hreaches : ∀ j, f.owner? j x = f.owner? i x ↔ f.Reaches j o x := by
      intro j
      rw [ho, owner?_eq_some_iff_reaches]
      exact and_iff_right (owner?_eq_some_iff.mp ho).1
    refine ⟨fun j hj => get?_define_self hsize ((hreaches j).mp hj), fun j y hne => ?_,
      fun j => keys_scope_assign? hf'⟩
    exact get?_define_other hsize fun hd => hne ⟨hd.1, (hreaches j).mpr hd.2⟩
  · rw [scope_define hi, if_neg hj]

theorem store_laws_capture :
    let a : Name := .text "a"
    let f : Forest := #[⟨none, [(a, .bool true)]⟩, ⟨some 0, []⟩, ⟨some 1, []⟩, ⟨some 1, []⟩]
    let log : List Store := [⟨0, a, .bool true⟩, ⟨0, a, .nil⟩]
    Grown log f ∧ f.get? 2 a = some (.bool true) ∧
      (f.define 1 a (.bool false)).get? 2 a = some (.bool false) ∧
      (f.define 1 a (.bool false)).get? 3 a = some (.bool false) ∧
      (f.define 1 a (.bool false)).get? 0 a = f.get? 0 a := by
  intro a f log
  have hgrown : Grown log f := by
    have hplanted : Grown [] #[⟨none, []⟩, ⟨some 0, []⟩, ⟨some 1, []⟩, ⟨some 1, []⟩] :=
      .act (a := .plant (some 1)) (.act (a := .plant (some 1)) (.act (a := .plant (some 0))
        (.act (a := .plant none) .nothing (by decide)) (by decide)) (by decide)) (by decide)
    exact .act (a := .assign 2 a (.bool true)) (.act (a := .define 0 a .nil) hplanted (by decide)) (by decide)
  have hlaws := store_laws hgrown
  have hdefined := hlaws.defined (i := 1) (x := a) (v := .bool false) (by decide)
  refine ⟨hgrown, (hlaws.get 2 a).trans (by decide), hdefined.1 2 ⟨[2], [0], by decide, by decide⟩,
    hdefined.1 3 ⟨[3], [0], by decide, by decide⟩, hdefined.2.1 0 a ?_⟩
  rintro ⟨-, before, behind, hchain, -⟩
  have hmem : 1 ∈ f.chain 0 := hchain ▸ by simp
  exact absurd hmem (by decide)

end Forest

end Lox
