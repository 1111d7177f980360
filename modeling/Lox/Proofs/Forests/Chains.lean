import Lox.Forest

namespace Lox.Forest

variable {f g : Forest} {i j : Nat} {x : Name}

def Aged (f : Forest) : Prop :=
  ∀ (i : Nat) (t : Tract), f[i]? = some t → ∀ e ∈ t.enclosing, e < i

/-- The scopes that a walk outwards passes, from `i` to one that is inside none. -/
inductive Walk (f : Forest) : Nat → List Nat → Prop
  | outermost {i t} : f[i]? = some t → t.enclosing = none → Walk f i [i]
  | outward {i t e is} : f[i]? = some t → t.enclosing = some e → Walk f e is → Walk f i (i :: is)

theorem exists_tract (h : i < f.size) : ∃ t, f[i]? = some t :=
  ⟨f[i], Array.getElem?_eq_getElem h⟩

theorem lt_size {t : Tract} (h : f[i]? = some t) : i < f.size :=
  (Array.getElem?_eq_some_iff.mp h).1

theorem chainFrom_of_le (h : f.size ≤ i) (fuel : Nat) : f.chainFrom fuel i = [] := by
  cases fuel with
  | zero => rfl
  | succ fuel => rw [chainFrom, Array.getElem?_eq_none h]

theorem chainFrom_succ {t : Tract} (h : f[i]? = some t) (fuel : Nat) :
    f.chainFrom (fuel + 1) i = i :: t.enclosing.elim [] (f.chainFrom fuel) := by
  rw [chainFrom, h]

theorem chainFrom_eq (ha : f.Aged) {fuel fuel' : Nat} (h : i < fuel) (h' : i < fuel') :
    f.chainFrom fuel i = f.chainFrom fuel' i := by
  induction fuel generalizing fuel' i with
  | zero => omega
  | succ fuel ih =>
    obtain ⟨fuel', rfl⟩ : ∃ n, fuel' = n + 1 := ⟨fuel' - 1, by omega⟩
    by_cases hi : i < f.size
    · obtain ⟨t, ht⟩ := exists_tract hi
      rw [chainFrom_succ ht, chainFrom_succ ht]
      cases he : t.enclosing with
      | none => rfl
      | some e =>
        have hlt := ha i t ht e he
        exact congrArg (i :: ·) (ih (by omega) (by omega))
    · rw [chainFrom_of_le (by omega), chainFrom_of_le (by omega)]

theorem chain_eq (ha : f.Aged) {t : Tract} (h : f[i]? = some t) : f.chain i = i :: t.enclosing.elim [] f.chain := by
  have hi := lt_size h
  obtain ⟨n, hn⟩ : ∃ n, f.size = n + 1 := ⟨f.size - 1, by omega⟩
  rw [chain, hn, chainFrom_succ h]
  cases he : t.enclosing with
  | none => rfl
  | some e =>
    have hlt := ha i t h e he
    exact congrArg (i :: ·) (chainFrom_eq ha (by omega) (by omega))

theorem walk_chain (ha : f.Aged) (h : i < f.size) : Walk f i (f.chain i) := by
  induction i using Nat.strongRecOn with
  | ind i ih =>
    obtain ⟨t, ht⟩ := exists_tract h
    rw [chain_eq ha ht]
    cases he : t.enclosing with
    | none => exact .outermost ht he
    | some e =>
      have hlt := ha i t ht e he
      exact .outward ht he (ih e hlt (by omega))

theorem Walk.eq_chain (ha : f.Aged) {is : List Nat} (h : Walk f i is) : is = f.chain i := by
  induction h with
  | outermost ht he =>
    rw [chain_eq ha ht, he]
    rfl
  | outward ht he _ ih =>
    rw [chain_eq ha ht, he, ih]
    rfl

theorem walk_iff (ha : f.Aged) (h : i < f.size) {is : List Nat} : Walk f i is ↔ is = f.chain i :=
  ⟨fun hw => hw.eq_chain ha, fun he => he ▸ walk_chain ha h⟩

theorem depth_eq (ha : f.Aged) (h : i < f.size) : f.depth i + 1 = (f.chain i).length := by
  obtain ⟨t, ht⟩ := exists_tract h
  rw [depth, chain_eq ha ht, List.length_cons, Nat.add_sub_cancel]

theorem owner?_eq_some_iff : f.owner? i x = some j ↔ (f.scope j).has x = true ∧
    ∃ before behind, f.chain i = before ++ j :: behind ∧ ∀ k ∈ before, (f.scope k).has x = false := by
  rw [owner?, List.find?_eq_some_iff_append]
  simp

theorem chain_congr (h : ∀ i : Nat, g[i]?.map Tract.enclosing = f[i]?.map Tract.enclosing) (hs : g.size = f.size) (i : Nat) :
    g.chain i = f.chain i := by
  have hfrom : ∀ fuel i, g.chainFrom fuel i = f.chainFrom fuel i := by
    intro fuel
    induction fuel with
    | zero => exact fun _ => rfl
    | succ fuel ih =>
      intro i
      have hi := h i
      rw [chainFrom, chainFrom]
      cases hf : f[i]? with
      | none =>
        rw [hf, Option.map_none, Option.map_eq_none_iff] at hi
        rw [hi]
      | some t =>
        rw [hf, Option.map_some, Option.map_eq_some_iff] at hi
        obtain ⟨t', ht', he⟩ := hi
        rw [ht']
        simp only [he, funext ih]
  rw [chain, chain, hs, hfrom]

end Lox.Forest
