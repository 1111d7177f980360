namespace Lox

abbrev Entries (κ α : Type) := List (κ × α)

namespace Entries

variable {κ α : Type}

def keys (es : Entries κ α) : List κ :=
  es.map Prod.fst

variable [DecidableEq κ]

def get? (key : κ) : Entries κ α → Option α
  | [] => none
  | (k, v) :: es => if k = key then some v else get? key es

def has (key : κ) (es : Entries κ α) : Bool :=
  (get? key es).isSome

def set (key : κ) (v : α) : Entries κ α → Entries κ α
  | [] => [(key, v)]
  | (k, w) :: es => if k = key then (k, v) :: es else (k, w) :: set key v es

@[simp] theorem get?_set_self (key : κ) (v : α) (es : Entries κ α) :
    get? key (set key v es) = some v := by
  induction es with
  | nil => simp [set, get?]
  | cons e es ih =>
    obtain ⟨k, w⟩ := e
    by_cases h : k = key <;> simp [set, get?, h, ih]

theorem get?_set_of_ne {key other : κ} (h : other ≠ key) (v : α) (es : Entries κ α) :
    get? other (set key v es) = get? other es := by
  induction es with
  | nil => simp [set, get?, h.symm]
  | cons e es ih =>
    obtain ⟨k, w⟩ := e
    by_cases hk : k = key
    · subst hk
      simp [set, get?, h.symm]
    · simp [set, get?, hk, ih]

end Entries

end Lox
