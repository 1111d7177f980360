namespace Lox

inductive Value where
  | nil
  | bool (b : Bool)
  | whole (i : Int)
  | number (x : Float)
  | text (s : String)
  | list (items : List Value)
  | record (fields : List (String × Value))
  deriving Inhabited

namespace Value

mutual

/-- Equality bit for bit: a NaN is the same as itself, and the two zeros differ. -/
def same : Value → Value → Bool
  | .nil, .nil => true
  | .bool a, .bool b => a == b
  | .whole a, .whole b => a == b
  | .number a, .number b => decide (a = b)
  | .text a, .text b => a == b
  | .list as, .list bs => sameItems as bs
  | .record as, .record bs => sameFields as bs
  | _, _ => false

def sameItems : List Value → List Value → Bool
  | [], [] => true
  | a :: as, b :: bs => a.same b && sameItems as bs
  | _, _ => false

def sameFields : List (String × Value) → List (String × Value) → Bool
  | [], [] => true
  | (k, a) :: as, (l, b) :: bs => k == l && a.same b && sameFields as bs
  | _, _ => false

end

mutual

theorem same_iff_eq : ∀ a b : Value, a.same b = true ↔ a = b
  | a, b => by
    cases a <;> cases b <;> simp [same]
    · exact sameItems_iff_eq _ _
    · exact sameFields_iff_eq _ _

theorem sameItems_iff_eq : ∀ as bs : List Value, sameItems as bs = true ↔ as = bs
  | [], bs => by cases bs <;> simp [sameItems]
  | a :: as, bs => by
    cases bs with
    | nil => simp [sameItems]
    | cons b bs => simp [sameItems, same_iff_eq a b, sameItems_iff_eq as bs]

theorem sameFields_iff_eq : ∀ as bs : List (String × Value), sameFields as bs = true ↔ as = bs
  | [], bs => by cases bs <;> simp [sameFields]
  | (k, a) :: as, bs => by
    cases bs with
    | nil => simp [sameFields]
    | cons b bs =>
      obtain ⟨l, b⟩ := b
      simp [sameFields, same_iff_eq a b, sameFields_iff_eq as bs]

end

instance : DecidableEq Value := fun a b => decidable_of_iff _ (same_iff_eq a b)

/-- Only nil and false count as false; zero and the empty text count as true. -/
def truthy : Value → Bool
  | .nil => false
  | .bool b => b
  | _ => true

def isNumber : Value → Bool
  | .number _ => true
  | _ => false

def kindName : Value → String
  | .nil => "NoneType"
  | .bool _ => "bool"
  | .whole _ => "int"
  | .number _ => "float"
  | .text _ => "str"
  | .list _ => "list"
  | .record _ => "dict"

end Value

end Lox
