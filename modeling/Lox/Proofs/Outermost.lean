import Mathlib.Data.List.Lex
import Mathlib.Order.Nat
import Lox.Node

/-!
The search for the token that stands for a tree: the queue holds what is left of one level of the tree and behind it as
much of the next as is known, so the levels are gone through in order, each from left to right. Main statement:
`search_ends_at_first`.
-/
namespace Lox.Part

/-- The part at the end of a path, which tells for each step inwards the number of a field or of an item. -/
def at? (p : Part) : List Nat → Option Part
  | [] => some p
  | i :: path => p.parts[i]?.bind fun q => q.at? path

/-- A token no deeper than any other of a tree, and to the left of all others as deep: paths of one length are in order
from left to right. -/
structure First (p : Part) (path : List Nat) (t : Token) : Prop where
  holds : p.at? path = some (.token t)
  outermost : ∀ path' t', p.at? path' = some (.token t') → path.length ≤ path'.length
  leftmost : ∀ path' t', p.at? path' = some (.token t') → path'.length = path.length → path ≤ path'

inductive Search : List Part → Nat → Option Token → Prop
  | exhausted : Search [] 0 none
  | token {t : Token} {queue : List Part} : Search (.token t :: queue) 1 (some t)
  | value {v : Value} {queue : List Part} {turns : Nat} {found : Option Token} :
      Search queue turns found → Search (.value v :: queue) (turns + 1) found
  | sequence {items queue : List Part} {turns : Nat} {found : Option Token} :
      Search (queue ++ items) turns found → Search (.sequence items :: queue) (turns + 1) found
  | node {fields queue : List Part} {turns : Nat} {found : Option Token} :
      Search (queue ++ fields) turns found → Search (.node fields :: queue) (turns + 1) found

variable {p : Part} {ps queue : List Part} {path : List Nat} {depth : Nat} {t : Token}

theorem token?_eq_some_iff : p.token? = some t ↔ p = .token t := by
  cases p <;> simp [token?]

theorem firstTokenIn?_cons_of_some (h : p.token? = some t) : firstTokenIn? (p :: queue) = some t := by
  rw [firstTokenIn?, h]

theorem firstTokenIn?_cons_of_none (h : p.token? = none) :
    firstTokenIn? (p :: queue) = firstTokenIn? (queue ++ p.parts) := by
  rw [firstTokenIn?, h]

namespace Search

variable {turns turns' : Nat} {found found' : Option Token}

theorem onward (h : p.token? = none) (hs : Search (queue ++ p.parts) turns found) :
    Search (p :: queue) (turns + 1) found := by
  cases p with
  | value v =>
    rw [parts, List.append_nil] at hs
    exact .value hs
  | token t => exact nomatch h
  | sequence items => exact .sequence hs
  | node fields => exact .node hs

theorem unique (h : Search queue turns found) (h' : Search queue turns' found') : turns = turns' ∧ found = found' := by
  induction h generalizing turns' with
  | exhausted | token =>
    cases h'
    exact ⟨rfl, rfl⟩
  | value _ ih =>
    cases h' with
    | value h' => exact (ih h').imp_left (congrArg (· + 1))
  | sequence _ ih =>
    cases h' with
    | sequence h' => exact (ih h').imp_left (congrArg (· + 1))
  | node _ ih =>
    cases h' with
    | node h' => exact (ih h').imp_left (congrArg (· + 1))

end Search

theorem exists_search (queue : List Part) : ∃ turns ≤ sizes queue, Search queue turns (firstTokenIn? queue) := by
  fun_induction firstTokenIn? queue with
  | case1 => exact ⟨0, le_rfl, .exhausted⟩
  | case2 p queue t ht =>
    obtain rfl := token?_eq_some_iff.mp ht
    exact ⟨1, Nat.le_add_right 1 (sizes queue), .token⟩
  | case3 p queue ht ih =>
    obtain ⟨turns, hle, hs⟩ := ih
    refine ⟨turns + 1, ?_, hs.onward ht⟩
    rw [sizes_append] at hle
    rw [sizes, size_eq]
    omega

theorem exists_of_firstTokenIn? (h : firstTokenIn? queue = some t) :
    ∃ p ∈ queue, ∃ path, p.at? path = some (.token t) := by
  fun_induction firstTokenIn? queue with
  | case1 => exact nomatch h
  | case2 p queue t' ht =>
    obtain rfl := Option.some.inj h
    exact ⟨p, List.mem_cons_self, [], congrArg some (token?_eq_some_iff.mp ht)⟩
  | case3 p queue ht ih =>
    obtain ⟨q, hq, path, hat⟩ := ih h
    obtain hq | hq := List.mem_append.mp hq
    · exact ⟨q, List.mem_cons_of_mem p hq, path, hat⟩
    · obtain ⟨i, hi⟩ := List.mem_iff_getElem?.mp hq
      exact ⟨p, List.mem_cons_self, i :: path, Option.bind_eq_some_iff.mpr ⟨q, hi, hat⟩⟩

def firstAt? : Nat → Part → Option Token
  | 0, p => p.token?
  | depth + 1, p => p.parts.findSome? (firstAt? depth)

theorem findSome?_firstAt?_succ (depth : Nat) (ps : List Part) :
    ps.findSome? (firstAt? (depth + 1)) = (ps.flatMap parts).findSome? (firstAt? depth) := by
  induction ps with
  | nil => rfl
  | cons p ps ih =>
    rw [List.flatMap_cons, List.findSome?_append, ← ih, List.findSome?_cons, firstAt?]
    cases p.parts.findSome? (firstAt? depth) <;> rfl

theorem firstTokenIn?_append (ps queue : List Part) :
    firstTokenIn? (ps ++ queue) = (ps.findSome? token?).or (firstTokenIn? (queue ++ ps.flatMap parts)) := by
  induction ps generalizing queue with
  | nil => simp
  | cons p ps ih =>
    rw [List.cons_append, List.findSome?_cons]
    cases h : p.token? with
    | some t => rw [firstTokenIn?_cons_of_some h, Option.some_or]
    | none => rw [firstTokenIn?_cons_of_none h, List.append_assoc, ih, List.flatMap_cons, List.append_assoc]

theorem firstTokenIn?_level (ps : List Part) :
    firstTokenIn? ps = (ps.findSome? (firstAt? 0)).or (firstTokenIn? (ps.flatMap parts)) := by
  have h := firstTokenIn?_append ps []
  rwa [List.append_nil, List.nil_append] at h

theorem firstTokenIn?_eq_of_depth (h : ps.findSome? (firstAt? depth) = some t)
    (hbefore : ∀ d < depth, ps.findSome? (firstAt? d) = none) : firstTokenIn? ps = some t := by
  induction depth generalizing ps with
  | zero => rw [firstTokenIn?_level, h, Option.some_or]
  | succ depth ih =>
    -- a level without tokens makes way for the next, from where every depth is one less
    rw [firstTokenIn?_level, hbefore 0 depth.succ_pos, Option.none_or]
    refine ih ?_ fun d hd => ?_
    · rw [← findSome?_firstAt?_succ, h]
    · rw [← findSome?_firstAt?_succ, hbefore (d + 1) (Nat.succ_lt_succ hd)]

theorem firstAt?_eq_none_iff :
    firstAt? depth p = none ↔ ∀ path t, p.at? path = some (.token t) → path.length ≠ depth := by
  induction depth generalizing p with
  | zero =>
    rw [firstAt?, Option.eq_none_iff_forall_ne_some]
    constructor
    · intro h path t hat hlen
      obtain rfl := List.length_eq_zero_iff.mp hlen
      exact h t (token?_eq_some_iff.mpr (Option.some.inj hat))
    · intro h t ht
      exact h [] t (congrArg some (token?_eq_some_iff.mp ht)) rfl
  | succ depth ih =>
    rw [firstAt?, List.findSome?_eq_none_iff]
    constructor
    · rintro h (_ | ⟨i, path⟩) t hat hlen
      · exact nomatch hlen
      · obtain ⟨q, hq, hat⟩ := Option.bind_eq_some_iff.mp hat
        exact ih.mp (h q (List.mem_of_getElem? hq)) path t hat (Nat.succ.inj hlen)
    · intro h q hq
      obtain ⟨i, hi⟩ := List.mem_iff_getElem?.mp hq
      refine ih.mpr fun path t hat hlen => ?_
      exact h (i :: path) t (Option.bind_eq_some_iff.mpr ⟨q, hi, hat⟩) (congrArg (· + 1) hlen)

theorem exists_of_firstAt? (h : firstAt? depth p = some t) :
    ∃ path, path.length = depth ∧ p.at? path = some (.token t) ∧
      ∀ path' t', p.at? path' = some (.token t') → path'.length = depth → path ≤ path' := by
  induction depth generalizing p with
  | zero =>
    refine ⟨[], rfl, congrArg some (token?_eq_some_iff.mp h), fun path' _ _ hlen => ?_⟩
    rw [List.length_eq_zero_iff.mp hlen]
  | succ depth ih =>
    obtain ⟨before, q, behind, hparts, hq, hbefore⟩ := List.findSome?_eq_some_iff.mp h
    obtain ⟨path, hlen, hat, hleft⟩ := ih hq
    have hindex : p.parts[before.length]? = some q := by simp [hparts]
    refine ⟨before.length :: path, congrArg (· + 1) hlen, Option.bind_eq_some_iff.mpr ⟨q, hindex, hat⟩, ?_⟩
    rintro (_ | ⟨i, path'⟩) t' hat' hlen'
    · exact nomatch hlen'
    replace hlen' : path'.length = depth := Nat.succ.inj hlen'
    obtain ⟨q', hq', hat'⟩ := Option.bind_eq_some_iff.mp hat'
    obtain hi | rfl | hi := lt_trichotomy i before.length
    · -- a path further to the left leads through a part without tokens at that depth
      have hmem : q' ∈ before := by
        rw [hparts, List.getElem?_append_left hi] at hq'
        exact List.mem_of_getElem? hq'
      exact absurd hlen' (firstAt?_eq_none_iff.mp (hbefore q' hmem) path' t' hat')
    · obtain rfl := Option.some.inj (hindex.symm.trans hq')
      exact List.cons_le_cons _ (hleft path' t' hat' hlen')
    · exact le_of_lt (List.Lex.rel hi)

theorem exists_first_iff : (∃ path, p.First path t) ↔
    ∃ depth, firstAt? depth p = some t ∧ ∀ d < depth, firstAt? d p = none := by
  constructor
  · rintro ⟨path, hholds, houter, hleft⟩
    refine ⟨path.length, ?_, fun d hd => firstAt?_eq_none_iff.mpr fun path' t' hat hlen => ?_⟩
    · obtain ⟨t', ht'⟩ := Option.ne_none_iff_exists'.mp fun hnone => firstAt?_eq_none_iff.mp hnone path t hholds rfl
      obtain ⟨path', hlen, hat, hleft'⟩ := exists_of_firstAt? ht'
      obtain rfl : path = path' := le_antisymm (hleft path' t' hat hlen) (hleft' path t hholds rfl)
      obtain rfl : t = t' := Part.token.inj (Option.some.inj (hholds.symm.trans hat))
      exact ht'
    · have hle := houter path' t' hat
      omega
  · rintro ⟨depth, h, hbefore⟩
    obtain ⟨path, rfl, hat, hleft⟩ := exists_of_firstAt? h
    refine ⟨path, hat, fun path' t' hat' => ?_, hleft⟩
    by_contra hlt
    exact firstAt?_eq_none_iff.mp (hbefore path'.length (not_le.mp hlt)) path' t' hat' rfl

theorem exists_first (h : p.at? path = some (.token t)) : ∃ t, ∃ path, p.First path t := by
  have hsome : ∃ depth, firstAt? depth p ≠ none :=
    ⟨path.length, fun hnone => firstAt?_eq_none_iff.mp hnone path t h rfl⟩
  obtain ⟨t', ht'⟩ := Option.ne_none_iff_exists'.mp (Nat.find_spec hsome)
  exact ⟨t', exists_first_iff.mpr ⟨Nat.find hsome, ht', fun d hd => not_not.mp (Nat.find_min hsome hd)⟩⟩

theorem firstTokenIn?_of_first (h : ∃ path, p.First path t) : firstTokenIn? [p] = some t := by
  obtain ⟨depth, hdepth, hbefore⟩ := exists_first_iff.mp h
  have hlevel : [p].findSome? (firstAt? depth) = some t := by rw [List.findSome?_singleton, hdepth]
  apply firstTokenIn?_eq_of_depth hlevel
  intro d hd
  rw [List.findSome?_singleton, hbefore d hd]

theorem firstTokenIn?_eq_some_iff : firstTokenIn? [p] = some t ↔ ∃ path, p.First path t := by
  refine ⟨fun h => ?_, firstTokenIn?_of_first⟩
  obtain ⟨q, hq, path, hat⟩ := exists_of_firstTokenIn? h
  obtain rfl := List.mem_singleton.mp hq
  obtain ⟨t', hfirst⟩ := exists_first hat
  obtain rfl := Option.some.inj (h.symm.trans (firstTokenIn?_of_first hfirst))
  exact hfirst

theorem firstTokenIn?_eq_none_iff : firstTokenIn? [p] = none ↔ ∀ path t, p.at? path ≠ some (.token t) := by
  constructor
  · intro h path t hat
    obtain ⟨t', hfirst⟩ := exists_first hat
    exact nomatch h.symm.trans (firstTokenIn?_of_first hfirst)
  · intro h
    refine Option.eq_none_iff_forall_ne_some.mpr fun t ht => ?_
    obtain ⟨path, hfirst⟩ := firstTokenIn?_eq_some_iff.mp ht
    exact h path t hfirst.holds

/-- The search of a tree comes to an end, in one way only: at the first token, and at none if the tree holds no token. -/
theorem search_ends_at_first (p : Part) : ∃ turns ≤ p.size, ∃ found,
    (∀ turns' found', Search [p] turns' found' ↔ turns' = turns ∧ found' = found) ∧
      (∀ t, found = some t ↔ ∃ path, p.First path t) ∧
      (found = none ↔ ∀ path t, p.at? path ≠ some (.token t)) ∧
      p.firstToken = found.getD ⟨.eof, .text "", .nil, 0⟩ := by
  obtain ⟨turns, hle, hs⟩ := exists_search [p]
  refine ⟨turns, hle, firstTokenIn? [p], fun _ _ => ⟨fun h => h.unique hs, ?_⟩,
    fun _ => firstTokenIn?_eq_some_iff, firstTokenIn?_eq_none_iff, rfl⟩
  rintro ⟨rfl, rfl⟩
  exact hs

example : let name : Token := ⟨.identifier, .text "a", .nil, 1⟩
    let sign : Token := ⟨.plus, .text "+", .nil, 2⟩
    (Node.print (.binary (.variable (.token name)) (.token sign) (.literal .nil))).firstToken = sign := by
  cbv

end Lox.Part
