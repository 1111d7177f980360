import Lox.Proofs.Emission.Trees

namespace Lox

def Value.IsComposite : Value → Prop
  | .list _ | .record _ => True
  | _ => False

instance : Value.Hereditary fun _ => True :=
  ⟨trivial, fun _ => trivial, fun _ => trivial, fun _ => trivial, fun _ _ => trivial⟩

namespace Node

mutual

def leaves : Node → List Node
  | .data v => [.data v]
  | .token t => [.token t]
  | .literal v => [.literal v]
  | .grouping e | .variable e | .expression e | .print e => e.leaves
  | .unary a b | .assign a b | .var a b | .loop a b => a.leaves ++ b.leaves
  | .binary a b c | .logical a b c | .branch a b c => a.leaves ++ (b.leaves ++ c.leaves)
  | .block ss => leavesAll ss

def leavesAll : List Node → List Node
  | [] => []
  | n :: ns => n.leaves ++ leavesAll ns

end

def literal? : Node → Option Value
  | .literal v => some v
  | _ => none

def literals (n : Node) : List Value :=
  n.leaves.filterMap literal?

inductive IsReadLeaf : Node → Prop
  | data {v : Value} : ¬v.IsComposite → IsReadLeaf (.data v)
  | token (t) : IsReadLeaf (.token t)
  | literal {v} : (∀ i, v ≠ .whole i) → IsReadLeaf (.literal v)

structure IsRead (limit : Nat) (n : Node) : Prop where
  depth : n.depth ≤ limit
  leaves : ∀ l ∈ n.leaves, IsReadLeaf l

namespace IsRead

variable {limit : Nat} {n : Node} {x y z : Except Unreadable Node}

theorem leaf {l : Node} (h : IsReadLeaf l) : IsRead (limit + 1) l := by
  cases h with
  | data h => exact ⟨Nat.le_add_left 1 limit, List.forall_mem_singleton.mpr (.data h)⟩
  | token t => exact ⟨Nat.le_add_left 1 limit, List.forall_mem_singleton.mpr (.token t)⟩
  | literal h => exact ⟨Nat.le_add_left 1 limit, List.forall_mem_singleton.mpr (.literal h)⟩

section

variable (hx : ∀ a, x = .ok a → IsRead limit a)

include hx

theorem of_one (build : Node → Node)
    (hbuild : ∀ a, (build a).depth = 1 + a.depth ∧ (build a).leaves = a.leaves)
    (h : (do return build (← x)) = .ok n) : IsRead (limit + 1) n := by
  obtain ⟨a, ha, hn⟩ := except_bind_eq_ok.mp h
  obtain ⟨hdepth, hleaves⟩ := hbuild a
  cases hn
  have had := (hx a ha).depth
  constructor
  · omega
  · rw [hleaves]
    exact (hx a ha).leaves

variable (hy : ∀ b, y = .ok b → IsRead limit b)

include hy

theorem of_two (build : Node → Node → Node)
    (hbuild : ∀ a b, (build a b).depth = 1 + max a.depth b.depth ∧ (build a b).leaves = a.leaves ++ b.leaves)
    (h : (do return build (← x) (← y)) = .ok n) : IsRead (limit + 1) n := by
  obtain ⟨a, ha, h⟩ := except_bind_eq_ok.mp h
  obtain ⟨b, hb, hn⟩ := except_bind_eq_ok.mp h
  obtain ⟨hdepth, hleaves⟩ := hbuild a b
  cases hn
  have had := (hx a ha).depth
  have hbd := (hy b hb).depth
  constructor
  · omega
  · rw [hleaves]
    exact List.forall_mem_append.mpr ⟨(hx a ha).leaves, (hy b hb).leaves⟩

theorem of_three (hz : ∀ c, z = .ok c → IsRead limit c) (build : Node → Node → Node → Node)
    (hbuild : ∀ a b c, (build a b c).depth = 1 + max a.depth (max b.depth c.depth) ∧
      (build a b c).leaves = a.leaves ++ (b.leaves ++ c.leaves))
    (h : (do return build (← x) (← y) (← z)) = .ok n) : IsRead (limit + 1) n := by
  obtain ⟨a, ha, h⟩ := except_bind_eq_ok.mp h
  obtain ⟨b, hb, h⟩ := except_bind_eq_ok.mp h
  obtain ⟨c, hc, hn⟩ := except_bind_eq_ok.mp h
  obtain ⟨hdepth, hleaves⟩ := hbuild a b c
  cases hn
  have had := (hx a ha).depth
  have hbd := (hy b hb).depth
  have hcd := (hz c hc).depth
  constructor
  · omega
  · rw [hleaves]
    exact List.forall_mem_append.mpr
      ⟨(hx a ha).leaves, List.forall_mem_append.mpr ⟨(hy b hb).leaves, (hz c hc).leaves⟩⟩

end

theorem all {vs : List Value} (hvs : ∀ v ∈ vs, ∀ n, ofJson limit v = .ok n → IsRead limit n) {ns : List Node}
    (h : vs.mapM (ofJson limit) = .ok ns) : depthAll ns ≤ limit ∧ ∀ l ∈ leavesAll ns, IsReadLeaf l := by
  induction vs generalizing ns with
  | nil =>
    cases h
    exact ⟨Nat.zero_le _, nofun⟩
  | cons v vs ih =>
    obtain ⟨hv, hvs⟩ := List.forall_mem_cons.mp hvs
    rw [List.mapM_cons] at h
    obtain ⟨n, hn, h⟩ := except_bind_eq_ok.mp h
    obtain ⟨ns, hns, h⟩ := except_bind_eq_ok.mp h
    cases h
    obtain ⟨hdepth, hleaves⟩ := ih hvs hns
    exact ⟨Nat.max_le.mpr ⟨(hv n hn).depth, hdepth⟩, List.forall_mem_append.mpr ⟨(hv n hn).leaves, hleaves⟩⟩

theorem literal {v : Value} (h : (literalOfJson v).map Node.literal = .ok n) : IsRead (limit + 1) n := by
  obtain ⟨w, hw, rfl⟩ := except_map_eq_ok.mp h
  refine .leaf (.literal ?_)
  rintro i rfl
  cases v with
  | whole j =>
    rw [literalOfJson] at hw
    cases hx : Number.ofInt? j with
    | none =>
      rw [hx] at hw
      cases hw
    | some x =>
      rw [hx] at hw
      cases hw
  | _ => cases hw

end IsRead

theorem isRead_of_ofJson {limit : Nat} {o : Value} {n : Node} (h : ofJson limit o = .ok n) : IsRead limit n := by
  induction limit generalizing o n with
  | zero => cases h
  | succ limit ih =>
    cases o with
    | list vs => cases h
    | record fields =>
      have hpart : ∀ name a, (do ofJson limit (← field fields name)) = .ok a → IsRead limit a := by
        intro name a ha
        obtain ⟨v, -, hv⟩ := except_bind_eq_ok.mp ha
        exact ih hv
      have hoptional : ∀ name a, ofJson limit (optionalField fields name) = .ok a → IsRead limit a :=
        fun name a ha => ih ha
      rw [ofJson] at h
      dsimp only at h
      split at h
      · obtain ⟨t, -, rfl⟩ := except_map_eq_ok.mp h
        exact .leaf (.token t)
      split at h
      · exact .literal h
      · exact .of_one (hpart "expression") .grouping (fun _ => ⟨rfl, rfl⟩) h
      · exact .of_two (hpart "operator") (hpart "right") .unary (fun _ _ => ⟨rfl, rfl⟩) h
      · exact .of_three (hpart "left") (hpart "operator") (hpart "right") .binary (fun _ _ _ => ⟨rfl, rfl⟩) h
      · exact .of_three (hpart "left") (hpart "operator") (hpart "right") .logical (fun _ _ _ => ⟨rfl, rfl⟩) h
      · exact .of_one (hpart "name") .variable (fun _ => ⟨rfl, rfl⟩) h
      · exact .of_two (hpart "name") (hpart "value") .assign (fun _ _ => ⟨rfl, rfl⟩) h
      · exact .of_one (hpart "expression") .expression (fun _ => ⟨rfl, rfl⟩) h
      · exact .of_one (hpart "expression") .print (fun _ => ⟨rfl, rfl⟩) h
      · exact .of_two (hpart "name") (hoptional "initializer") .var (fun _ _ => ⟨rfl, rfl⟩) h
      · obtain ⟨v, -, h⟩ := except_bind_eq_ok.mp h
        obtain ⟨vs, -, h⟩ := except_bind_eq_ok.mp h
        obtain ⟨ns, hns, h⟩ := except_bind_eq_ok.mp h
        obtain ⟨hdepth, hleaves⟩ := IsRead.all (fun _ _ _ hv => ih hv) hns
        cases h
        refine ⟨?_, hleaves⟩
        rw [depth]
        omega
      · exact .of_three (hpart "condition") (hpart "then_branch") (hoptional "else_branch") .branch
          (fun _ _ _ => ⟨rfl, rfl⟩) h
      · exact .of_two (hpart "condition") (hpart "body") .loop (fun _ _ => ⟨rfl, rfl⟩) h
      · cases h
    | _ =>
      cases h
      exact .leaf (.data id)

theorem IsReadLeaf.kept {l : Node} (h : IsReadLeaf l) {u : Value} (hu : l.toJson = .ok u) :
    KeptAs (fun _ => True) l := by
  cases h with
  | @data v hv =>
    refine keptAs_of_read hu trivial fun limit _ => ?_
    cases v with
    | list | record => exact absurd trivial hv
    | _ =>
      cases hu
      rfl
  | token t => exact .token trivial trivial
  | @literal v hv =>
    apply KeptAs.literal _ trivial
    cases v with
    | whole i => exact absurd rfl (hv i)
    | list | record => cases hu
    | _ => trivial

theorem IsReadLeaf.composite {l : Node} (h : IsReadLeaf l) {e : Unwritable} (he : l.toJson = .error e) :
    ∃ v ∈ l.literal?, v.IsComposite := by
  cases h with
  | @data v hv =>
    cases v with
    | list | record => exact absurd trivial hv
    | _ => cases he
  | token t => cases he
  | @literal v hv =>
    refine ⟨v, rfl, ?_⟩
    cases v with
    | list | record => trivial
    | _ => cases he

mutual

theorem keptAs_of_leaves {P : Value → Prop} [Value.Hereditary P] : ∀ n : Node, (∀ l ∈ n.leaves, KeptAs P l) → KeptAs P n
  | .data _, h | .token _, h | .literal _, h => h _ (List.mem_singleton_self _)
  | .grouping e, h => .grouping (keptAs_of_leaves e h)
  | .variable e, h => .name (keptAs_of_leaves e h)
  | .expression e, h => .expression (keptAs_of_leaves e h)
  | .print e, h => .print (keptAs_of_leaves e h)
  | .unary a b, h =>
    have ⟨ha, hb⟩ := List.forall_mem_append.mp h
    .unary (keptAs_of_leaves a ha) (keptAs_of_leaves b hb)
  | .assign a b, h =>
    have ⟨ha, hb⟩ := List.forall_mem_append.mp h
    .assign (keptAs_of_leaves a ha) (keptAs_of_leaves b hb)
  | .var a b, h =>
    have ⟨ha, hb⟩ := List.forall_mem_append.mp h
    .var (keptAs_of_leaves a ha) (keptAs_of_leaves b hb)
  | .loop a b, h =>
    have ⟨ha, hb⟩ := List.forall_mem_append.mp h
    .loop (keptAs_of_leaves a ha) (keptAs_of_leaves b hb)
  | .binary a b c, h =>
    have ⟨ha, h⟩ := List.forall_mem_append.mp h
    have ⟨hb, hc⟩ := List.forall_mem_append.mp h
    .binary (keptAs_of_leaves a ha) (keptAs_of_leaves b hb) (keptAs_of_leaves c hc)
  | .logical a b c, h =>
    have ⟨ha, h⟩ := List.forall_mem_append.mp h
    have ⟨hb, hc⟩ := List.forall_mem_append.mp h
    .logical (keptAs_of_leaves a ha) (keptAs_of_leaves b hb) (keptAs_of_leaves c hc)
  | .branch a b c, h =>
    have ⟨ha, h⟩ := List.forall_mem_append.mp h
    have ⟨hb, hc⟩ := List.forall_mem_append.mp h
    .branch (keptAs_of_leaves a ha) (keptAs_of_leaves b hb) (keptAs_of_leaves c hc)
  | .block ss, h => .block (keptAs_of_leavesAll ss h)

theorem keptAs_of_leavesAll {P : Value → Prop} [Value.Hereditary P] :
    ∀ ns : List Node, (∀ l ∈ leavesAll ns, KeptAs P l) → ∀ n ∈ ns, KeptAs P n
  | [], _ => nofun
  | n :: ns, h =>
    have ⟨hn, hns⟩ := List.forall_mem_append.mp h
    List.forall_mem_cons.mpr ⟨keptAs_of_leaves n hn, keptAs_of_leavesAll ns hns⟩

end

mutual

theorem leaves_written : ∀ (n : Node) {v : Value}, n.toJson = .ok v → ∀ l ∈ n.leaves, ∃ u, l.toJson = .ok u
  | .data _, _, h | .token _, _, h | .literal _, _, h => List.forall_mem_singleton.mpr ⟨_, h⟩
  | .grouping e, _, h | .variable e, _, h | .expression e, _, h | .print e, _, h => by
    obtain ⟨u, hu, -⟩ := except_bind_eq_ok.mp h
    exact leaves_written e hu
  | .unary a b, _, h | .assign a b, _, h | .var a b, _, h | .loop a b, _, h => by
    obtain ⟨u, hu, h⟩ := except_bind_eq_ok.mp h
    obtain ⟨v, hv, -⟩ := except_bind_eq_ok.mp h
    exact List.forall_mem_append.mpr ⟨leaves_written a hu, leaves_written b hv⟩
  | .binary a b c, _, h | .logical a b c, _, h | .branch a b c, _, h => by
    obtain ⟨u, hu, h⟩ := except_bind_eq_ok.mp h
    obtain ⟨v, hv, h⟩ := except_bind_eq_ok.mp h
    obtain ⟨w, hw, -⟩ := except_bind_eq_ok.mp h
    exact List.forall_mem_append.mpr
      ⟨leaves_written a hu, List.forall_mem_append.mpr ⟨leaves_written b hv, leaves_written c hw⟩⟩
  | .block ss, _, h => by
    obtain ⟨us, hus, -⟩ := except_bind_eq_ok.mp h
    exact leavesAll_written ss hus

theorem leavesAll_written :
    ∀ (ns : List Node) {vs : List Value}, toJsonAll ns = .ok vs → ∀ l ∈ leavesAll ns, ∃ u, l.toJson = .ok u
  | [], _, _ => nofun
  | n :: ns, _, h => by
    obtain ⟨u, hu, h⟩ := except_bind_eq_ok.mp h
    obtain ⟨us, hus, -⟩ := except_bind_eq_ok.mp h
    exact List.forall_mem_append.mpr ⟨leaves_written n hu, leavesAll_written ns hus⟩

end

theorem mem_leavesAll {l : Node} {ns : List Node} (h : l ∈ leavesAll ns) : ∃ n ∈ ns, l ∈ n.leaves := by
  induction ns with
  | nil => cases h
  | cons n ns ih =>
    rcases List.mem_append.mp h with hl | hl
    · exact ⟨n, List.mem_cons_self, hl⟩
    · obtain ⟨n', hn', hl⟩ := ih hl
      exact ⟨n', List.mem_cons_of_mem n hn', hl⟩

section

variable {ls : List Node} (h : ∀ l ∈ ls, IsReadLeaf l)

include h

theorem kept_of_written (hwritten : ∀ l ∈ ls, ∃ u, l.toJson = .ok u) : ∀ l ∈ ls, KeptAs (fun _ => True) l := by
  intro l hl
  obtain ⟨u, hu⟩ := hwritten l hl
  exact (h l hl).kept hu

theorem kept_or_composite :
    (∀ l ∈ ls, KeptAs (fun _ => True) l) ∨ ∃ l ∈ ls, ∃ v ∈ l.literal?, v.IsComposite := by
  by_cases herror : ∃ l ∈ ls, ∃ e, l.toJson = .error e
  · obtain ⟨l, hl, e, he⟩ := herror
    exact .inr ⟨l, hl, (h l hl).composite he⟩
  · refine .inl (kept_of_written h fun l hl => ?_)
    cases hu : l.toJson with
    | ok u => exact ⟨u, rfl⟩
    | error e => exact absurd ⟨l, hl, e, hu⟩ herror

end

variable {limit : Nat}

theorem IsRead.settles {n : Node} (h : IsRead limit n) :
    (∀ v, n.toJson = .ok v → ofJson limit v = .ok n) ∧
      ∀ e, n.toJson = .error e → ∃ v ∈ n.literals, v.IsComposite := by
  constructor
  · intro v hv
    have hleaves := kept_of_written h.leaves (leaves_written n hv)
    obtain ⟨v', hv', -, hread⟩ := keptAs_of_leaves n hleaves
    obtain rfl : v' = v := Except.ok.inj (hv'.symm.trans hv)
    exact hread limit h.depth
  · intro e he
    rcases kept_or_composite h.leaves with hleaves | ⟨l, hl, v, hv, hcomposite⟩
    · obtain ⟨v, hv, -⟩ := keptAs_of_leaves n hleaves
      cases hv.symm.trans he
    · exact ⟨v, List.mem_filterMap.mpr ⟨l, hl, hv⟩, hcomposite⟩

theorem settles_all {ns : List Node} (hdepth : depthAll ns ≤ limit) (h : ∀ l ∈ leavesAll ns, IsReadLeaf l) :
    (∀ vs, toJsonAll ns = .ok vs → vs.mapM (ofJson limit) = .ok ns) ∧
      ∀ e, toJsonAll ns = .error e → ∃ n ∈ ns, ∃ v ∈ n.literals, v.IsComposite := by
  constructor
  · intro vs hvs
    have hleaves := kept_of_written h (leavesAll_written ns hvs)
    obtain ⟨vs', hvs', -, hread⟩ := KeptAs.all (keptAs_of_leavesAll ns hleaves)
    obtain rfl : vs' = vs := Except.ok.inj (hvs'.symm.trans hvs)
    exact hread limit hdepth
  · intro e he
    rcases kept_or_composite h with hleaves | ⟨l, hl, v, hv, hcomposite⟩
    · obtain ⟨vs, hvs, -⟩ := KeptAs.all (keptAs_of_leavesAll ns hleaves)
      cases hvs.symm.trans he
    · obtain ⟨n, hn, hl⟩ := mem_leavesAll hl
      exact ⟨n, hn, v, List.mem_filterMap.mpr ⟨l, hl, hv⟩, hcomposite⟩

theorem isReadLeaf_of_readProgram {o : Value} {ns : List Node} (h : readProgram o = .ok ns) :
    depthAll ns ≤ depthLimit ∧ ∀ l ∈ leavesAll ns, IsReadLeaf l := by
  cases o with
  | record fields =>
    unfold readProgram at h
    dsimp only at h
    split at h
    · obtain ⟨v, -, h⟩ := except_bind_eq_ok.mp h
      obtain ⟨vs, -, h⟩ := except_bind_eq_ok.mp h
      exact IsRead.all (fun _ _ _ hv => isRead_of_ofJson hv) h
    · cases h
  | _ => cases h

/-- A tree that is read from any JSON value is read as it was from the value it is written as, and is written as that
value again. It is not written only if one of its literals holds a list or a record. The same holds of programs. -/
theorem reading_settles :
    (∀ o n, read o = .ok n →
      (∀ o', n.toJson = .ok o' → ∃ n', read o' = .ok n' ∧ n' = n ∧ n'.toJson = .ok o') ∧
      ∀ e, n.toJson = .error e → ∃ v ∈ n.literals, v.IsComposite) ∧
    ∀ o ns, readProgram o = .ok ns →
      (∀ body, write ns = .ok body →
        ∃ ns', readProgram (programRecord body) = .ok ns' ∧ ns' = ns ∧ write ns' = .ok body) ∧
      ∀ e, write ns = .error e → ∃ n ∈ ns, ∃ v ∈ n.literals, v.IsComposite := by
  constructor
  · intro o n h
    obtain ⟨hwritten, hunwritten⟩ := (isRead_of_ofJson h).settles
    exact ⟨fun o' ho' => ⟨n, hwritten o' ho', rfl, ho'⟩, hunwritten⟩
  · intro o ns h
    obtain ⟨hdepth, hleaves⟩ := isReadLeaf_of_readProgram h
    obtain ⟨hwritten, hunwritten⟩ := settles_all hdepth hleaves
    have hwrite : write ns = toJsonAll ns := if_pos hdepth
    rw [hwrite]
    refine ⟨fun body hbody => ⟨ns, ?_, rfl, hwrite.trans hbody⟩, hunwritten⟩
    exact hwritten body hbody

theorem reading_settles_handwritten :
    let name : Value := .record [("line", .text " +7"), ("lexeme", .nil), ("kind", .text "IDENTIFIER"),
      ("__type__", .text "Token")]
    let o : Value := .record [("body", .list [.record [("statements", .text "ab"), ("type", .text "Block")],
      .record [("type", .text "Var"), ("name", name)]]), ("type", .text "Program")]
    let ns : List Node := [.block [.data (.text "a"), .data (.text "b")],
      .var (.token ⟨.identifier, .nil, .nil, 7⟩) .absent]
    readProgram o = .ok ns ∧ ∃ body, write ns = .ok body ∧ programRecord body ≠ o ∧
      readProgram (programRecord body) = .ok ns := by
  intro name o ns
  have hread : readProgram o = .ok ns := rfl
  let token : Value := Token.toJson ⟨.identifier, .nil, .nil, 7⟩
  have hwrite : write ns = .ok [nodeRecord "Block" [("statements", .list [.text "a", .text "b"])],
      nodeRecord "Var" [("name", token), ("initializer", .nil)]] := rfl
  obtain ⟨ns', hread', hns', -⟩ := (reading_settles.2 o ns hread).1 _ hwrite
  rw [hns'] at hread'
  exact ⟨hread, _, hwrite, by decide +kernel, hread'⟩

end Node

end Lox
