import Lox.Proofs.Layout.Runs
import Lox.Proofs.Loops.Widening
import Lox.Proofs.Scoping.Programs

namespace Lox.Run

variable {α : Type} {s : Settings} {limit limit' : Nat}

def turn (body : Run Unit) : Option (Run Value) → Run Unit
  | some increment => do
    body
    let _ ← increment
  | none => body

def forClauses (turns : Nat) (initializer : Option (Run Unit)) (condition : Run Bool) (turn : Run Unit) : Run Unit :=
  let loop : Run Unit := do let _ ← repeatWhile condition turn turns 0
  match initializer with
  | some x => inScope do
    x
    loop
  | none => loop

def holds (s : Settings) (limit : Nat) : Option Node → Run Bool
  | some e => Value.truthy <$> evaluate s limit e
  | none => pure true

/-- What a `for` loop is to do. -/
def forRun (s : Settings) (limit : Nat) (initializer condition increment : Option Node) (body : Node) : Run Unit :=
  forClauses s.turns (initializer.map (execute s limit)) (holds s limit condition)
    (turn (execute s limit body) (increment.map (evaluate s limit)))

/-- What a part of a run shows: the stop it comes to, if any, what it leaves in the scopes and what it prints. -/
def shown (x : Run Unit) (m : Machine) : Option Stop × Env × Array String :=
  match x m with
  | .ok _ m => (none, m.env, m.printed)
  | .error e m => (some e, m.env, m.printed)

theorem shown_eq {slack : Nat} {R : Machine → Machine → Prop} {x y : Run Unit} (h : Tandem slack id R x y)
    (hR : ∀ {m m'}, R m m' → m.env = m'.env ∧ m.printed = m'.printed) {m : Machine} (hm : R m m)
    (hdeep : 0 < slack → (shown x m).1 ≠ some .tooDeep) : shown x m = shown y m := by
  have hr := h m m hm
  unfold shown at hdeep ⊢
  generalize x m = r at hr hdeep
  generalize y m = r' at hr
  cases hr with
  | ok hd =>
    dsimp only
    rw [(hR hd).1, (hR hd).2]
  | error hd =>
    dsimp only
    rw [(hR hd).1, (hR hd).2, Stop.reline_id]
  | tooDeep hslack => exact absurd rfl (hdeep hslack)

theorem shown_of_alike {x y : Run Unit} (h : Tandem 0 id (Machine.Alike #[]) x y) (m : Machine) :
    shown x m = shown y m :=
  shown_eq h (fun hm => ⟨hm.1, by rw [hm.2, Array.empty_append]⟩) ⟨rfl, (Array.empty_append).symm⟩ nofun

abbrev Deepens (x y : Run α) : Prop :=
  Tandem 1 id Eq x y

theorem coupled_eq (s : Settings) : Coupled s s fun _ => Eq where
  turns := rfl
  note hm _ _ _ := hm ▸ rfl
  noteDepth hm := hm ▸ rfl
  print hm _ := hm ▸ rfl
  get? hm _ _ := hm ▸ rfl
  assign? {_ m m'} hm x v _ := by
    cases hm
    cases m.env.assign? x v with
    | some env => exact .some rfl
    | none => exact .none
  define hm _ _ _ := hm ▸ rfl
  enter hm := hm ▸ rfl
  leave hm := hm ▸ rfl

theorem evaluate_deepens (h : limit ≤ limit') (n : Node) : Deepens (evaluate s limit n) (evaluate s limit' n) := by
  obtain ⟨slack, rfl⟩ := Nat.exists_eq_add_of_le h
  exact ((coupled_eq s).evaluate_same (i := 1) limit n).mono fun _ => Nat.one_pos

theorem execute_deepens (h : limit ≤ limit') (n : Node) : Deepens (execute s limit n) (execute s limit' n) := by
  obtain ⟨slack, rfl⟩ := Nat.exists_eq_add_of_le h
  exact ((coupled_eq s).execute_same (i := 1) limit n (.inl Nat.one_pos)).mono fun _ => Nat.one_pos

theorem holds_deepens (h : limit ≤ limit') (condition : Option Node) :
    Deepens (holds s limit condition) (holds s limit' condition) := by
  cases condition with
  | none => exact .pure true
  | some e => exact (evaluate_deepens h e).map Value.truthy

theorem shown_of_deepens {x y : Run Unit} (h : Deepens x y) {m : Machine} (hx : (shown x m).1 ≠ some .tooDeep) :
    shown x m = shown y m :=
  shown_eq h (fun hm => hm ▸ ⟨rfl, rfl⟩) rfl fun _ => hx

section

variable {slack : Nat} {R : Machine → Machine → Prop}

theorem Tandem.turn {x y : Run Unit} {i i' : Option (Run Value)} (h : Tandem slack id R x y)
    (hi : Option.Rel (Tandem slack id R) i i') : Tandem slack id R (turn x i) (turn y i') := by
  cases hi with
  | none => exact h
  | some hi => exact h.bind fun _ => hi.bind fun _ => .pure ()

theorem Tandem.forClauses (henter : ∀ {m m'}, R m m' → R { m with env := m.env.enter } { m' with env := m'.env.enter })
    (hleave : ∀ {m m'}, R m m' → R { m with env := m.env.leave } { m' with env := m'.env.leave })
    {turns : Nat} {i i' : Option (Run Unit)} {c c' : Run Bool} {t t' : Run Unit}
    (hi : Option.Rel (Tandem slack id R) i i') (hc : Tandem slack id R c c') (ht : Tandem slack id R t t') :
    Tandem slack id R (forClauses turns i c t) (forClauses turns i' c' t') := by
  have hloop := (hc.repeatWhile ht turns 0).bind fun _ => .pure ()
  cases hi with
  | none => exact hloop
  | some hi => exact .inScope (hi.bind fun _ => hloop) henter hleave

end

theorem rel_map {γ δ : Type} {P : α → γ → Prop} {n? : Option δ} {k : δ → α} {k' : δ → γ} (h : ∀ n, P (k n) (k' n)) :
    Option.Rel P (n?.map k) (n?.map k') := by
  cases n? with
  | none => exact .none
  | some n => exact .some (h n)

section

variable {initializer condition increment : Option Node} {body : Node}

theorem forM_pair (a b : Node) (x : Node → Run Unit) : [a, b].forM x = (do x a; x b) := by
  change (x a >>= fun _ => x b >>= fun _ => pure ()) = _
  rw [bind_pure_unit]

theorem turn_tandem (hb : body.Plain) (limit : Nat) (e : Node) :
    Tandem 0 id (Machine.Alike #[]) (turn (execute s (limit + 1) body) (some (evaluate s limit e)))
      (execute s (limit + 2) (.block [body, .expression e])) := by
  rw [execute_block]
  -- the scope of the block stays empty, as the body declares nothing in it
  refine .inWider fun m m' hm => ?_
  rw [inside_apply, forM_pair]
  exact ((coupled_widened s).execute_same (limit + 1) body (.inr hb)).bind (fun _ =>
    ((coupled_widened s).evaluate_same limit e).bind fun _ => .pure ()) _ _ hm

theorem loop_tandem (hb : body.Plain) (limit : Nat) (condition increment : Option Node) :
    ∃ between, limit ≤ between ∧ between ≤ limit + 2 ∧ Tandem 0 id (Machine.Alike #[])
      (do
        let _ ← repeatWhile (holds s (limit + 2) condition)
          (turn (execute s between body) (increment.map (evaluate s limit))) s.turns 0)
      (execute s (limit + 3) (.loop (condition.getD (.literal (.bool true))) (match increment with
        | some e => .block [body, .expression e]
        | none => body))) := by
  have halike := coupled_alike (s := s) rfl #[]
  have hc : Tandem 0 id (Machine.Alike #[]) (holds s (limit + 2) condition)
      (Value.truthy <$> evaluate s (limit + 2) (condition.getD (.literal (.bool true)))) := by
    cases condition with
    | none => exact fun _ _ hm => .ok hm
    | some e => exact (halike.evaluate_same (i := 1) (limit + 2) e).map Value.truthy
  have hnoted : ∀ count : Nat, Tandem 0 id (Machine.Alike #[]) (pure ())
      (note s 3 fun _ => "while loop finished after " ++ toString count ++ " iterations") := by
    intro count m m' hm
    rw [note_apply]
    exact .ok hm
  cases increment with
  | none =>
    have hturn : Tandem 0 id (Machine.Alike #[]) (execute s (limit + 2) body) (execute s (limit + 2) body) :=
      halike.execute_same (i := 1) (limit + 2) body (.inl Nat.one_pos)
    exact ⟨limit + 2, by omega, Nat.le_refl _, (hc.repeatWhile hturn s.turns 0).bind hnoted⟩
  | some e =>
    have hturn := turn_tandem (s := s) hb limit e
    exact ⟨limit + 1, by omega, by omega, (hc.repeatWhile hturn s.turns 0).bind hnoted⟩

theorem deepens_forClauses (initializer condition increment : Option Node) (body : Node)
    {li lc lb le li' lc' lb' le' : Nat} (hi : li ≤ li') (hc : lc ≤ lc') (hb : lb ≤ lb') (he : le ≤ le') : Deepens
      (forClauses s.turns (initializer.map (execute s li)) (holds s lc condition)
        (turn (execute s lb body) (increment.map (evaluate s le))))
      (forClauses s.turns (initializer.map (execute s li')) (holds s lc' condition)
        (turn (execute s lb' body) (increment.map (evaluate s le')))) :=
  .forClauses (fun hm => hm ▸ rfl) (fun hm => hm ▸ rfl) (rel_map (execute_deepens hi)) (holds_deepens hc condition)
    ((execute_deepens hb body).turn (rel_map (evaluate_deepens he)))

theorem forLoop_clauses (hb : body.Plain) (limit : Nat) : ∃ x,
    Deepens (forRun s limit initializer condition increment body) x ∧
      Deepens x (forRun s (limit + 4) initializer condition increment body) ∧
      Tandem 0 id (Machine.Alike #[]) x (execute s (limit + 4) (.forLoop initializer condition increment body)) := by
  cases initializer with
  | none =>
    obtain ⟨between, hlow, hhigh, hloop⟩ := loop_tandem (s := s) hb (limit + 1) condition increment
    refine ⟨forClauses s.turns none (holds s (limit + 3) condition)
      (turn (execute s between body) (increment.map (evaluate s (limit + 1)))), ?_, ?_, hloop⟩
    · exact deepens_forClauses none condition increment body (Nat.le_refl _) (by omega) (by omega) (by omega)
    · exact deepens_forClauses none condition increment body (Nat.le_refl _) (by omega) (by omega) (by omega)
  | some n =>
    obtain ⟨between, hlow, hhigh, hloop⟩ := loop_tandem (s := s) hb limit condition increment
    have halike := coupled_alike (s := s) rfl #[]
    have hinitializer : Tandem 0 id (Machine.Alike #[]) (execute s (limit + 3) n) (execute s (limit + 3) n) :=
      halike.execute_same (i := 1) (limit + 3) n (.inl Nat.one_pos)
    refine ⟨forClauses s.turns (some (execute s (limit + 3) n)) (holds s (limit + 2) condition)
      (turn (execute s between body) (increment.map (evaluate s limit))), ?_, ?_, ?_⟩
    · exact deepens_forClauses (some n) condition increment body (by omega) (by omega) (by omega) (by omega)
    · exact deepens_forClauses (some n) condition increment body (by omega) (by omega) (by omega) (by omega)
    · change Tandem 0 id (Machine.Alike #[]) _ (inScope (inside s (limit + 3) [n, _]))
      refine .inScope (S := Machine.Alike #[]) (fun m m' hm => ?_) (halike.enter (i := 1)) (halike.leave (i := 1))
      rw [inside_apply, forM_pair]
      exact hinitializer.bind (fun _ => hloop) _ _ hm

variable {m : Machine}

theorem forRun_agree (h : (shown (forRun s limit initializer condition increment body) m).1 ≠ some .tooDeep)
    (h' : (shown (forRun s limit' initializer condition increment body) m).1 ≠ some .tooDeep) :
    shown (forRun s limit initializer condition increment body) m =
      shown (forRun s limit' initializer condition increment body) m := by
  rcases Nat.le_total limit limit' with hle | hle
  · exact shown_of_deepens (deepens_forClauses _ _ _ _ hle hle hle hle) h
  · exact (shown_of_deepens (deepens_forClauses _ _ _ _ hle hle hle hle) h').symm

theorem shown_forLoop (hb : body.Plain)
    (h : (shown (forRun s limit initializer condition increment body) m).1 ≠ some .tooDeep) :
    shown (execute s (limit + 4) (.forLoop initializer condition increment body)) m =
      shown (forRun s limit initializer condition increment body) m := by
  obtain ⟨x, hx, -, hloop⟩ := forLoop_clauses (s := s) hb limit
  rw [shown_of_deepens hx h, shown_of_alike hloop]

theorem shown_forRun (hb : body.Plain)
    (h : (shown (execute s limit (.forLoop initializer condition increment body)) m).1 ≠ some .tooDeep) :
    shown (forRun s (limit + 4) initializer condition increment body) m =
      shown (execute s limit (.forLoop initializer condition increment body)) m := by
  obtain ⟨x, -, hx, hloop⟩ := forLoop_clauses (s := s) hb limit
  -- the loop itself has four levels to spare before its clauses are looked at
  have hdeeper := shown_of_deepens (execute_deepens (Nat.le_add_right limit 4) _) h
  rw [hdeeper, ← shown_of_alike hloop] at h ⊢
  exact (shown_of_deepens hx h).symm

end

/-- A `for` loop shows what its clauses show, unless one of the two is too deep. Where the clauses are not, the loop is
not with four levels more, and the other way round. Neither its body nor the loop itself leaves a name behind that was
not there, however it ends. -/
theorem forLoop_faithful (s : Settings) (initializer condition increment : Option Node) {body : Node}
    (hi : ∀ n ∈ initializer, n.Tidy) (hb : body.Plain) :
    let loop := Node.forLoop initializer condition increment body
    let clauses limit := forRun s limit initializer condition increment body
    (∀ limit limit' m, (shown (clauses limit) m).1 ≠ some .tooDeep →
      (shown (execute s limit' loop) m).1 ≠ some .tooDeep → shown (execute s limit' loop) m = shown (clauses limit) m) ∧
    (∀ limit m, (shown (clauses limit) m).1 ≠ some .tooDeep →
      (shown (execute s (limit + 4) loop) m).1 ≠ some .tooDeep) ∧
    (∀ limit m, (shown (execute s limit loop) m).1 ≠ some .tooDeep →
      (shown (clauses (limit + 4)) m).1 ≠ some .tooDeep) ∧
    (∀ limit, Keeps (execute s limit body)) ∧ ∀ limit, Keeps (execute s limit loop) := by
  intro loop clauses
  refine ⟨fun limit limit' m hclauses hloop => ?_, fun limit m hm => ?_, fun limit m hm => ?_, fun limit => execute_keeps hb,
    fun limit => execute_keeps (Node.plain_forLoop hi hb)⟩
  · have hsame := shown_forRun hb hloop
    rw [← hsame] at hloop ⊢
    exact forRun_agree hloop hclauses
  · rwa [shown_forLoop hb hm]
  · rwa [shown_forRun hb hm]

theorem forLoop_faithful_shadowing :
    let name (x : String) : Node := .token ⟨.identifier, .text x, .nil, 1⟩
    let initializer := Node.var (name "x") (.literal (.text ""))
    let condition := Node.binary (.variable (name "x")) (.token ⟨.bangEqual, .text "!=", .nil, 1⟩) (.literal (.text "aa"))
    let plus (a b : Node) : Node := .binary a (.token ⟨.plus, .text "+", .nil, 1⟩) b
    let increment := Node.assign (name "x") (plus (.variable (name "x")) (.variable (name "y")))
    let body := Node.block [.var (name "y") (.literal (.text "b")),
      .print (plus (.variable (name "x")) (.variable (name "y")))]
    let s : Settings := ⟨0, 3, 0⟩
    let start : Machine := ⟨.start [(.text "y", .text "a")], #[], #[]⟩
    let loop := execute s 8 (.forLoop (some initializer) (some condition) (some increment) body)
    shown loop start = shown (forRun s 4 (some initializer) (some condition) (some increment) body) start ∧
      shown loop start = (none, .start [(.text "y", .text "a")], #["b", "ab"]) := by
  intro name initializer condition plus increment body s start loop
  have hclauses : shown (forRun s 4 (some initializer) (some condition) (some increment) body) start =
      (none, .start [(.text "y", .text "a")], #["b", "ab"]) := by decide +kernel
  have hplain : body.Plain := ⟨rfl, trivial, trivial, trivial⟩
  have hloop := forLoop_faithful s (some initializer) (some condition) (some increment)
    (fun n hn => by cases hn; trivial) hplain
  have hdeep := hloop.2.1 4 start (by rw [hclauses]; nofun)
  have heq := hloop.1 4 8 start (by rw [hclauses]; nofun) hdeep
  exact ⟨heq, heq.trans hclauses⟩

end Lox.Run
