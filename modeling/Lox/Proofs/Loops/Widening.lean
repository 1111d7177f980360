import Lox.Proofs.Layout.Runs

namespace Lox

namespace Env

def widen (k : Nat) (env : Env) : Env :=
  { env with locals := env.locals.insertIdx k [] }

variable {k : Nat} {env env' : Env} {x : Name} {v : Value}

theorem findSome?_insertIdx_nil (k : Nat) (scopes : List Scope) :
    (scopes.insertIdx k []).findSome? (Entries.get? x) = scopes.findSome? (Entries.get? x) := by
  induction scopes generalizing k with
  | nil => cases k <;> rfl
  | cons scope scopes ih =>
    cases k with
    | zero => rfl
    | succ k => rw [List.insertIdx_succ_cons, List.findSome?_cons, List.findSome?_cons, ih]

theorem assignFirst?_insertIdx_nil (k : Nat) (scopes : List Scope) :
    assignFirst? x v (scopes.insertIdx k []) = (assignFirst? x v scopes).map (·.insertIdx k []) := by
  induction scopes generalizing k with
  | nil => cases k <;> rfl
  | cons scope scopes ih =>
    cases k with
    | zero => rfl
    | succ k =>
      rw [List.insertIdx_succ_cons, assignFirst?, assignFirst?, ih]
      split
      · rfl
      · rw [Option.map_map, Option.map_map]
        rfl

theorem get?_widen : (env.widen k).get? x = env.get? x := by
  rw [get?, get?, widen, findSome?_insertIdx_nil]

theorem assign?_widen : (env.widen k).assign? x v = (env.assign? x v).map (widen k) := by
  rw [assign?, assign?, widen, assignFirst?_insertIdx_nil]
  cases assignFirst? x v env.locals with
  | some locals => rfl
  | none =>
    dsimp only [Option.map_none]
    split <;> rfl

theorem define_widen : (env.widen (k + 1)).define x v = (env.define x v).widen (k + 1) := by
  obtain ⟨locals, globals⟩ := env
  cases locals <;> rfl

theorem leave_widen (h : 0 < env.depth) : (env.widen (k + 1)).leave = env.leave.widen k := by
  obtain ⟨_ | ⟨scope, locals⟩, globals⟩ := env
  · cases h
  · rfl

theorem depth_assign? (h : env.assign? x v = some env') : env'.depth = env.depth := by
  have hkeys := congrArg (·.1.length) (keys_assign? h)
  simpa only [keys, depth, List.length_map] using hkeys

end Env

def Machine.Widened (k : Nat) (m m' : Machine) : Prop :=
  m'.env = m.env.widen k ∧ k ≤ m.env.depth ∧ m.printed = m'.printed

namespace Run

theorem coupled_widened (s : Settings) : Coupled s s Machine.Widened where
  turns := rfl
  note hm _ _ _ := hm
  noteDepth hm := hm
  print hm line := ⟨hm.1, hm.2.1, congrArg (·.push line) hm.2.2⟩
  get? hm x _ := by rw [hm.1, Env.get?_widen]
  assign? {i m m'} hm x v _ := by
    rw [hm.1, Env.assign?_widen]
    cases h : m.env.assign? x v with
    | some env => exact .some ⟨rfl, (Env.depth_assign? h).symm ▸ hm.2.1, hm.2.2⟩
    | none => exact .none
  define hm x v _ := ⟨by rw [hm.1, Env.define_widen], (Env.depth_define x v _).symm ▸ hm.2.1, hm.2.2⟩
  enter hm := ⟨congrArg Env.enter hm.1, Nat.succ_le_succ hm.2.1, hm.2.2⟩
  leave {i m m'} hm := by
    obtain ⟨henv, hdepth, hprinted⟩ := hm
    -- the scope that is left is another one, as the empty one is further out
    have hleft : m.env.leave.depth = m.env.depth - 1 := List.length_tail
    refine ⟨?_, ?_, hprinted⟩
    · dsimp only
      rw [henv, Env.leave_widen (by omega)]
    · dsimp only
      omega

theorem Tandem.inWider {x y : Run Unit} (h : Tandem 0 id (Machine.Widened 0) x y) :
    Tandem 0 id (Machine.Alike #[]) x (Run.inScope y) := by
  intro m m' hm
  have hr := h m { m' with env := m'.env.enter } ⟨congrArg Env.enter hm.1.symm, Nat.zero_le _, by simp [hm.2]⟩
  have hleave : ∀ {m m'}, Machine.Widened 0 m m' → Machine.Alike #[] m { m' with env := m'.env.leave } :=
    fun hm => ⟨(congrArg Env.leave hm.1).symm, by simp [hm.2.2]⟩
  unfold Run.inScope
  generalize x m = r at hr
  generalize y { m' with env := m'.env.enter } = r' at hr
  cases hr with
  | ok hd => exact .ok (hleave hd)
  | error hd => exact .error (hleave hd)
  | tooDeep hslack => cases hslack

end Run

end Lox
