import Lox.Proofs.Ascent.Completion
import Lox.Proofs.Ascent.Lexing

/-!
Readers of texts by the grammar: a text is accepted when all of it makes tokens and these are a program, and otherwise
reading stops at the first place where no terminal matches, at the first token that no program can have there, or at
the end. That leaves no choice: there is one such reader. Main statements: `parse_lawful` and `Reader.Lawful.unique`.
-/
namespace Lox.Ascent

open Grammar

/-- What stops the reading of a text: everything before it is the beginning of some program. -/
def Failure.Due (source : String) : Failure → Prop
  | .characters line position => position < source.toList.length ∧
      ∃ ts, Lexes 1 source.toList ts line (source.toList.drop position) ∧ Viable ts ∧
        ∀ k w rest, Matches k w rest → source.toList.drop position ≠ w ++ rest
  | .token t => ∃ ts line rest, Lexes 1 source.toList (ts ++ [t]) line rest ∧ Viable ts ∧ ¬ Viable (ts ++ [t])
  | .atEnd => ∃ ts line, Lexes 1 source.toList ts line [] ∧ Viable ts ∧ ∀ ps, ¬ Program true (ts ++ [endToken line]) ps

/-- The reader reads by the grammar, one token at a time. -/
structure Reader.Lawful (parse : Reader) : Prop where
  accepts : ∀ source tree, parse source = .ok tree ↔ ∃ ts line, Lexes 1 source.toList ts line [] ∧
    Program true (ts ++ [endToken line]) tree.statements ∧ tree.line = (ts.head?.map Token.line).getD 1
  stops : ∀ source f, parse source = .error f → f.Due source

section

variable {line line' line'' : Nat} {cs left left' : List Char} {ts ts' us : List Token} {t : Token}

theorem Lexes.extends (h : Lexes line cs ts line' left) (hstuck : ∀ k w rest, Matches k w rest → left ≠ w ++ rest)
    (h' : Lexes line cs ts' line'' left') : ∃ us, ts = ts' ++ us ∧ Lexes line'' left' us line' left := by
  rcases h.compare h' with ⟨us, rfl, hus⟩ | hextends
  · obtain ⟨rfl, rfl, rfl⟩ := hus.of_stuck hstuck
    exact ⟨[], by simp, .here⟩
  · exact hextends

theorem Lexes.eq_of_stuck (h : Lexes line cs ts line' left) (hstuck : ∀ k w rest, Matches k w rest → left ≠ w ++ rest)
    (h' : Lexes line cs ts' line'' left') (hstuck' : ∀ k w rest, Matches k w rest → left' ≠ w ++ rest) :
    ts = ts' ∧ line' = line'' ∧ left = left' := by
  obtain ⟨us, rfl, hus⟩ := h.extends hstuck h'
  obtain ⟨rfl, rfl, rfl⟩ := hus.of_stuck hstuck'
  exact ⟨by simp, rfl, rfl⟩

theorem Viable.of_append (h : Viable (ts ++ us)) (hus : ∀ u ∈ us, u.kind ≠ .eof) : Viable ts := by
  obtain ⟨vs, ps, hvs, hprogram⟩ := h
  exact ⟨us ++ vs, ps, List.forall_mem_append.mpr ⟨hus, hvs⟩, by rwa [← List.append_assoc]⟩

theorem Viable.of_lexes (h : Lexes line cs (ts ++ us) line' left) (hv : Viable (ts ++ us)) : Viable ts :=
  hv.of_append fun u hu => h.kind_ne_eof u (List.mem_append_right ts hu)

theorem not_viable_of_extends (h : Lexes line cs ts line' left)
    (hstuck : ∀ k w rest, Matches k w rest → left ≠ w ++ rest) (hv : Viable ts)
    (h' : Lexes line cs (ts' ++ [t]) line'' left') (hnot : ¬ Viable (ts' ++ [t])) : False := by
  obtain ⟨us, rfl, -⟩ := h.extends hstuck h'
  exact hnot (hv.of_lexes h)

theorem eq_of_le (hv : Viable ts') (hnot : ¬ Viable (ts ++ [t])) {t' : Token} (h : Lexes line cs (ts' ++ [t']) line' left)
    (heq : ts' ++ [t'] = ts ++ [t] ++ us) : t = t' := by
  rcases List.eq_nil_or_concat us with rfl | ⟨us, u, rfl⟩
  · rw [List.append_nil] at heq
    obtain ⟨-, hlast⟩ := List.append_inj' heq rfl
    cases hlast
    rfl
  · rw [List.concat_eq_append, ← List.append_assoc] at heq
    obtain ⟨rfl, -⟩ := List.append_inj' heq rfl
    refine absurd (hv.of_append fun u hu => h.kind_ne_eof u ?_) hnot
    exact List.mem_append_left _ (List.mem_append_right _ hu)

theorem eq_of_not_viable (h : Lexes line cs (ts ++ [t]) line' left) (hv : Viable ts) (hnot : ¬ Viable (ts ++ [t]))
    {t' : Token} (h' : Lexes line cs (ts' ++ [t']) line'' left') (hv' : Viable ts') (hnot' : ¬ Viable (ts' ++ [t'])) :
    t = t' := by
  rcases h.compare h' with ⟨us, heq, -⟩ | ⟨us, heq, -⟩
  · exact eq_of_le hv' hnot h' heq
  · exact (eq_of_le hv hnot' h heq).symm

end

theorem Failure.Due.unique {source : String} {f g : Failure} (hf : f.Due source) (hg : g.Due source) : f = g := by
  have hnil := not_matches_nil
  cases f with
  | characters line position =>
    obtain ⟨hlt, ts, hlexes, hv, hstuck⟩ := hf
    cases g with
    | characters line' position' =>
      obtain ⟨hlt', ts', hlexes', -, hstuck'⟩ := hg
      obtain ⟨-, rfl, hdrop⟩ := hlexes.eq_of_stuck hstuck hlexes' hstuck'
      have hlen := congrArg List.length hdrop
      simp only [List.length_drop] at hlen
      obtain rfl : position = position' := by omega
      rfl
    | token t =>
      obtain ⟨ts', line', rest, hlexes', -, hnot⟩ := hg
      exact (not_viable_of_extends hlexes hstuck hv hlexes' hnot).elim
    | atEnd =>
      obtain ⟨ts', line', hlexes', -⟩ := hg
      obtain ⟨-, -, hdrop⟩ := hlexes.eq_of_stuck hstuck hlexes' hnil
      exact absurd (List.drop_eq_nil_iff.mp hdrop) (by omega)
  | token t =>
    obtain ⟨ts, line, rest, hlexes, hv, hnot⟩ := hf
    cases g with
    | characters line' position' =>
      obtain ⟨-, ts', hlexes', hv', hstuck'⟩ := hg
      exact (not_viable_of_extends hlexes' hstuck' hv' hlexes hnot).elim
    | token t' =>
      obtain ⟨ts', line', rest', hlexes', hv', hnot'⟩ := hg
      exact congrArg Failure.token (eq_of_not_viable hlexes hv hnot hlexes' hv' hnot')
    | atEnd =>
      obtain ⟨ts', line', hlexes', hv', -⟩ := hg
      exact (not_viable_of_extends hlexes' hnil hv' hlexes hnot).elim
  | atEnd =>
    obtain ⟨ts, line, hlexes, hv, -⟩ := hf
    cases g with
    | characters line' position' =>
      obtain ⟨hlt, ts', hlexes', -, hstuck'⟩ := hg
      obtain ⟨-, -, hdrop⟩ := hlexes'.eq_of_stuck hstuck' hlexes hnil
      exact absurd (List.drop_eq_nil_iff.mp hdrop) (by omega)
    | token t =>
      obtain ⟨ts', line', rest, hlexes', -, hnot⟩ := hg
      exact (not_viable_of_extends hlexes hnil hv hlexes' hnot).elim
    | atEnd => rfl

/-- Reading by the grammar leaves no choice. -/
theorem Reader.Lawful.unique {p q : Reader} (hp : p.Lawful) (hq : q.Lawful) : p = q := by
  funext source
  cases h : p source with
  | ok tree => exact ((hq.accepts source tree).mpr ((hp.accepts source tree).mp h)).symm
  | error f =>
    cases h' : q source with
    | ok tree =>
      have heq := (hp.accepts source tree).mpr ((hq.accepts source tree).mp h')
      rw [h] at heq
      cases heq
    | error g => exact congrArg Except.error ((hp.stops source f h).unique (hq.stops source g h'))

def Ended (line position : Nat) (c : Config) (cs : List Char) : Except Failure (List Phrase) → Prop
  | .ok ps => ∃ ts line', Lexes line cs ts line' [] ∧ phrases? c ts = some ps
  | .error (.characters line' position') => ∃ ts w rest c', cs = w ++ rest ∧ position' = position + w.length ∧
      rest ≠ [] ∧ Lexes line cs ts line' rest ∧ match? rest = none ∧ c.run? ts = some c'
  | .error (.token t) => ∃ ts line' rest c', Lexes line cs (ts ++ [t]) line' rest ∧ c.run? ts = some c' ∧ c'.step t = none
  | .error .atEnd => ∃ ts line' c', Lexes line cs ts line' [] ∧ c.run? ts = some c' ∧ c'.finish? = none

section

variable {line position : Nat} {c c' : Config} {w rest : List Char} {k : Kind} {r : Except Failure (List Phrase)}

theorem Ended.ignored (hm : Matches none w rest) (h : Ended (line + w.count '\n') (position + w.length) c rest r) :
    Ended line position c (w ++ rest) r := by
  rcases r with (⟨line', position'⟩ | t | _) | ps
  · obtain ⟨ts, w', rest', c', rfl, rfl, hne, hlexes, hnone, hrun⟩ := h
    exact ⟨ts, w ++ w', rest', c', by simp, by simp [Nat.add_assoc], hne, .ignored hm hlexes, hnone, hrun⟩
  · obtain ⟨ts, line', rest', c', hlexes, hrun, hstep⟩ := h
    exact ⟨ts, line', rest', c', .ignored hm hlexes, hrun, hstep⟩
  · obtain ⟨ts, line', c', hlexes, hrun, hfinish⟩ := h
    exact ⟨ts, line', c', .ignored hm hlexes, hrun, hfinish⟩
  · obtain ⟨ts, line', hlexes, hps⟩ := h
    exact ⟨ts, line', .ignored hm hlexes, hps⟩

theorem Ended.token (hm : Matches (some k) w rest)
    (hstep : c.step ⟨k, .text (String.ofList w), literal k w, line⟩ = some c')
    (h : Ended (line + w.count '\n') (position + w.length) c' rest r) : Ended line position c (w ++ rest) r := by
  have hrun {ts : List Token} {d : Config} (h : c'.run? ts = some d) :
      c.run? (⟨k, .text (String.ofList w), literal k w, line⟩ :: ts) = some d := by
    rw [Config.run?, hstep, Option.bind_some, h]
  rcases r with (⟨line', position'⟩ | t | _) | ps
  · obtain ⟨ts, w', rest', d, rfl, rfl, hne, hlexes, hnone, h⟩ := h
    exact ⟨_ :: ts, w ++ w', rest', d, by simp, by simp [Nat.add_assoc], hne, .token hm hlexes, hnone, hrun h⟩
  · obtain ⟨ts, line', rest', d, hlexes, h, hd⟩ := h
    exact ⟨_ :: ts, line', rest', d, .token hm hlexes, hrun h, hd⟩
  · obtain ⟨ts, line', d, hlexes, h, hd⟩ := h
    exact ⟨_ :: ts, line', d, .token hm hlexes, hrun h, hd⟩
  · obtain ⟨ts, line', hlexes, hps⟩ := h
    refine ⟨_ :: ts, line', .token hm hlexes, ?_⟩
    rw [phrases?, hstep, Option.bind_some, hps]

theorem phrasesFrom_ended : ∀ fuel line position c cs, cs.length ≤ fuel →
    Ended line position c cs (phrasesFrom fuel line position c cs) := by
  have hnil (fuel line position : Nat) (c : Config) : Ended line position c [] (phrasesFrom fuel line position c []) := by
    rw [phrasesFrom]
    cases hfinish : c.finish? with
    | none => exact ⟨[], line, c, .here, rfl, hfinish⟩
    | some ps => exact ⟨[], line, .here, hfinish⟩
  intro fuel
  induction fuel with
  | zero =>
    intro line position c cs hlen
    obtain rfl := List.length_eq_zero_iff.mp (Nat.le_zero.mp hlen)
    exact hnil 0 line position c
  | succ fuel ih =>
    intro line position c cs hlen
    cases cs with
    | nil => exact hnil (fuel + 1) line position c
    | cons a as =>
      cases hmatch : match? (a :: as) with
      | none =>
        rw [phrasesFrom_unmatched hmatch]
        exact ⟨[], [], a :: as, c, rfl, rfl, by simp, .here, hmatch, rfl⟩
      | some m =>
        obtain ⟨k?, w, rest⟩ := m
        obtain ⟨hm, heq⟩ := match?_eq_some_iff.mp hmatch
        have hrest : rest.length ≤ fuel := by
          have hpos := List.length_pos_iff.mpr hm.ne_nil
          have hall := congrArg List.length heq
          rw [List.length_append] at hall
          omega
        cases k? with
        | none =>
          rw [phrasesFrom_ignored hmatch, heq]
          exact .ignored hm (ih _ _ c rest hrest)
        | some k =>
          rw [phrasesFrom_token hmatch, heq]
          cases hstep : c.step ⟨k, .text (String.ofList w), literal k w, line⟩ with
          | none => exact ⟨[], _, rest, c, .token hm .here, rfl, hstep⟩
          | some c' => exact .token hm hstep (ih _ _ c' rest hrest)

theorem firstLine_eq {line' : Nat} {cs : List Char} {ts : List Token} (h : Lexes line cs ts line' []) :
    ∀ fuel, cs.length ≤ fuel → (firstLine fuel line cs : Int) = (ts.head?.map Token.line).getD 1 := by
  generalize hleft : [] = left at h
  induction h with
  | here =>
    subst hleft
    intro fuel _
    cases fuel <;> rfl
  | @ignored line w rest _ _ _ hm _ ih =>
    intro fuel hlen
    have hpos := List.length_pos_iff.mpr hm.ne_nil
    rw [List.length_append] at hlen
    obtain ⟨fuel, rfl⟩ : ∃ n, fuel = n + 1 := ⟨fuel - 1, by omega⟩
    rw [firstLine, match?_of_matches hm]
    exact ih hleft fuel (by omega)
  | @token line k w rest _ _ _ hm _ ih =>
    intro fuel hlen
    have hpos := List.length_pos_iff.mpr hm.ne_nil
    rw [List.length_append] at hlen
    obtain ⟨fuel, rfl⟩ : ∃ n, fuel = n + 1 := ⟨fuel - 1, by omega⟩
    rw [firstLine, match?_of_matches hm]
    rfl

end

section

variable {source : String} {ps : List Phrase}

theorem stuck_of_match? {cs : List Char} (h : match? cs = none) : ∀ k w rest, Matches k w rest → cs ≠ w ++ rest := by
  rintro k w rest hm rfl
  cases h.symm.trans (match?_of_matches hm)

theorem phrases_ended (source : String) : Ended 1 0 .start source.toList (phrases source) :=
  phrasesFrom_ended _ _ _ _ _ (Nat.le_refl _)

theorem phrases_iff_lexes : phrases source = .ok ps ↔ ∃ ts line, Lexes 1 source.toList ts line [] ∧
    Program true (ts ++ [endToken line]) ps := by
  have hended := phrases_ended source
  have hend : ∀ line, (endToken line).kind = .eof := fun _ => rfl
  constructor
  · intro h
    rw [h] at hended
    obtain ⟨ts, line, hlexes, hps⟩ := hended
    exact ⟨ts, line, hlexes, (phrases?_eq_some_iff (hend line) hlexes.kind_ne_eof).mp hps⟩
  · rintro ⟨ts, line, hlexes, hprogram⟩
    have hps := (phrases?_eq_some_iff (hend line) hlexes.kind_ne_eof).mpr hprogram
    generalize phrases source = r at hended
    rcases r with (⟨line', position⟩ | t | _) | qs
    · obtain ⟨ts', w, rest, c, -, -, hne, hlexes', hnone, -⟩ := hended
      obtain ⟨-, -, h⟩ := hlexes'.eq_of_stuck (stuck_of_match? hnone) hlexes not_matches_nil
      exact absurd h hne
    · obtain ⟨ts', line', rest, c, hlexes', hrun, hstep⟩ := hended
      obtain ⟨us, rfl, -⟩ := hlexes.extends not_matches_nil hlexes'
      rw [List.append_assoc, phrases?_append, hrun, Option.bind_some, List.singleton_append, phrases?, hstep] at hps
      cases hps
    · obtain ⟨ts', line', c, hlexes', hrun, hfinish⟩ := hended
      obtain ⟨rfl, -, -⟩ := hlexes.eq_of_stuck not_matches_nil hlexes' not_matches_nil
      rw [phrases?_eq_bind, hrun, Option.bind_some, hfinish] at hps
      cases hps
    · obtain ⟨ts', line', hlexes', hqs⟩ := hended
      obtain ⟨rfl, -, -⟩ := hlexes.eq_of_stuck not_matches_nil hlexes' not_matches_nil
      rw [hqs] at hps
      cases hps
      rfl

theorem parse_eq_ok_iff {tree : Tree} : parse source = .ok tree ↔
    phrases source = .ok tree.statements ∧ tree.line = firstLine source.toList.length 1 source.toList := by
  obtain ⟨ps, line⟩ := tree
  unfold parse
  cases phrases source with
  | error f => simp [Except.map]
  | ok qs => simp [Except.map, eq_comm]

/-- The automaton reads by the grammar. -/
theorem parse_lawful : Reader.Lawful parse where
  accepts source tree := by
    rw [parse_eq_ok_iff, phrases_iff_lexes]
    constructor
    · rintro ⟨⟨ts, line, hlexes, hprogram⟩, hline⟩
      exact ⟨ts, line, hlexes, hprogram, hline.trans (firstLine_eq hlexes _ (Nat.le_refl _))⟩
    · rintro ⟨ts, line, hlexes, hprogram, hline⟩
      exact ⟨⟨ts, line, hlexes, hprogram⟩, hline.trans (firstLine_eq hlexes _ (Nat.le_refl _)).symm⟩
  stops source f h := by
    have hended := phrases_ended source
    have hphrases : phrases source = .error f := by
      unfold parse at h
      cases hps : phrases source with
      | error g => simpa [hps, Except.map] using h
      | ok ps => simp [hps, Except.map] at h
    rw [hphrases] at hended
    rcases f with ⟨line, position⟩ | t | _
    · obtain ⟨ts, w, rest, c, heq, rfl, hne, hlexes, hnone, hrun⟩ := hended
      have hdrop : source.toList.drop (0 + w.length) = rest := by
        rw [heq, Nat.zero_add, List.drop_left]
      have hlt : 0 + w.length < source.toList.length := by
        have hpos := List.length_pos_iff.mpr hne
        rw [heq, List.length_append]
        omega
      refine ⟨hlt, ts, ?_, (viable_iff hlexes.kind_ne_eof).mpr ⟨c, hrun⟩, ?_⟩
      · rwa [hdrop]
      · rw [hdrop]
        exact stuck_of_match? hnone
    · obtain ⟨ts, line, rest, c, hlexes, hrun, hstep⟩ := hended
      obtain ⟨hts, -⟩ := List.forall_mem_append.mp hlexes.kind_ne_eof
      refine ⟨ts, line, rest, hlexes, (viable_iff hts).mpr ⟨c, hrun⟩, fun hv => ?_⟩
      obtain ⟨c', hrun'⟩ := (viable_iff hlexes.kind_ne_eof).mp hv
      rw [run?_append, hrun, Option.bind_some, Config.run?, hstep] at hrun'
      cases hrun'
    · obtain ⟨ts, line, c, hlexes, hrun, hfinish⟩ := hended
      refine ⟨ts, line, hlexes, (viable_iff hlexes.kind_ne_eof).mpr ⟨c, hrun⟩, fun ps hprogram => ?_⟩
      have hps := (phrases?_eq_some_iff (by rfl) hlexes.kind_ne_eof).mpr hprogram
      rw [phrases?_eq_bind, hrun, Option.bind_some, hfinish] at hps
      cases hps

end

end Lox.Ascent
