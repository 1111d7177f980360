import Lox.Proofs.Descent.Language
import Lox.Proofs.Recovery.Rules

namespace Lox

open Parse

def Cursor.diagnostics (c : Cursor) : List Diagnostic :=
  c.complaints.toList.map Complaint.diagnostic

theorem Cursor.diagnostics_eq (c : Cursor) : c.diagnostics = c.said.map fun x => x.1.diagnostic x.2 := by
  rw [diagnostics, said, List.map_map]
  rfl

theorem Cursor.diagnostics_append {c d f : Cursor} (h : f.said = c.said ++ d.said) :
    f.diagnostics = c.diagnostics ++ d.diagnostics := by
  rw [diagnostics_eq, h, List.map_append, ← diagnostics_eq, ← diagnostics_eq]

namespace Descent

variable {limit limit' n' : Nat} {e : Token} {as bs ws : List Token} {ns : List Node} {c c' d : Cursor}

theorem moves_declaration (turns limit : Nat) : Moves (declaration turns limit) :=
  (orderly_statements turns limit).2.2

theorem orderly_declaration (turns limit : Nat) : Orderly turns (declaration turns limit) :=
  (orderly_statements turns limit).2.1

theorem hasEnd_append (ts : List Token) (he : e.kind = .eof) : HasEnd (ts ++ [e]) :=
  ⟨e, by simp, he⟩

theorem program_follows {σ : Seam} {kinds' : List Kind} (before : List Node) {m' : Nat} (hlimit : limit' ≤ limit)
    (heof : .eof ∈ kinds') (hspared : ∀ k ∈ kinds', k ∉ [Kind.eof] → k ∈ σ.spared) {tokens : List Token}
    (hc : (Cursor.start tokens).Beside σ σ.Parting c') (hm : c'.rest.length ≤ m') (hn : m' ≤ n') :
    Follows σ n' [.eof] kinds' (declaration n' limit') [] before (program limit tokens)
      (untilKind kinds' (declaration n' limit') m' before c') :=
  untilKind_follows (statements_lockstep tokens.length n' hlimit).2 (orderly_declaration _ _) (orderly_declaration _ _)
    (moves_declaration _ _) (moves_declaration _ _) (by decide) heof
    (fun _ _ _ hrest hk hk' => declaration_blames hrest (hspared _ hk hk')) tokens.length m' [] before _ c' hc
    (Nat.le_refl _) (Nat.le_refl _) hm hn

theorem not_blamesSpared {σ : Seam} (h : ∀ x ∈ c.complaints.toList, x.token.kind ∉ σ.spared) :
    ¬ BlamesSpared σ (.ok ns c : EStateM.Result Halt Cursor (List Node)) := by
  rintro (⟨x, hx, hk⟩ | ⟨d, t, ts, hd, -⟩)
  · exact h x hx hk
  · cases hd

theorem untilKind_goes_on {before : List Node} {m' : Nat} (he : e.kind = .eof)
    (hprogram : program limit (bs ++ [e]) = .ok ns c) (hd : d.rest = bs ++ [e]) (hm : d.rest.length ≤ m') (hn : m' ≤ n') :
    TooDeep true (untilKind [.eof] (declaration n' limit) m' before d) ∨
      ∃ f, untilKind [.eof] (declaration n' limit) m' before d = .ok (before.reverse ++ ns) f ∧
        f.said = d.said ++ c.said := by
  let σ : Seam :=
    { stop := e, ahead := none, said := d.said, spared := [], stop_eof := he, ahead_end := nofun, ahead_else := nofun,
      spared_eof := fun h => absurd rfl h, spared_sub := nofun }
  have hbeside : (Cursor.start (bs ++ [e])).Beside σ σ.Parting d := by
    refine ⟨?_, (List.append_nil _).symm⟩
    rw [hd]
    exact .shared (.same rfl (hasEnd_append bs he))
  have hfollows := program_follows before (Nat.le_refl limit) (List.mem_singleton.mpr rfl)
    (fun _ hk hk' => absurd hk hk') hbeside hm hn
  rw [hprogram] at hfollows
  rcases hfollows with hb | hdeep | ⟨e, d, d', hx, -⟩ | ⟨as, f, f', k, hok, hf, ⟨t, ht, hk⟩, hlen, -, hy⟩
  · exact absurd hb (not_blamesSpared fun _ _ => List.not_mem_nil)
  · exact .inl hdeep
  · cases hx
  cases hok
  rcases hf.rest.exists_cons with ⟨u, us, us', hrest, hrest', -⟩ | ⟨w, us, -, -, hahead, -⟩
  · rw [hrest, List.head?_cons, Option.mem_some] at ht
    rw [hrest', List.length_cons] at hlen
    obtain ⟨k, rfl⟩ := Nat.exists_eq_add_one.mpr (Nat.zero_lt_of_lt hlen)
    refine .inr ⟨f', ?_, hf.said⟩
    rw [hy, untilKind_here hrest' (ht ▸ hk)]
    simp
  · cases hahead

theorem untilKind_goes_up_to {kinds' : List Kind} {s : Token} {spared : List Kind} (hlimit : limit' ≤ limit)
    (heof : .eof ∈ kinds') (hkinds : ∀ k ∈ kinds', k ∉ [Kind.eof] → k ∈ spared) (hspared : .eof ∈ spared)
    (hsub : ∀ k ∈ spared, k ∈ [Kind.eof, .rightBrace]) (he : e.kind = .eof) (has : ∀ t ∈ as, t.kind ≠ .eof)
    (hlast : as.getLast? = some s) (hs : s.kind = .semicolon) (hws : HasEnd ws)
    (helse : ∀ t ∈ ws.head?, t.kind ≠ .elseWord) (hprogram : program limit (as ++ [e]) = .ok ns c)
    (hclean : ∀ x ∈ c.complaints.toList, x.token.kind ∉ spared) (hrest : c'.rest = as ++ ws) (hsaid : c'.said = [])
    (hlen : c'.rest.length ≤ n') :
    TooDeep true (untilKind kinds' (declaration n' limit') n' [] c') ∨
      ∃ d k, untilKind kinds' (declaration n' limit') n' [] c' = untilKind kinds' (declaration n' limit') k ns.reverse d ∧
        d.rest = ws ∧ d.rest.length ≤ k ∧ k ≤ n' ∧ d.said = c.said := by
  let σ : Seam :=
    { stop := e, ahead := some ws, said := [], spared := spared, stop_eof := he, ahead_end := by simpa using hws,
      ahead_else := by simpa using helse, spared_eof := fun _ => hspared, spared_sub := hsub }
  obtain ⟨ts, rfl⟩ := List.getLast?_eq_some_iff.mp hlast
  have hbeside : (Cursor.start (ts ++ [s] ++ [e])).Beside σ σ.Parting c' := by
    refine ⟨?_, hsaid⟩
    rw [hrest, Cursor.start, List.append_assoc, List.append_assoc]
    exact .shared (.before rfl (fun t ht => has t (List.mem_append_left _ ht)) hs)
  have hfollows := program_follows [] hlimit heof hkinds hbeside hlen (Nat.le_refl n')
  rw [hprogram] at hfollows
  rcases hfollows with hb | hdeep | ⟨e, d, d', hx, -⟩ | ⟨as, f, f', k, hok, hf, ⟨t, ht, hk⟩, hlen, hn, hy⟩
  · exact absurd hb (not_blamesSpared hclean)
  · exact .inl hdeep
  · cases hx
  cases hok
  have hws : f'.rest = ws := by
    rcases hf.rest.exists_cons with ⟨-, -, -, -, -, hshared⟩ | ⟨-, -, -, -, hahead, -⟩
    · exact absurd (List.mem_singleton.mp hk) (hshared.head_ne_eof rfl t ht)
    · exact (Option.some.inj hahead).symm
  rw [List.append_nil] at hy
  exact .inr ⟨f', k, hy, hws, hlen, hn, hf.said⟩

def declarationPart (turns limit : Nat) : Parse Node := do
  if (← accept? [.varWord]).isSome then return ← varDeclaration (expression turns limit)
  statement turns limit

theorem declaration_eq (turns limit : Nat) (c : Cursor) :
    declaration turns (limit + 1) c = recover (declarationPart turns limit) (entered .declaration c) := rfl

theorem orderly_declarationPart (turns limit : Nat) : Orderly turns (declarationPart turns limit) :=
  (orderly_accept? _).bind fun _ => .ite (orderly_varDeclaration (orderly_expression turns limit))
    (orderly_statements turns limit).1.1

section

variable {turns : Nat} {l : Token} {ts : List Token} (hl : l.kind = .leftBrace) (hc : c.rest = l :: ts)

include hl hc

theorem declarationPart_brace (turns limit : Nat) : declarationPart turns limit c = statement turns limit c :=
  accept?_ite_of_not_mem hc (by simp [hl])

theorem statement_brace (turns limit : Nat) :
    statement turns (limit + 1) c = block turns (declaration turns limit) (skip [l] ts (entered .statement c)) :=
  statement_of_some hc (by rw [hl]; rfl)

theorem declaration_brace {n : Node}
    (h : block turns (declaration turns limit) (skip [l] ts (entered .statement (entered .declaration c))) = .ok n d) :
    declaration turns (limit + 2) c = .ok (some n) d := by
  have hentered : (entered .declaration c).rest = l :: ts := hc
  rw [declaration_eq, recover, declarationPart_brace hl hentered, statement_brace hl hentered, h]

theorem tooDeep_declaration_brace (hend : HasEnd c.rest)
    (h : TooDeep true (block turns (declaration turns limit) (skip [l] ts (entered .statement (entered .declaration c))))) :
    TooDeep true (declaration turns (limit + 2) c) := by
  have hentered : (entered .declaration c).rest = l :: ts := hc
  rw [declaration_eq]
  refine tooDeep_recover (orderly_declarationPart turns (limit + 1)) hend ?_
  rwa [declarationPart_brace hl hentered, statement_brace hl hentered]

theorem tooDeep_declaration_limit (hend : HasEnd c.rest) (hlimit : limit < 2) :
    TooDeep true (declaration turns limit c) := by
  cases limit with
  | zero => exact .inl ⟨c, rfl⟩
  | succ limit =>
    obtain rfl : limit = 0 := by omega
    have hentered : (entered .declaration c).rest = l :: ts := hc
    rw [declaration_eq]
    refine tooDeep_recover (orderly_declarationPart turns 0) hend ?_
    rw [declarationPart_brace hl hentered]
    exact .inl ⟨_, rfl⟩

end

theorem program_cons {l : Token} {ts : List Token} (hl : l.kind ≠ .eof) : program limit (l :: ts) =
    (declaration (ts.length + 1) limit >>= fun a =>
      untilKind [.eof] (declaration (ts.length + 1) limit) ts.length a.toList) (Cursor.start (l :: ts)) := by
  have hrest : (Cursor.start (l :: ts)).rest = l :: ts := rfl
  rw [program, List.length_cons, untilKind, peek_bind hrest, if_neg (by simpa using hl)]
  simp only [List.append_nil]

section

variable {s : Token} {ns' : List Node} (he : e.kind = .eof) (has : ∀ t ∈ as, t.kind ≠ .eof)
  (hlast : as.getLast? = some s) (hs : s.kind = .semicolon) (helse : ∀ t ∈ bs.head?, t.kind ≠ .elseWord)
  (hprogram : program limit (as ++ [e]) = .ok ns c) (hprogram' : program limit (bs ++ [e]) = .ok ns' c')
  (hend : ∀ x ∈ c.complaints.toList, x.token.kind ≠ .eof)

include he has hlast hs hprogram hprogram' hend

include helse in
theorem program_append (hw : Within limit (as ++ bs ++ [e])) :
    ∃ d, program limit (as ++ bs ++ [e]) = .ok (ns ++ ns') d ∧ d.diagnostics = c.diagnostics ++ c'.diagnostics := by
  have hhead : ∀ t ∈ (bs ++ [e]).head?, t.kind ≠ .elseWord := by
    cases bs with
    | nil => simp [he]
    | cons b bs => exact helse
  have hclean : ∀ x ∈ c.complaints.toList, x.token.kind ∉ [Kind.eof] := by simpa using hend
  have hfirst : TooDeep true (program limit (as ++ bs ++ [e])) ∨ ∃ d k, program limit (as ++ bs ++ [e]) =
      untilKind [.eof] (declaration (as ++ bs ++ [e]).length limit) k ns.reverse d ∧ d.rest = bs ++ [e] ∧
        d.rest.length ≤ k ∧ k ≤ (as ++ bs ++ [e]).length ∧ d.said = c.said :=
    untilKind_goes_up_to (Nat.le_refl limit) (by decide) (by decide) (by decide) (by decide) he has hlast hs
      (hasEnd_append bs he) hhead hprogram hclean (List.append_assoc as bs [e]) rfl (Nat.le_refl _)
  rcases hfirst with hdeep | ⟨d, k, hd, hrest, hlen, hk, hsaid⟩
  · exact absurd hdeep hw
  rcases untilKind_goes_on he hprogram' hrest hlen hk with hdeep | ⟨f, hf, hfsaid⟩
  · rw [← hd] at hdeep
    exact absurd hdeep hw
  · rw [hsaid] at hfsaid
    refine ⟨f, ?_, Cursor.diagnostics_append hfsaid⟩
    rw [hd, hf, List.reverse_reverse]

omit hprogram' in
theorem declaration_reads_block (hbrace : ∀ x ∈ c.complaints.toList, x.token.kind ≠ .rightBrace) {l r : Token}
    (hl : l.kind = .leftBrace) (hr : r.kind = .rightBrace) (hws : HasEnd ws) {turns : Nat} (c₀ : Cursor)
    (hrest : c₀.rest = l :: (as ++ r :: ws)) (hsaid : c₀.said = []) (hturns : (as ++ r :: ws).length ≤ turns)
    (hw : ¬ TooDeep true (declaration turns limit c₀)) :
    ∃ d, declaration turns limit c₀ = .ok (some (.block ns)) d ∧ d.rest = ws ∧ d.said = c.said := by
  have hends : HasEnd (r :: ws) := hws.of_suffix (List.suffix_cons r ws)
  have hendsAll : HasEnd c₀.rest := by
    rw [hrest]
    exact hends.of_suffix ((List.suffix_append as _).trans (List.suffix_cons l _))
  by_cases hlimit : limit < 2
  · exact absurd (tooDeep_declaration_limit hl hrest hendsAll hlimit) hw
  obtain ⟨m, rfl⟩ : ∃ m, limit = m + 2 := ⟨limit - 2, by omega⟩
  have hclean : ∀ x ∈ c.complaints.toList, x.token.kind ∉ [Kind.eof, .rightBrace] := by
    intro x hx
    simpa using ⟨hend x hx, hbrace x hx⟩
  let c₁ := skip [l] (as ++ r :: ws) (entered .statement (entered .declaration c₀))
  have hinside : TooDeep true (untilKind [.rightBrace, .eof] (declaration turns m) turns [] c₁) ∨ ∃ d k,
      untilKind [.rightBrace, .eof] (declaration turns m) turns [] c₁ =
        untilKind [.rightBrace, .eof] (declaration turns m) k ns.reverse d ∧
      d.rest = r :: ws ∧ d.rest.length ≤ k ∧ k ≤ turns ∧ d.said = c.said :=
    untilKind_goes_up_to (Nat.le_add_right m 2) (by decide) (by decide) (by decide) (by decide) he has hlast hs hends
      (by simp [hr]) hprogram hclean rfl hsaid hturns
  rcases hinside with hdeep | ⟨d, k, hd, hdrest, hlen, -, hdsaid⟩
  · have hblock : TooDeep true (block turns (declaration turns m) c₁) :=
      tooDeep_bind hdeep fun _ => (orderly_expect _ _ : Orderly turns _).bind fun _ => .pure _
    exact absurd (tooDeep_declaration_brace hl hrest hendsAll hblock) hw
  · rw [hdrest, List.length_cons] at hlen
    obtain ⟨k, rfl⟩ := Nat.exists_eq_add_one.mpr (Nat.zero_lt_of_lt hlen)
    have hblock : block turns (declaration turns m) c₁ = .ok (.block ns) (skip [r] ws d) := by
      rw [block, bind_apply, hd, untilKind_here hdrest (by simp [hr])]
      dsimp only
      rw [expect_bind hdrest hr (by decide), List.reverse_reverse]
      rfl
    exact ⟨skip [r] ws d, declaration_brace hl hrest hblock, rfl, hdsaid⟩

theorem program_block (hbrace : ∀ x ∈ c.complaints.toList, x.token.kind ≠ .rightBrace) {l r : Token}
    (hl : l.kind = .leftBrace) (hr : r.kind = .rightBrace) (hw : Within limit (l :: as ++ r :: bs ++ [e])) :
    ∃ d, program limit (l :: as ++ r :: bs ++ [e]) = .ok (.block ns :: ns') d ∧
      d.diagnostics = c.diagnostics ++ c'.diagnostics := by
  let ts := as ++ r :: (bs ++ [e])
  have htokens : l :: as ++ r :: bs ++ [e] = l :: ts := by simp [ts]
  have hne : l.kind ≠ .eof := by simp [hl]
  have hcont : ∀ a : Option Node,
      Orderly ts.length (untilKind [.eof] (declaration (ts.length + 1) limit) ts.length a.toList) :=
    fun a => orderly_untilKind (by decide) (orderly_declaration _ _) (moves_declaration _ _) _ _ (Nat.le_succ _)
  rw [htokens, Within, program_cons hne] at hw
  rw [htokens, program_cons hne]
  obtain ⟨d, hd, hrest, hsaid⟩ := declaration_reads_block he has hlast hs hprogram hend hbrace hl hr (hasEnd_append bs he)
    (Cursor.start (l :: ts)) rfl rfl (Nat.le_succ _) fun hdeep => hw (tooDeep_bind hdeep hcont)
  have hlen : d.rest.length ≤ ts.length := by
    simp only [hrest, ts, List.length_append, List.length_cons]
    omega
  rw [bind_apply, hd] at hw ⊢
  rcases untilKind_goes_on he hprogram' hrest hlen (Nat.le_succ ts.length) with hdeep | ⟨f, hf, hfsaid⟩
  · exact absurd hdeep hw
  · rw [hsaid] at hfsaid
    exact ⟨f, hf, Cursor.diagnostics_append hfsaid⟩

end

/-- Tokens that end in a semicolon, and nothing wrong with their end, read alone as they do before other tokens; so they
do in braces, if none in them is blamed that closes a block. What stands behind them reads as it does alone. -/
theorem program_pieces {limit : Nat} (hl : 0 < limit) {as bs : List Token} {e s : Token} (has : ∀ t ∈ as, t.kind ≠ .eof)
    (he : e.kind = .eof) (hlast : as.getLast? = some s) (hs : s.kind = .semicolon)
    (helse : ∀ t ∈ bs.head?, t.kind ≠ .elseWord) :
    ∃ ns c ns' c', program limit (as ++ [e]) = .ok ns c ∧ program limit (bs ++ [e]) = .ok ns' c' ∧
      ((∀ x ∈ c.complaints.toList, x.token.kind ≠ .eof) →
        (Within limit (as ++ bs ++ [e]) → ∃ d, program limit (as ++ bs ++ [e]) = .ok (ns ++ ns') d ∧
          d.diagnostics = c.diagnostics ++ c'.diagnostics) ∧
        ((∀ x ∈ c.complaints.toList, x.token.kind ≠ .rightBrace) → ∀ l r : Token, l.kind = .leftBrace →
          r.kind = .rightBrace → Within limit (l :: as ++ r :: bs ++ [e]) →
          ∃ d, program limit (l :: as ++ r :: bs ++ [e]) = .ok (.block ns :: ns') d ∧
            d.diagnostics = c.diagnostics ++ c'.diagnostics)) := by
  obtain ⟨ns, c, hprogram⟩ := program_ends hl (hasEnd_append as he)
  obtain ⟨ns', c', hprogram'⟩ := program_ends hl (hasEnd_append bs he)
  refine ⟨ns, c, ns', c', hprogram, hprogram', fun hend => ⟨fun hw => ?_, fun hbrace l r hleft hright hw => ?_⟩⟩
  · exact program_append he has hlast hs helse hprogram hprogram' hend hw
  · exact program_block he has hlast hs hprogram hprogram' hend hbrace hleft hright hw

theorem program_pieces_errors :
    let token (k : Kind) (s : String) : Token := ⟨k, .text s, .nil, 1⟩
    let x := token .identifier "x"
    let stop := token .semicolon ";"
    let as := [token .varWord "var", token .equal "=", x, stop, x, token .identifier "y", token .printWord "print", x, stop]
    let bs := [token .printWord "print", token .rightParen ")", stop, x, stop]
    let l := token .leftBrace "\x7b"
    let r := token .rightBrace "\x7d"
    ∃ ns c ns' c' d d', program depthLimit (as ++ [endToken 1]) = .ok ns c ∧
      c.complaints.toList.map (fun y => y.token.kind) = [.equal, .identifier] ∧
      program depthLimit (bs ++ [endToken 1]) = .ok ns' c' ∧
      c'.complaints.toList.map (fun y => y.token.kind) = [.rightParen] ∧
      program depthLimit (as ++ bs ++ [endToken 1]) = .ok (ns ++ ns') d ∧
      d.diagnostics = c.diagnostics ++ c'.diagnostics ∧
      program depthLimit (l :: as ++ r :: bs ++ [endToken 1]) = .ok (.block ns :: ns') d' ∧
      d'.diagnostics = c.diagnostics ++ c'.diagnostics := by
  intro token x stop as bs l r
  have has : ∀ t ∈ as, t.kind ≠ .eof := by decide
  have hlast : as.getLast? = some stop := rfl
  have helse : ∀ t ∈ bs.head?, t.kind ≠ .elseWord := by decide
  obtain ⟨ns, c, ns', c', hfirst, hsecond, hpieces⟩ :=
    program_pieces (by decide : 0 < depthLimit) has (rfl : (endToken 1).kind = .eof) hlast rfl helse
  have hblamed : (final (program depthLimit (as ++ [endToken 1]))).complaints.toList.map (fun y => y.token.kind) =
      [.equal, .identifier] := by decide +kernel
  have hblamed' : (final (program depthLimit (bs ++ [endToken 1]))).complaints.toList.map (fun y => y.token.kind) =
      [.rightParen] := by decide +kernel
  rw [hfirst] at hblamed
  rw [hsecond] at hblamed'
  have hmem : ∀ y ∈ c.complaints.toList, y.token.kind ∈ [Kind.equal, .identifier] := by
    intro y hy
    rw [← hblamed]
    exact List.mem_map_of_mem hy
  obtain ⟨happend, hblock⟩ := hpieces fun y hy he => absurd (hmem y hy) (by simp [he])
  have hblock := hblock (fun y hy he => absurd (hmem y hy) (by simp [he])) l r rfl rfl (by decide +kernel)
  obtain ⟨d, hd, hdiagnostics⟩ := happend (by decide +kernel)
  obtain ⟨d', hd', hdiagnostics'⟩ := hblock
  exact ⟨ns, c, ns', c', d, d', hfirst, hblamed, hsecond, hblamed', hd, hdiagnostics, hd', hdiagnostics'⟩

end Descent

end Lox
