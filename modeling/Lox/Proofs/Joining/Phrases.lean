import Lox.Proofs.Layout.Phrases

namespace Lox

open Ascent (Phrase)

namespace Ascent.Phrase

mutual

theorem height_reline (f : Int → Int) : ∀ p : Phrase, (p.reline f).height = p.height
  | .absent | .literal _ | .variable _ => rfl
  | .grouping e | .unary _ e | .expression e | .print e | .var _ e => congrArg (· + 1) (height_reline f e)
  | .joined l a o b => by simp only [reline, height, isJoined_reline, height_reline f a, height_reline f b]
  | .assign a _ b | .loop a b => by simp only [reline, height, height_reline f a, height_reline f b]
  | .block ss => congrArg (· + 1) (heightAll_reline f ss)
  | .branch c a b => by simp only [reline, height, height_reline f c, height_reline f a, height_reline f b]
  | .forLoop i c s b => by
    simp only [reline, height, height_reline f i, height_reline f c, height_reline f s, height_reline f b]

theorem heightAll_reline (f : Int → Int) : ∀ ps : List Phrase, heightAll (relineAll f ps) = heightAll ps
  | [] => rfl
  | p :: ps => by simp only [relineAll, heightAll, height_reline f p, heightAll_reline f ps]

end

theorem heightAll_le_iff {ps : List Phrase} {n : Nat} : heightAll ps ≤ n ↔ ∀ p ∈ ps, p.height ≤ n := by
  induction ps with
  | nil => simp [heightAll]
  | cons p ps ih => rw [heightAll, Nat.max_le, ih, List.forall_mem_cons]

theorem nodes_eq_map (ps : List Phrase) : nodes ps = ps.map node := by
  induction ps with
  | nil => rfl
  | cons p ps ih => rw [nodes, ih, List.map_cons]

end Ascent.Phrase

namespace Grammar

variable {lenient : Bool} {s : Symbol} {ts us vs ws rest tail : List Token} {p : Phrase} {ps qs : List Phrase}

theorem next?_append (hws : next? ws ≠ some .elseWord) (h : next? (vs ++ tail) ≠ some .elseWord) :
    next? (vs ++ ws) ≠ some .elseWord := by
  cases vs with
  | nil => exact hws
  | cons v vs => exact h

theorem Derives.before (hws : next? ws ≠ some .elseWord) (h : Derives lenient s ts rest p) : ∀ vs, rest = vs ++ tail →
    ∃ us, ts = us ++ tail ∧ Derives lenient s (us ++ ws) (vs ++ ws) p := by
  induction h with
  | noDeclaration => exact fun vs heq => ⟨vs, heq, .noDeclaration⟩
  | moreDeclarations _ _ ih ih' =>
    intro vs heq
    obtain ⟨us', rfl, h'⟩ := ih' vs heq
    obtain ⟨us, rfl, h⟩ := ih us' rfl
    exact ⟨us, rfl, .moreDeclarations h h'⟩
  | varDeclared _ ih => exact fun vs heq => (ih vs heq).imp fun us h => ⟨h.1, .varDeclared h.2⟩
  | stated _ ih => exact fun vs heq => (ih vs heq).imp fun us h => ⟨h.1, .stated h.2⟩
  | @varAbsent v n s _ hv hn hs =>
    rintro vs rfl
    exact ⟨v :: n :: s :: vs, rfl, .varAbsent hv hn hs⟩
  | @varInitialized v n e s _ _ _ hv hn he _ hs ih =>
    rintro vs rfl
    obtain ⟨us, rfl, h⟩ := ih (s :: vs) rfl
    exact ⟨v :: n :: e :: us, rfl, .varInitialized hv hn he h hs⟩
  | @expressionStatement s _ _ _ _ hs ih =>
    rintro vs rfl
    obtain ⟨us, rfl, h⟩ := ih (s :: vs) rfl
    exact ⟨us, rfl, .expressionStatement h hs⟩
  | expressed _ ih => exact fun vs heq => (ih vs heq).imp fun us h => ⟨h.1, .expressed h.2⟩
  | @print k s _ _ _ hk _ hs ih =>
    rintro vs rfl
    obtain ⟨us, rfl, h⟩ := ih (s :: vs) rfl
    exact ⟨k :: us, rfl, .print hk h hs⟩
  | @block l r _ _ _ hl _ hr ih =>
    rintro vs rfl
    obtain ⟨us, rfl, h⟩ := ih (r :: vs) rfl
    exact ⟨l :: us, rfl, .block hl h hr⟩
  | @ifOnly k l r _ _ _ _ _ hk hl _ hr _ hnext ih ih' =>
    rintro vs rfl
    obtain ⟨us', rfl, h'⟩ := ih' vs rfl
    obtain ⟨us, rfl, h⟩ := ih (r :: us') rfl
    exact ⟨k :: l :: us, rfl, .ifOnly hk hl h hr h' (next?_append hws hnext)⟩
  | @ifElse k l r e _ _ _ _ _ _ _ hk hl _ hr _ he _ ih ih' ih'' =>
    rintro vs rfl
    obtain ⟨us'', rfl, h''⟩ := ih'' vs rfl
    obtain ⟨us', rfl, h'⟩ := ih' (e :: us'') rfl
    obtain ⟨us, rfl, h⟩ := ih (r :: us') rfl
    exact ⟨k :: l :: us, rfl, .ifElse hk hl h hr h' he h''⟩
  | @loop k l r _ _ _ _ _ hk hl _ hr _ ih ih' =>
    rintro vs rfl
    obtain ⟨us', rfl, h'⟩ := ih' vs rfl
    obtain ⟨us, rfl, h⟩ := ih (r :: us') rfl
    exact ⟨k :: l :: us, rfl, .loop hk hl h hr h'⟩
  | @forLoop k l s r _ _ _ _ _ _ _ _ _ hk hl _ _ hs _ hr _ ihi ihc ihe ihb =>
    rintro vs rfl
    obtain ⟨bs, rfl, hb⟩ := ihb vs rfl
    obtain ⟨es, rfl, he⟩ := ihe (r :: bs) rfl
    obtain ⟨cs, rfl, hc⟩ := ihc (s :: es) rfl
    obtain ⟨is, rfl, hi⟩ := ihi cs rfl
    exact ⟨k :: l :: is, rfl, .forLoop hk hl hi hc hs he hr hb⟩
  | @initializerAbsent s _ hs =>
    rintro vs rfl
    exact ⟨s :: vs, rfl, .initializerAbsent hs⟩
  | initializerVar _ ih => exact fun vs heq => (ih vs heq).imp fun us h => ⟨h.1, .initializerVar h.2⟩
  | initializerExpression _ ih => exact fun vs heq => (ih vs heq).imp fun us h => ⟨h.1, .initializerExpression h.2⟩
  | clauseAbsent => exact fun vs heq => ⟨vs, heq, .clauseAbsent⟩
  | clausePresent _ ih => exact fun vs heq => (ih vs heq).imp fun us h => ⟨h.1, .clausePresent h.2⟩
  | @assign n e _ _ _ hn he _ ih =>
    rintro vs rfl
    obtain ⟨us, rfl, h⟩ := ih vs rfl
    exact ⟨n :: e :: us, rfl, .assign hn he h⟩
  | @misassign e _ _ _ _ _ hl _ hne he _ ih ih' =>
    rintro vs rfl
    obtain ⟨us', rfl, h'⟩ := ih' vs rfl
    obtain ⟨us, rfl, h⟩ := ih (e :: us') rfl
    exact ⟨us, rfl, .misassign hl h hne he h'⟩
  | joinedAll _ ih => exact fun vs heq => (ih vs heq).imp fun us h => ⟨h.1, .joinedAll h.2⟩
  | @joined l ls o _ _ _ _ _ _ ho _ ih ih' =>
    rintro vs rfl
    obtain ⟨us', rfl, h'⟩ := ih' vs rfl
    obtain ⟨us, rfl, h⟩ := ih (o :: us') rfl
    exact ⟨us, rfl, .joined h ho h'⟩
  | single _ ih => exact fun vs heq => (ih vs heq).imp fun us h => ⟨h.1, .single h.2⟩
  | tightest _ ih => exact fun vs heq => (ih vs heq).imp fun us h => ⟨h.1, .tightest h.2⟩
  | @unary o _ _ _ ho _ ih =>
    rintro vs rfl
    obtain ⟨us, rfl, h⟩ := ih vs rfl
    exact ⟨o :: us, rfl, .unary ho h⟩
  | primary _ ih => exact fun vs heq => (ih vs heq).imp fun us h => ⟨h.1, .primary h.2⟩
  | @literal t _ ht =>
    rintro vs rfl
    exact ⟨t :: vs, rfl, .literal ht⟩
  | @trueWord t _ ht =>
    rintro vs rfl
    exact ⟨t :: vs, rfl, .trueWord ht⟩
  | @falseWord t _ ht =>
    rintro vs rfl
    exact ⟨t :: vs, rfl, .falseWord ht⟩
  | @nilWord t _ ht =>
    rintro vs rfl
    exact ⟨t :: vs, rfl, .nilWord ht⟩
  | @name t _ ht =>
    rintro vs rfl
    exact ⟨t :: vs, rfl, .name ht⟩
  | @grouping l r _ _ _ hl _ hr ih =>
    rintro vs rfl
    obtain ⟨us, rfl, h⟩ := ih (r :: vs) rfl
    exact ⟨l :: us, rfl, .grouping hl h hr⟩

theorem Derives.append (h : Derives lenient .declarations ts ws (.block ps))
    (h' : Derives lenient .declarations ws rest (.block qs)) : Derives lenient .declarations ts rest (.block (ps ++ qs)) := by
  induction ps generalizing ts with
  | nil =>
    cases h
    exact h'
  | cons p ps ih =>
    cases h with
    | moreDeclarations hp hps => exact .moreDeclarations hp (ih hps)

theorem Program.next?_ne_else (h : Program lenient ts ps) : next? ts ≠ some .elseWord := by
  obtain ⟨e, he, h⟩ := h
  generalize hrest : [e] = rest at h
  cases h with
  | noDeclaration =>
    subst hrest
    simp [next?, he]
  | moreDeclarations hp _ =>
    obtain ⟨t, us, rfl, ht⟩ := hp.declaration_begins
    simp only [List.mem_cons, not_or] at ht
    simp [next?, ht.1]

theorem Program.before {e : Token} (h : Program lenient (ts ++ [e]) ps) (hws : next? ws ≠ some .elseWord) :
    Derives lenient .declarations (ts ++ ws) ws (.block ps) := by
  obtain ⟨e', -, h⟩ := h
  obtain rfl : e' = e := h.end_eq
  obtain ⟨us, hus, h⟩ := h.before hws [] (List.nil_append [e']).symm
  rwa [← List.append_cancel_right hus] at h

section

variable {e : Token} (he : e.kind = .eof)

include he

theorem next?_joined {pieces : List (List Token)} (h : ∀ ts ∈ pieces, ∃ e ps, Program lenient (ts ++ [e]) ps) :
    next? (pieces.flatten ++ [e]) ≠ some .elseWord := by
  induction pieces with
  | nil => simp [next?, he]
  | cons ts pieces ih =>
    obtain ⟨⟨e, ps, hp⟩, hpieces⟩ := List.forall_mem_cons.mp h
    rw [List.flatten_cons, List.append_assoc]
    exact next?_append (ih hpieces) hp.next?_ne_else

theorem Program.joined {pieces : List (List Token × List Phrase)}
    (h : ∀ p ∈ pieces, ∃ e, Program lenient (p.1 ++ [e]) p.2) :
    Program lenient ((pieces.map Prod.fst).flatten ++ [e]) (pieces.map Prod.snd).flatten := by
  induction pieces with
  | nil => exact ⟨e, he, .noDeclaration⟩
  | cons p pieces ih =>
    obtain ⟨⟨e', hp⟩, hpieces⟩ := List.forall_mem_cons.mp h
    obtain ⟨e'', he'', hrest⟩ := ih hpieces
    have hnext : next? ((pieces.map Prod.fst).flatten ++ [e]) ≠ some .elseWord :=
      Program.next?_ne_else ⟨e'', he'', hrest⟩
    rw [List.map_cons, List.flatten_cons, List.append_assoc]
    exact ⟨e'', he'', (hp.before hnext).append hrest⟩

end

end Grammar

end Lox
