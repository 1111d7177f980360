import Lox.Scan

namespace Lox

open Text

inductive Segment where
  | blank (c : Char)
  | comment (body : List Char)
  | lexeme (kind : Kind) (chars : List Char)
  | unexpected (c : Char)
  | unterminated (body : List Char)
  deriving DecidableEq, Inhabited

namespace Segment

def chars : Segment → List Char
  | .blank c => [c]
  | .comment body => '/' :: '/' :: body
  | .lexeme _ cs => cs
  | .unexpected c => [c]
  | .unterminated body => '"' :: body

def number (c : Char) (cs : List Char) : List Char × List Char :=
  let whole := c :: cs.takeWhile isDigit
  match cs.dropWhile isDigit with
  | '.' :: d :: rest =>
    if isDigit d then (whole ++ '.' :: d :: rest.takeWhile isDigit, rest.dropWhile isDigit)
    else (whole, '.' :: d :: rest)
  | rest => (whole, rest)

def first (c : Char) (cs : List Char) : Segment × List Char :=
  if let some kind := singleKind? c then (.lexeme kind [c], cs)
  else if let some (alone, suffixed) := equalSuffixKinds? c then
    match cs with
    | '=' :: rest => (.lexeme suffixed [c, '='], rest)
    | rest => (.lexeme alone [c], rest)
  else if c = '/' then
    match cs with
    | '/' :: rest => (.comment (rest.takeWhile (· != '\n')), rest.dropWhile (· != '\n'))
    | rest => (.lexeme .slash [c], rest)
  else if c = ' ' ∨ c = '\r' ∨ c = '\t' ∨ c = '\n' then (.blank c, cs)
  else if c = '"' then
    let body := cs.takeWhile (· != '"')
    match cs.dropWhile (· != '"') with
    | [] => (.unterminated body, [])
    | quote :: rest => (.lexeme .string (c :: body ++ [quote]), rest)
  else if isDigit c then
    let (digits, rest) := number c cs
    (.lexeme .number digits, rest)
  else if isAlpha c then
    let word := c :: cs.takeWhile isAlphanumeric
    (.lexeme (.ofWord (String.ofList word)) word, cs.dropWhile isAlphanumeric)
  else (.unexpected c, cs)

theorem number_append (c : Char) (cs : List Char) : (number c cs).1 ++ (number c cs).2 = c :: cs := by
  have h := List.takeWhile_append_dropWhile (p := isDigit) (l := cs)
  unfold number
  split
  · rename_i d rest hr
    have hd := List.takeWhile_append_dropWhile (p := isDigit) (l := rest)
    rw [hr] at h
    split <;> simp [h, hd]
  · simp [h]

theorem chars_first_append (c : Char) (cs : List Char) :
    (first c cs).1.chars ++ (first c cs).2 = c :: cs := by
  unfold first
  split
  · simp [chars]
  split
  · split <;> simp [chars]
  split
  · subst_vars
    split
    · simp [chars, List.takeWhile_append_dropWhile]
    · simp [chars]
  split
  · simp [chars]
  split
  · subst_vars
    have h := List.takeWhile_append_dropWhile (p := (· != '"')) (l := cs)
    dsimp only
    split <;> rename_i hr <;> rw [hr] at h <;> simpa [chars] using h
  split
  · simpa [chars] using number_append c cs
  split
  · simp [chars, List.takeWhile_append_dropWhile]
  · simp [chars]

theorem chars_first_ne_nil (c : Char) (cs : List Char) : (first c cs).1.chars ≠ [] := by
  unfold first
  split
  · simp [chars]
  split
  · split <;> simp [chars]
  split
  · split <;> simp [chars]
  split
  · simp [chars]
  split
  · dsimp only
    split <;> simp [chars]
  split
  · simp only [chars, number]
    split
    · split <;> simp
    · simp
  split <;> simp [chars]

theorem length_first_lt (c : Char) (cs : List Char) : (first c cs).2.length < (c :: cs).length := by
  have h := congrArg List.length (chars_first_append c cs)
  have hpos := List.length_pos_iff.mpr (chars_first_ne_nil c cs)
  rw [List.length_append] at h
  omega

end Segment

def segments : List Char → List Segment
  | [] => []
  | c :: cs => (Segment.first c cs).1 :: segments (Segment.first c cs).2
termination_by cs => cs.length
decreasing_by exact Segment.length_first_lt c cs

theorem flatten_segments (cs : List Char) : ((segments cs).map Segment.chars).flatten = cs := by
  fun_induction segments cs with
  | case1 => rfl
  | case2 c cs ih => simp only [List.map_cons, List.flatten_cons, ih, Segment.chars_first_append]

namespace Segment

def literal : Kind → List Char → Value
  | .number, cs => .number (Number.ofNumeral cs)
  | .string, cs => .text (String.ofList (cs.drop 1).dropLast)
  | _, _ => .nil

def token? (line : Nat) : Segment → Option Token
  | .lexeme kind cs => some ⟨kind, .text (String.ofList cs), literal kind cs, line⟩
  | _ => none

def diagnostic? (line : Nat) : Segment → Option Diagnostic
  | .unexpected c => some ⟨line, .unnamed, .unexpectedCharacter c⟩
  | .unterminated _ => some ⟨line, .unnamed, .unterminatedString⟩
  | _ => none

def numbered (line : Nat) : List Segment → List (Nat × Segment)
  | [] => []
  | s :: ss =>
    let line := line + List.count '\n' s.chars
    (line, s) :: numbered line ss

theorem numbered_append (line : Nat) (ss ss' : List Segment) : numbered line (ss ++ ss') =
    numbered line ss ++ numbered (line + List.count '\n' (ss.map chars).flatten) ss' := by
  induction ss generalizing line with
  | nil => rfl
  | cons s ss ih =>
    rw [List.cons_append, numbered, numbered, ih]
    simp [List.count_append, Nat.add_assoc]

theorem mem_of_mem_numbered {line n : Nat} {s : Segment} {ss : List Segment} (h : (n, s) ∈ numbered line ss) : s ∈ ss := by
  induction ss generalizing line with
  | nil => cases h
  | cons s' ss ih =>
    rcases List.mem_cons.mp h with heq | h
    · cases heq
      exact List.mem_cons_self
    · exact List.mem_cons_of_mem _ (ih h)

end Segment

end Lox
