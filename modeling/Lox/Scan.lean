import Lox.Diagnostic
import Lox.Text

/-!
Scanning: a cursor passes once over a source text and leaves tokens and diagnostics behind it. Each turn of the main loop
captures one lexeme at most, and what is wrong does not stop it. A token stands on the line on which it ends.
-/
namespace Lox

open Text

structure Outside where
  index : Nat
  deriving DecidableEq, Inhabited

structure Scanner where
  reporter : Option Reporter
  tokens : Array Token
  errors : Array Diagnostic
  start : Nat
  current : Nat
  line : Nat
  deriving DecidableEq, Inhabited

def endToken (line : Int) : Token :=
  ⟨.eof, .text "", .nil, line⟩

def singleKind? : Char → Option Kind
  | '(' => some .leftParen
  | ')' => some .rightParen
  | '{' => some .leftBrace
  | '}' => some .rightBrace
  | ',' => some .comma
  | '.' => some .dot
  | '-' => some .minus
  | '+' => some .plus
  | ';' => some .semicolon
  | '*' => some .star
  | _ => none

def equalSuffixKinds? : Char → Option (Kind × Kind)
  | '!' => some (.bang, .bangEqual)
  | '=' => some (.equal, .equalEqual)
  | '<' => some (.less, .lessEqual)
  | '>' => some (.greater, .greaterEqual)
  | _ => none

namespace Scanner

def begin (reporter : Option Reporter) : Scanner :=
  ⟨reporter, #[], #[], 0, 0, 1⟩

section

variable (source : Array Char)

def read (i : Nat) : Except Outside Char :=
  match source[i]? with
  | some c => .ok c
  | none => .error ⟨i⟩

def slice (i j : Nat) : List Char :=
  (source.extract i j).toList

def atEnd (s : Scanner) : Bool :=
  source.size ≤ s.current

def advance (s : Scanner) : Except Outside (Char × Scanner) := do
  let c ← read source s.current
  return (c, { s with current := s.current + 1 })

def accept (expected : Char) (s : Scanner) : Except Outside (Bool × Scanner) := do
  if s.atEnd source then return (false, s)
  let c ← read source s.current
  if c ≠ expected then return (false, s)
  return (true, { s with current := s.current + 1 })

def peek (s : Scanner) : Except Outside Char :=
  if s.atEnd source then .ok '\x00' else read source s.current

def peekNext (s : Scanner) : Except Outside Char :=
  if source.size ≤ s.current + 1 then .ok '\x00' else read source (s.current + 1)

def addToken (kind : Kind) (literal : Value) (s : Scanner) : Scanner :=
  { s with tokens := s.tokens.push ⟨kind, .text (String.ofList (slice source s.start s.current)), literal, s.line⟩ }

def report (problem : Problem) (s : Scanner) : Scanner :=
  let d : Diagnostic := ⟨s.line, .unnamed, problem⟩
  { s with errors := s.errors.push d, reporter := s.reporter.map (·.syntaxError d) }

theorem lt_of_read {i : Nat} {c : Char} (h : read source i = .ok c) : i < source.size := by
  unfold read at h
  split at h
  · rename_i hc
    exact (Array.getElem?_eq_some_iff.mp hc).1
  · cases h

theorem advance_eq_ok {s s' : Scanner} {c : Char} (h : s.advance source = .ok (c, s')) :
    s.current < source.size ∧ s' = { s with current := s.current + 1 } := by
  cases hread : read source s.current with
  | error e => simp [advance, hread, bind, Except.bind] at h
  | ok d =>
    simp only [advance, hread, bind, Except.bind, pure, Except.pure, Except.ok.injEq, Prod.mk.injEq] at h
    exact ⟨lt_of_read source hread, h.2.symm⟩

def advanceWhile (test : Scanner → Char → Bool) (s : Scanner) : Except Outside Scanner :=
  match s.peek source with
  | .error e => .error e
  | .ok c =>
    if test s c then
      match _h : s.advance source with
      | .error e => .error e
      | .ok (_, s') => advanceWhile test s'
    else .ok s
termination_by source.size - s.current
decreasing_by
  obtain ⟨hlt, rfl⟩ := advance_eq_ok source _h
  exact Nat.sub_lt_sub_left hlt (Nat.lt_succ_self _)

def stringBody (s : Scanner) : Except Outside Scanner :=
  match s.peek source with
  | .error e => .error e
  | .ok c =>
    if c ≠ '"' && !s.atEnd source then
      let behind := { s with line := if c = '\n' then s.line + 1 else s.line }
      match _h : behind.advance source with
      | .error e => .error e
      | .ok (_, s') => stringBody s'
    else .ok s
termination_by source.size - s.current
decreasing_by
  obtain ⟨hlt, rfl⟩ := advance_eq_ok source _h
  exact Nat.sub_lt_sub_left hlt (Nat.lt_succ_self _)

def identifier (s : Scanner) : Except Outside Scanner := do
  let s ← s.advanceWhile source fun _ c => isAlphanumeric c
  return s.addToken source (.ofWord (String.ofList (slice source s.start s.current))) .nil

/-- A point belongs to a number only when a digit follows it. -/
def fraction (s : Scanner) : Except Outside Scanner := do
  if (← s.peek source) ≠ '.' then return s
  if !isDigit (← s.peekNext source) then return s
  let (_, s) ← s.advance source
  s.advanceWhile source fun _ c => isDigit c

def number (s : Scanner) : Except Outside Scanner := do
  let s ← s.advanceWhile source fun _ c => isDigit c
  let s ← s.fraction source
  return s.addToken source .number (.number (Number.ofNumeral (slice source s.start s.current)))

def string (s : Scanner) : Except Outside Scanner := do
  let s ← s.stringBody source
  if s.atEnd source then return s.report .unterminatedString
  let (_, s) ← s.advance source
  return s.addToken source .string (.text (String.ofList (slice source (s.start + 1) (s.current - 1))))

def scanToken (s : Scanner) : Except Outside Scanner := do
  let (c, s) ← s.advance source
  if let some kind := singleKind? c then return s.addToken source kind .nil
  else if let some (alone, suffixed) := equalSuffixKinds? c then
    let (suffix, s) ← s.accept source '='
    return s.addToken source (if suffix then suffixed else alone) .nil
  else if c = '/' then
    let (comment, s) ← s.accept source '/'
    if comment then s.advanceWhile source fun s c => c ≠ '\n' && !s.atEnd source
    else return s.addToken source .slash .nil
  else if c ∈ [' ', '\r', '\t'] then return s
  else if c = '\n' then return { s with line := s.line + 1 }
  else if c = '"' then s.string source
  else if isDigit c then s.number source
  else if isAlpha c then s.identifier source
  else return s.report (.unexpectedCharacter c)

end

section

variable {source : Array Char} {s s' : Scanner} {c : Char}

theorem bind_eq_ok {α β : Type} {x : Except Outside α} {f : α → Except Outside β} {b : β} (h : x >>= f = .ok b) :
    ∃ a, x = .ok a ∧ f a = .ok b := by
  cases x with
  | error e => cases h
  | ok a => exact ⟨a, rfl, h⟩

theorem advance_lt (h : s.advance source = .ok (c, s')) : s.current < s'.current := by
  obtain ⟨-, rfl⟩ := advance_eq_ok source h
  exact Nat.lt_succ_self _

theorem accept_le {b : Bool} (h : s.accept source c = .ok (b, s')) : s.current ≤ s'.current := by
  unfold accept at h
  split at h
  · cases h
    exact Nat.le_refl _
  · obtain ⟨d, -, h⟩ := bind_eq_ok h
    split at h <;> cases h
    · exact Nat.le_refl _
    · exact Nat.le_succ _

theorem advanceWhile_le {test : Scanner → Char → Bool} (h : s.advanceWhile source test = .ok s') :
    s.current ≤ s'.current := by
  fun_induction advanceWhile source test s with
  | case1 | case2 => cases h
  | case3 s c hpeek htest d t hadvance ih => exact Nat.le_trans (Nat.le_of_lt (advance_lt hadvance)) (ih h)
  | case4 =>
    cases h
    exact Nat.le_refl _

theorem stringBody_le (h : s.stringBody source = .ok s') : s.current ≤ s'.current := by
  fun_induction stringBody source s with
  | case1 | case2 => cases h
  | case3 s c hpeek htest behind d t hadvance ih =>
    have hlt := advance_lt hadvance
    exact Nat.le_trans (Nat.le_of_lt hlt) (ih h)
  | case4 =>
    cases h
    exact Nat.le_refl _

theorem identifier_le (h : s.identifier source = .ok s') : s.current ≤ s'.current := by
  obtain ⟨t, ht, h⟩ := bind_eq_ok h
  have hle := advanceWhile_le ht
  cases h
  exact hle

theorem fraction_le (h : s.fraction source = .ok s') : s.current ≤ s'.current := by
  obtain ⟨c, -, h⟩ := bind_eq_ok h
  split at h
  · cases h
    exact Nat.le_refl _
  obtain ⟨d, -, h⟩ := bind_eq_ok h
  split at h
  · cases h
    exact Nat.le_refl _
  obtain ⟨⟨e, t⟩, ht, h⟩ := bind_eq_ok h
  exact Nat.le_trans (Nat.le_of_lt (advance_lt ht)) (advanceWhile_le h)

theorem number_le (h : s.number source = .ok s') : s.current ≤ s'.current := by
  obtain ⟨t, ht, h⟩ := bind_eq_ok h
  obtain ⟨u, hu, h⟩ := bind_eq_ok h
  have hle := Nat.le_trans (advanceWhile_le ht) (fraction_le hu)
  cases h
  exact hle

theorem string_le (h : s.string source = .ok s') : s.current ≤ s'.current := by
  obtain ⟨t, ht, h⟩ := bind_eq_ok h
  have hle := stringBody_le ht
  split at h
  · cases h
    exact hle
  · obtain ⟨⟨c, u⟩, hu, h⟩ := bind_eq_ok h
    have hlt := advance_lt hu
    cases h
    exact Nat.le_trans hle (Nat.le_of_lt hlt)

theorem scanToken_lt (h : s.scanToken source = .ok s') : s.current < s'.current := by
  obtain ⟨⟨c, t⟩, ht, h⟩ := bind_eq_ok h
  refine Nat.lt_of_lt_of_le (advance_lt ht) ?_
  dsimp only at h
  split at h
  · cases h
    exact Nat.le_refl _
  split at h
  · obtain ⟨⟨b, u⟩, hu, h⟩ := bind_eq_ok h
    have hle := accept_le hu
    cases h
    exact hle
  split at h
  · obtain ⟨⟨b, u⟩, hu, h⟩ := bind_eq_ok h
    have hle := accept_le hu
    dsimp only at h
    split at h
    · exact Nat.le_trans hle (advanceWhile_le h)
    · cases h
      exact hle
  split at h
  · cases h
    exact Nat.le_refl _
  split at h
  · cases h
    exact Nat.le_refl _
  split at h
  · exact string_le h
  split at h
  · exact number_le h
  split at h
  · exact identifier_le h
  · cases h
    exact Nat.le_refl _

end

def scanTokens (source : Array Char) (s : Scanner) : Except Outside Scanner :=
  if s.atEnd source then .ok { s with tokens := s.tokens.push (endToken s.line) }
  else
    let started := { s with start := s.current }
    match _h : started.scanToken source with
    | .error e => .error e
    | .ok s' => scanTokens source s'
termination_by source.size - s.current
decreasing_by
  rename_i hend
  have hlt : started.current < s'.current := scanToken_lt _h
  have hsize : s.current < source.size := by simpa [atEnd] using hend
  exact Nat.sub_lt_sub_left hsize hlt

end Scanner

structure Scan where
  tokens : List Token
  diagnostics : List Diagnostic
  deriving DecidableEq, Inhabited

/-- No index outside the source is read, so there are always tokens. -/
def scan (source : String) : Scan :=
  match Scanner.scanTokens source.toList.toArray (.begin none) with
  | .ok s => ⟨s.tokens.toList, s.errors.toList⟩
  | .error _ => ⟨[], []⟩

def Reporter.scanning (r : Reporter) (source : String) : Reporter :=
  match Scanner.scanTokens source.toList.toArray (.begin (some r)) with
  | .ok s => s.reporter.getD r
  | .error _ => r

def Token.described (t : Token) : String :=
  t.kind.name ++ " " ++ t.lexeme.described ++ " " ++ t.literal.described

end Lox
