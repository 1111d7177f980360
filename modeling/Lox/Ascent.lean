import Lox.Ascent.Config
import Lox.Ascent.Terminal

/-!
Reading a text as a program from the bottom up, token by token, until the first thing that does not fit. What a
reader finds wrong is put into words here, and so is what becomes of the tree that it finds.
-/
namespace Lox.Ascent

structure Tree where
  statements : List Phrase
  line : Int
  deriving Inhabited

inductive Failure where
  | characters (line position : Nat)
  | token (t : Token)
  | atEnd
  deriving DecidableEq, Inhabited

abbrev Reader := String → Except Failure Tree

def Failure.diagnostic (source : String) : Failure → Diagnostic
  | .characters line position =>
    let rest := source.toList.drop position
    match word rest with
    | some (w, _) =>
      if String.ofList w ∈ reserved then ⟨line, .atLexeme (String.ofList w), .unexpectedToken⟩
      else ⟨line, .unnamed, .unexpectedCharacter (rest.headD ' ')⟩
    | none => ⟨line, .unnamed, .unexpectedCharacter (rest.headD ' ')⟩
  | .token t => ⟨t.line, .atLexeme t.lexeme.described, .unexpectedToken⟩
  | .atEnd => ⟨(source.toList.count '\n' + 1 : Nat), .atEnd, .unexpectedToken⟩

/-- The statements of a program and what is wrong with it. A text that does not read as a program has
one diagnostic and no statements; targets that are not names do not stop the reading. -/
def program (parse : Reader) (limit : Nat) (source : String) : List Node × List Diagnostic :=
  match parse source with
  | .error f => ([], [f.diagnostic source])
  | .ok tree =>
    if limit < Phrase.heightAll tree.statements then ([], [⟨tree.line, .unnamed, .nestingTooDeep⟩])
    else
      (Phrase.nodes tree.statements,
        (Phrase.misassignedAll tree.statements).map fun t => t.diagnostic .invalidAssignmentTarget)

def heightLimit : Nat := 330

def phrasesFrom : Nat → Nat → Nat → Config → List Char → Except Failure (List Phrase)
  | _, _, _, c, [] => c.finish?.elim (.error .atEnd) .ok
  | 0, _, _, _, _ => .error .atEnd
  | fuel + 1, line, position, c, cs =>
    match match? cs with
    | none => .error (.characters line position)
    | some (kind?, piece, rest) =>
      let behind := line + piece.count '\n'
      let next := position + piece.length
      match kind? with
      | none => phrasesFrom fuel behind next c rest
      | some kind =>
        let t : Token := ⟨kind, .text (String.ofList piece), literal kind piece, line⟩
        match c.step t with
        | none => .error (.token t)
        | some c => phrasesFrom fuel behind next c rest

def phrases (source : String) : Except Failure (List Phrase) :=
  let cs := source.toList
  phrasesFrom cs.length 1 0 .start cs

def firstLine : Nat → Nat → List Char → Nat
  | fuel + 1, line, cs =>
    match match? cs with
    | some (none, piece, rest) => firstLine fuel (line + piece.count '\n') rest
    | some (some _, _, _) => line
    | none => 1
  | 0, _, _ => 1

def parse : Reader := fun source =>
  let cs := source.toList
  (phrases source).map fun ps => ⟨ps, firstLine cs.length 1 cs⟩

section

variable {fuel line position : Nat} {c : Config} {a : Char} {as piece rest : List Char} {kind : Kind}

theorem phrasesFrom_unmatched (h : match? (a :: as) = none) :
    phrasesFrom (fuel + 1) line position c (a :: as) = .error (.characters line position) := by
  rw [phrasesFrom, h]
  simp

theorem phrasesFrom_ignored (h : match? (a :: as) = some (none, piece, rest)) :
    phrasesFrom (fuel + 1) line position c (a :: as) =
      phrasesFrom fuel (line + piece.count '\n') (position + piece.length) c rest := by
  rw [phrasesFrom, h]
  simp

theorem phrasesFrom_token (h : match? (a :: as) = some (some kind, piece, rest)) :
    phrasesFrom (fuel + 1) line position c (a :: as) =
      match c.step ⟨kind, .text (String.ofList piece), literal kind piece, line⟩ with
      | none => .error (.token ⟨kind, .text (String.ofList piece), literal kind piece, line⟩)
      | some c => phrasesFrom fuel (line + piece.count '\n') (position + piece.length) c rest := by
  rw [phrasesFrom, h]
  simp

end

theorem program_of_ok {limit : Nat} {source : String} {ps : List Phrase} (h : phrases source = .ok ps) :
    ∃ line, program parse limit source =
      if limit < Phrase.heightAll ps then ([], [⟨line, .unnamed, .nestingTooDeep⟩])
      else (Phrase.nodes ps, (Phrase.misassignedAll ps).map fun t => t.diagnostic .invalidAssignmentTarget) :=
  ⟨firstLine source.toList.length 1 source.toList, by simp only [program, parse, h, Except.map]⟩

theorem program_of_error {limit : Nat} {source : String} {f : Failure} (h : phrases source = .error f) :
    program parse limit source = ([], [f.diagnostic source]) := by
  simp only [program, parse, h, Except.map]

end Lox.Ascent
