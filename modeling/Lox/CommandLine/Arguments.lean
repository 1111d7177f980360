import Lox.Reading
import Lox.Text

/-!
Arguments: the words of a command line, read as flags with their values and as operands. A long flag may be
cut short as long as no other begins that way, short flags may share a word, and behind two dashes every
word is an operand.
-/
namespace Lox.CommandLine

inductive Flag where
  | help
  | verbose
  | debugFile
  | frontEnd
  | emit
  | tree
  deriving DecidableEq, Inhabited

namespace Flag

def long : List (List Char × Flag) :=
  [("--help".toList, .help), ("--debug-file".toList, .debugFile), ("--parser".toList, .frontEnd),
    ("--emit-ast".toList, .emit), ("--ast".toList, .tree)]

def short : List (Char × Flag) :=
  [('h', .help), ('v', .verbose)]

def ofLetter? (c : Char) : Option Flag :=
  short.lookup c

def takesValue : Flag → Bool
  | .help | .verbose => false
  | .debugFile | .frontEnd | .emit | .tree => true

end Flag

inductive Refusal where
  | help
  | misuse
  deriving DecidableEq, Inhabited

inductive Word where
  | operand (text : String)
  | separator
  | flag (f : Flag) (attached : Option String)
  | cluster (fs : List Flag)
  | malformed
  | unknown
  deriving DecidableEq, Inhabited

namespace Word

/-- The short flags behind a dash, all in one word. An equals sign may stand behind the first of them, but
not at the end. -/
def sharing? : List Char → Option (List Flag)
  | c :: '=' :: d :: cs => (c :: d :: cs).mapM Flag.ofLetter?
  | cs => cs.mapM Flag.ofLetter?

def isNumeral (cs : List Char) : Bool :=
  let isDigit (c : Char) := (Text.digitValue? c).isSome
  let cs := if cs.getLast? = some '\n' then cs.dropLast else cs
  match cs.dropWhile isDigit with
  | [] => !cs.isEmpty
  | '.' :: fraction => !fraction.isEmpty && fraction.all isDigit
  | _ => false

def other (cs : List Char) : Word :=
  if isNumeral (cs.drop 1) || cs.contains ' ' then .operand (String.ofList cs) else .unknown

def ofLong (cs : List Char) : Except Refusal Word :=
  let name := cs.takeWhile (· ≠ '=')
  let attached := match cs.dropWhile (· ≠ '=') with
    | [] => none
    | _ :: value => some (String.ofList value)
  match Flag.long.filter fun p => name.isPrefixOf p.1 with
  | [] => .ok (other cs)
  | [p] => .ok (.flag p.2 attached)
  | _ => .error .misuse

def ofShort (cs : List Char) : Word :=
  (sharing? cs).elim .malformed .cluster

def ofChars : List Char → Except Refusal Word
  | '-' :: '-' :: cs => ofLong ('-' :: '-' :: cs)
  | '-' :: c :: cs =>
    if (Flag.ofLetter? c).isSome then .ok (ofShort (c :: cs)) else .ok (other ('-' :: c :: cs))
  | cs => .ok (.operand (String.ofList cs))

def all : List String → Except Refusal (List Word)
  | [] => .ok []
  | s :: ss =>
    if s = "--" then .ok (.separator :: ss.map .operand)
    else do
      let word ← ofChars s.toList
      let words ← all ss
      return word :: words

end Word

structure Arguments where
  verbosity : Nat
  debugFile : Option String
  frontEnd : Option FrontEnd
  emit : Option String
  tree : Option String
  scripts : List String
  deriving DecidableEq, Inhabited

namespace Arguments

def start : Arguments :=
  ⟨0, some "debug.txt", some .descent, none, none, []⟩

def value? (text : String) : Option String :=
  if text = "--" then none else some text

def set (a : Arguments) : Flag → Option String → Except Refusal Arguments
  | .help, none => .error .help
  | .verbose, none => .ok { a with verbosity := a.verbosity + 1 }
  | .debugFile, some v => .ok { a with debugFile := value? v }
  | .frontEnd, some v =>
    match value? v with
    | none => .ok { a with frontEnd := none }
    | some name =>
      (FrontEnd.ofName? name).elim (.error .misuse) fun f => .ok { a with frontEnd := some f }
  | .emit, some v =>
    if a.tree.isSome then .error .misuse else .ok { a with emit := some ((value? v).getD "") }
  | .tree, some v =>
    if a.emit.isSome then .error .misuse else .ok { a with tree := some ((value? v).getD "") }
  | _, _ => .error .misuse

end Arguments

inductive Row where
  | before
  | inside
  | behind
  deriving DecidableEq, Inhabited

structure Progress where
  arguments : Arguments
  row : Row
  stray : Bool
  deriving DecidableEq, Inhabited

namespace Progress

def start : Progress :=
  ⟨.start, .before, false⟩

def operands (p : Progress) (texts : List String) : Progress :=
  match p.row with
  | .behind => { p with stray := true }
  | .before | .inside =>
    { p with arguments := { p.arguments with scripts := p.arguments.scripts ++ texts }, row := .inside }

def interrupt (p : Progress) : Progress :=
  { p with row := if p.row = .inside then .behind else p.row }

def set (f : Flag) (value : Option String) (p : Progress) : Except Refusal Progress :=
  (p.arguments.set f value).map fun a => { p.interrupt with arguments := a }

/-- A flag's value is attached to it or is the next word, if that is an operand. -/
def read : List Word → Progress → Except Refusal Progress
  | [], p => .ok p
  | .operand t :: ws, p => read ws (p.operands [t])
  | .separator :: ws, p => read ws (p.operands [])
  | .flag f (some v) :: ws, p => do read ws (← p.set f (some v))
  | .flag f none :: .operand v :: ws, p =>
    if f.takesValue then do read ws (← p.set f (some v))
    else do read ws ((← p.set f none).operands [v])
  | .flag f none :: ws, p => do read ws (← p.set f none)
  | .cluster fs :: ws, p => do read ws (← fs.foldlM (fun p f => set f none p) p)
  | .malformed :: _, _ => .error .misuse
  | .unknown :: ws, p => read ws { p.interrupt with stray := true }

end Progress

/-- A word without a place is noticed only when all words are read. -/
def Arguments.read (words : List String) : Except Refusal Arguments := do
  let p ← Progress.read (← Word.all words) .start
  if p.stray then .error .misuse else .ok p.arguments

inductive Task where
  | emit (path : String)
  | tree (path : String)
  | script (path : String)
  | prompt
  deriving DecidableEq, Inhabited

/-- What the arguments ask for, unless they name more than one script. A path that is empty is as good as
none, but for a script's. -/
def Arguments.task? (a : Arguments) : Option Task :=
  let given (path : Option String) : Option String := path.filter (· ≠ "")
  match a.scripts with
  | _ :: _ :: _ => none
  | scripts =>
    match given a.emit, given a.tree, scripts with
    | some path, _, _ => some (.emit path)
    | none, some path, _ => some (.tree path)
    | none, none, path :: _ => some (.script path)
    | none, none, [] => some .prompt

end Lox.CommandLine
