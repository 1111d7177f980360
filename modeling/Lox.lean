import Lox.Ascent
import Lox.Ascent.Config
import Lox.Ascent.Phrase
import Lox.Ascent.Terminal
import Lox.CommandLine.Arguments
import Lox.CommandLine.Disk
import Lox.CommandLine.Folder
import Lox.CommandLine.Performance
import Lox.Cursor
import Lox.Descent
import Lox.Diagnostic
import Lox.Entries
import Lox.Execution
import Lox.Forest
import Lox.Json.Printer
import Lox.Json.Reader
import Lox.Main
import Lox.Node
import Lox.Node.Json
import Lox.Number
import Lox.Number.Shortest
import Lox.Number.Text
import Lox.Operation
import Lox.Part
import Lox.Prompt
import Lox.Proofs.Agreement
import Lox.Proofs.Ascent.Completion
import Lox.Proofs.Ascent.Demand
import Lox.Proofs.Ascent.Growth
import Lox.Proofs.Ascent.Lexing
import Lox.Proofs.Ascent.Pending
import Lox.Proofs.Ascent.Pieces
import Lox.Proofs.Ascent.Readers
import Lox.Proofs.Ascent.Steps
import Lox.Proofs.Ascent.Text
import Lox.Proofs.Blame.Places
import Lox.Proofs.Blame.Refusals
import Lox.Proofs.Blame.Rules
import Lox.Proofs.Blame.Statements
import Lox.Proofs.Blame.Texts
import Lox.Proofs.Blame.Tracking
import Lox.Proofs.Complaints.Ledger
import Lox.Proofs.Complaints.Rules
import Lox.Proofs.Descent.Acceptance
import Lox.Proofs.Descent.Derivation
import Lox.Proofs.Descent.Language
import Lox.Proofs.Descent.Order
import Lox.Proofs.Descent.Productions
import Lox.Proofs.Descent.Progress
import Lox.Proofs.Descent.Rules
import Lox.Proofs.Emission.Folders
import Lox.Proofs.Emission.Numbers
import Lox.Proofs.Emission.Numerals
import Lox.Proofs.Emission.Performances
import Lox.Proofs.Emission.Settling
import Lox.Proofs.Emission.Strings
import Lox.Proofs.Emission.Texts
import Lox.Proofs.Emission.Trees
import Lox.Proofs.Evaluation
import Lox.Proofs.Footprints.Runs
import Lox.Proofs.Footprints.Uses
import Lox.Proofs.Forests.Chains
import Lox.Proofs.Forests.Stores
import Lox.Proofs.Grammar
import Lox.Proofs.Joining.Phrases
import Lox.Proofs.Joining.Readings
import Lox.Proofs.Joining.Rules
import Lox.Proofs.Joining.Runs
import Lox.Proofs.Joining.Spellings
import Lox.Proofs.Joining.Texts
import Lox.Proofs.Layout.Lines
import Lox.Proofs.Layout.Phrases
import Lox.Proofs.Layout.Programs
import Lox.Proofs.Layout.Rules
import Lox.Proofs.Layout.Runs
import Lox.Proofs.Lexemes
import Lox.Proofs.Loops.Desugaring
import Lox.Proofs.Loops.Widening
import Lox.Proofs.Outcomes
import Lox.Proofs.Outermost
import Lox.Proofs.Prompting
import Lox.Proofs.Recovery.Lockstep
import Lox.Proofs.Recovery.Programs
import Lox.Proofs.Recovery.Rules
import Lox.Proofs.Scanning
import Lox.Proofs.Scoping.Faults
import Lox.Proofs.Scoping.Frames
import Lox.Proofs.Scoping.Keys
import Lox.Proofs.Scoping.Lexical
import Lox.Proofs.Scoping.Programs
import Lox.Proofs.Scoping.Reached
import Lox.Proofs.Scoping.Sites
import Lox.Proofs.Scoping.Undefined
import Lox.Proofs.Segments
import Lox.Proofs.Soundness.Runs
import Lox.Proofs.Soundness.Shapes
import Lox.Proofs.Tandem
import Lox.Proofs.Unambiguous
import Lox.Proofs.Verbosity
import Lox.Reading
import Lox.Scan
import Lox.Scope
import Lox.Session
import Lox.Text
import Lox.Text.Printable
import Lox.Text.Word
import Lox.Token
import Lox.Value
import Lox.Value.Text
