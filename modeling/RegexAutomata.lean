import RegexAutomata.Automaton.Drawing
import RegexAutomata.Automaton.Merge
import RegexAutomata.Automaton.Request
import RegexAutomata.Automaton.Validity
import RegexAutomata.CommandLine.Programs
import RegexAutomata.Dot.Printer
import RegexAutomata.Elimination
import RegexAutomata.Main
import RegexAutomata.Pairing
import RegexAutomata.Regex.Drawing
import RegexAutomata.Regex.Normal
import RegexAutomata.Regex.Simplify
import RegexAutomata.Thompson
import RegexAutomata.Proofs.Brackets
import RegexAutomata.Proofs.Characters
import RegexAutomata.Proofs.Grammar
import RegexAutomata.Proofs.Root
import RegexAutomata.Proofs.Parsing
import RegexAutomata.Proofs.Printing
import RegexAutomata.Proofs.Simplification
import RegexAutomata.Proofs.Language
import RegexAutomata.Proofs.Rewriting
import RegexAutomata.Proofs.Walks
import RegexAutomata.Proofs.Labels
import RegexAutomata.Proofs.Reachable
import RegexAutomata.Proofs.Elimination
import RegexAutomata.Proofs.Joining
import RegexAutomata.Proofs.Validity
import RegexAutomata.Proofs.Fragments
import RegexAutomata.Proofs.Histories
import RegexAutomata.Proofs.Thompson
import RegexAutomata.Proofs.Assertions
import RegexAutomata.Proofs.Conversion
import RegexAutomata.Proofs.Normal
import RegexAutomata.Proofs.Emptiness
import RegexAutomata.Proofs.Ways
import RegexAutomata.Proofs.Resolution
import RegexAutomata.Proofs.Repetition
import RegexAutomata.Proofs.Limits
import RegexAutomata.Proofs.Translation
import RegexAutomata.Proofs.Counting
import RegexAutomata.Proofs.Shortening
import RegexAutomata.Proofs.Bypassing
import RegexAutomata.Proofs.TwoStates
import RegexAutomata.Proofs.FinalForm
import RegexAutomata.Proofs.Refusals
import RegexAutomata.Proofs.Faults
import RegexAutomata.Proofs.Offences
import RegexAutomata.Proofs.Decomposition
import RegexAutomata.Proofs.Merging
import RegexAutomata.Proofs.Changes
import RegexAutomata.Proofs.Quoting
import RegexAutomata.Proofs.Graphs
import RegexAutomata.Proofs.Statements
import RegexAutomata.Proofs.StateDiagrams
import RegexAutomata.Proofs.Places
import RegexAutomata.Proofs.SyntaxTrees
import RegexAutomata.Proofs.Directions
import RegexAutomata.Proofs.Signs
import RegexAutomata.Proofs.Programs
import RegexAutomata.Proofs.Rebinding
import RegexAutomata.Proofs.Traversals
import RegexAutomata.Proofs.Partners
import RegexAutomata.Proofs.Scans
