import GrammarLab.Grammar.Derivation
import GrammarLab.Main
import GrammarLab.Session
import GrammarLab.Solver.Workbench
import GrammarLab.Symbol.Registry
import GrammarLab.Proofs.Reading
import GrammarLab.Proofs.Expansion
import GrammarLab.Proofs.First
import GrammarLab.Proofs.FirstDerivation
import GrammarLab.Proofs.Follow
import GrammarLab.Proofs.FollowDerivation
import GrammarLab.Proofs.Table
import GrammarLab.Proofs.Entering
import GrammarLab.Proofs.Cells
import GrammarLab.Proofs.Input
import GrammarLab.Proofs.Trace
import GrammarLab.Proofs.Decision
import GrammarLab.Proofs.Detection
import GrammarLab.Proofs.Leftmost
import GrammarLab.Proofs.LeftRecursion
import GrammarLab.Proofs.Session
import GrammarLab.Proofs.Stability
import GrammarLab.Proofs.Rules
import GrammarLab.Proofs.Renumbering
import GrammarLab.Proofs.RenumberedParsing
import GrammarLab.Proofs.LineOrder
import GrammarLab.Proofs.LongestMatch
import GrammarLab.Proofs.Scanning
import GrammarLab.Proofs.Spans
import GrammarLab.Proofs.Positions
import GrammarLab.Proofs.JoinedSources
import GrammarLab.Proofs.Reached
import GrammarLab.Proofs.MaximalMunch
import GrammarLab.Proofs.Literals
import GrammarLab.Proofs.FirstSights
import GrammarLab.Proofs.GrammarOfText
import GrammarLab.Proofs.MalformedLines
import GrammarLab.Proofs.OnePassFirst
import GrammarLab.Proofs.OnePassFollow
import GrammarLab.Proofs.RawText
import GrammarLab.Proofs.MissingStart
import GrammarLab.Proofs.CharacterCodes
import GrammarLab.Proofs.HtmlEscape
import GrammarLab.Proofs.Answers
import GrammarLab.Proofs.NamedTables
import GrammarLab.Proofs.Recognized
import GrammarLab.Proofs.Changes
import GrammarLab.Proofs.Nesting
import GrammarLab.Proofs.Passes
import GrammarLab.Proofs.Offsets
import GrammarLab.Proofs.Rounds
import GrammarLab.Proofs.ScanLoop
