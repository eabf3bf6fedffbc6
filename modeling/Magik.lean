import Magik.Analysis
import Magik.CommandLine.Run
import Magik.Definitions.BuiltIn
import Magik.Definitions.Load
import Magik.Main
import Magik.Proofs.Definitions.Ancestry
import Magik.Proofs.Grammar.LineStarts
import Magik.Proofs.Grammar.Nesting
import Magik.Proofs.Grammar.Precedence
import Magik.Proofs.Grammar.Reports
import Magik.Proofs.Grammar.Traversal
import Magik.Proofs.Grammar.WellFormed
import Magik.Proofs.Narrowing.Negation
import Magik.Proofs.Reasoning.Appending
import Magik.Proofs.Reasoning.Calls
import Magik.Proofs.Reasoning.Coverage
import Magik.Proofs.Reasoning.Delivery
import Magik.Proofs.Reasoning.Distribution
import Magik.Proofs.Reasoning.Exemplars
import Magik.Proofs.Reasoning.Receivers
import Magik.Proofs.Reasoning.Rejoining
import Magik.Proofs.Reasoning.Retention
import Magik.Proofs.Report.Carets
import Magik.Proofs.Scope.Imports
import Magik.Proofs.Server.Hovering
import Magik.Proofs.Token.Division
import Magik.Proofs.Token.Literals
import Magik.Proofs.Types.Splitting
import Magik.Proofs.Types.Substitution
import Magik.Server.Message
import Magik.Server.Wire
import Magik.SourceText
