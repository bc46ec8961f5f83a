import Predictive.Reachable
import Predictive.Service
import Predictive.Session
import Predictive.Settings
import Predictive.Web
import Predictive.Proofs.Derivation
import Predictive.Proofs.First
import Predictive.Proofs.Flow
import Predictive.Proofs.Follow
import Predictive.Proofs.PassLimit
import Predictive.Proofs.Validation
import Predictive.Proofs.Productive
import Predictive.Proofs.Table
import Predictive.Proofs.Ambiguities
import Predictive.Proofs.Leftmost
import Predictive.Proofs.Conflict
import Predictive.Proofs.Analysable
import Predictive.Proofs.Reordering
import Predictive.Proofs.Lookahead
import Predictive.Proofs.Moves
import Predictive.Proofs.Growth
import Predictive.Proofs.Feed
import Predictive.Proofs.Similar
import Predictive.Proofs.Safety
import Predictive.Proofs.Order
import Predictive.Proofs.Record
import Predictive.Proofs.Trace
import Predictive.Proofs.Simulation
import Predictive.Proofs.Prefix
import Predictive.Proofs.Language
import Predictive.Proofs.EagerEnd
import Predictive.Proofs.LeftRecursion
import Predictive.Proofs.Lenient
import Predictive.Proofs.Web
import Predictive.Proofs.Requests
import Predictive.Proofs.Routes
import Predictive.Proofs.Warnings
import Predictive.Proofs.Isolation
import Predictive.Proofs.LeadingSymbols
import Predictive.Proofs.Shape
import Predictive.Proofs.ParseTree
import Predictive.Proofs.DepthLimit
import Predictive.Proofs.PassHistory
import Predictive.Proofs.AmbiguityReport
import Predictive.Proofs.RuleText
import Predictive.Proofs.RuleLines
import Predictive.Proofs.Reprint
import Predictive.Proofs.Spacing
import Predictive.Proofs.Layout
import Predictive.Proofs.References
import Predictive.Proofs.TableReport
import Predictive.Proofs.CsvReading
import Predictive.Proofs.Reachable
import Predictive.Proofs.Lexemes
import Predictive.Proofs.Recording
import Predictive.Proofs.SettingText
import Predictive.Proofs.DecimalDigits
import Predictive.Proofs.Environment
