import GraphRules.Term.Bindings
import GraphRules.Term.Text
import GraphRules.Text.Quoted
import GraphRules.Text.Span
import GraphRules.Script.Alternatives
import GraphRules.Script.Text
import GraphRules.Diagnostic
import GraphRules.Script.Reader
import GraphRules.Script.Parse
import GraphRules.Data
import GraphRules.Json.Decode
import GraphRules.Json.Writer
import GraphRules.Graph.Measure
import GraphRules.Graph.Load
import GraphRules.Library.Standard
import GraphRules.Check.Basic
import GraphRules.Program.Lowering
import GraphRules.Program.Basic
import GraphRules.Engine.Solutions
import GraphRules.Report.Structure
import GraphRules.Report.Format
import GraphRules.Report.Lines
import GraphRules.Yaml.Node
import GraphRules.Settings
import GraphRules.Main
import GraphRules.Proofs.AnswerSequence
import GraphRules.Proofs.Acceptance
import GraphRules.Proofs.Alternatives
import GraphRules.Proofs.Branches
import GraphRules.Proofs.ClosedWorld
import GraphRules.Proofs.LeastModel
import GraphRules.Proofs.Conditions
import GraphRules.Proofs.WildcardNames
import GraphRules.Proofs.GoalReferences
import GraphRules.Proofs.Reachable
import GraphRules.Proofs.GroundCalls
import GraphRules.Proofs.RangeRestriction
import GraphRules.Proofs.Operations
import GraphRules.Proofs.FiniteSearch
import GraphRules.Proofs.AnswerBags
import GraphRules.Proofs.LoweredCopies
import GraphRules.Proofs.VariantAnswers
import GraphRules.Proofs.NamedQueries
import GraphRules.Proofs.Rebinding
import GraphRules.Proofs.Lockstep
import GraphRules.Proofs.CallGraph
import GraphRules.Proofs.Scopes
import GraphRules.Proofs.Concatenation
import GraphRules.Proofs.Recovery
import GraphRules.Proofs.Coverage
import GraphRules.Proofs.CanonicalItems
import GraphRules.Proofs.QuotedStrings
import GraphRules.Proofs.TellingItems
import GraphRules.Proofs.RepeatedStatements
import GraphRules.Proofs.DeclaredQueries
import GraphRules.Proofs.DeclaredNames
import GraphRules.Proofs.PathSafety
import GraphRules.Proofs.ExpansionSize
import GraphRules.Proofs.Components
import GraphRules.Proofs.DegreeSums
import GraphRules.Proofs.DocumentLoading
import GraphRules.Proofs.ForeignGoals
import GraphRules.Proofs.NumericOrder
import GraphRules.Proofs.LabelAnswers
import GraphRules.Proofs.ProgramTexts
import GraphRules.Proofs.QueryGoals
import GraphRules.Proofs.SpanTiling
import GraphRules.Proofs.VariableChains
import GraphRules.Proofs.AnswerLimits
import GraphRules.Proofs.DeeperAnswers
