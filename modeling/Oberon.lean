import Oberon.Check.Checker
import Oberon.Check.Node
import Oberon.CommandLine.Session
import Oberon.Constant.Evaluator
import Oberon.Main
import Oberon.Proofs.Check.Agreement
import Oberon.Proofs.Check.BlockAgreement
import Oberon.Proofs.Check.CheckedConstants
import Oberon.Proofs.Check.ConstantKeys
import Oberon.Proofs.Check.Context
import Oberon.Proofs.Check.ExportMarks
import Oberon.Proofs.Check.Following
import Oberon.Proofs.Check.ForwardPointers
import Oberon.Proofs.Check.Inspections
import Oberon.Proofs.Check.Isolation
import Oberon.Proofs.Check.ModuleAgreement
import Oberon.Proofs.Check.NameErrors
import Oberon.Proofs.Check.NameProblems
import Oberon.Proofs.Check.NameReports
import Oberon.Proofs.Check.Names
import Oberon.Proofs.Check.Points
import Oberon.Proofs.Check.Restoration
import Oberon.Proofs.Check.Rules
import Oberon.Proofs.Check.StaticRules
import Oberon.Proofs.Check.TypeAgreement
import Oberon.Proofs.Check.UnknownConstants
import Oberon.Proofs.Check.Visits
import Oberon.Proofs.Constant.Frames
import Oberon.Proofs.Constant.Hiding
import Oberon.Proofs.Constant.Integers
import Oberon.Proofs.Constant.Lexical
import Oberon.Proofs.Constant.Meaning
import Oberon.Proofs.Constant.Typing
import Oberon.Proofs.Decimal.Packing
import Oberon.Proofs.Decimal.ReadBack
import Oberon.Proofs.Decimal.Rounding
import Oberon.Proofs.Grammar.Acceptance
import Oberon.Proofs.Grammar.ErrorPlace
import Oberon.Proofs.Grammar.Printability
import Oberon.Proofs.Grammar.Retention
import Oberon.Proofs.Grammar.ViablePrefix
import Oberon.Proofs.RoundTrip
import Oberon.Proofs.Scopes
import Oberon.Proofs.Symbol.History
import Oberon.Proofs.Syntax.Alike
import Oberon.Proofs.Syntax.Calls
import Oberon.Proofs.Syntax.Census
import Oberon.Proofs.Syntax.ConstantNodes
import Oberon.Proofs.Syntax.Content
import Oberon.Proofs.Syntax.IdentDefs
import Oberon.Proofs.Syntax.Lookahead
import Oberon.Proofs.Syntax.Printable
import Oberon.Proofs.Syntax.SourceText
import Oberon.Proofs.Syntax.Tokens
import Oberon.Proofs.Syntax.Written
import Oberon.Proofs.Token.Faults
import Oberon.Proofs.Token.Idle
import Oberon.Proofs.Token.Layout
import Oberon.Proofs.Token.Places
import Oberon.Proofs.Token.PositionalValue
import Oberon.Proofs.Token.Segmentation
import Oberon.Proofs.Token.Spelling
import Oberon.Source
import Oberon.Syntax.Counter
import Oberon.Syntax.Equality
import Oberon.Syntax.Listing
import Oberon.Syntax.Outline
import Oberon.Syntax.Parser
import Oberon.Syntax.Printer
import Oberon.Syntax.Reader
import Oberon.Token.Scanner
