import TypeTrace.Analysis
import TypeTrace.Cli
import TypeTrace.Cst.Alphabet
import TypeTrace.Cst.AlphabetFile
import TypeTrace.Cst.Basic
import TypeTrace.Cst.Draft
import TypeTrace.Cst.Error
import TypeTrace.Cst.Lexer
import TypeTrace.Cst.Region
import TypeTrace.Dict
import TypeTrace.Env
import TypeTrace.Env.Builtin
import TypeTrace.Grammar.Basic
import TypeTrace.Grammar.Engine
import TypeTrace.Grammar.Printer
import TypeTrace.Infer.Context
import TypeTrace.Infer.Event
import TypeTrace.Infer.Export
import TypeTrace.Infer.Outline
import TypeTrace.Infer.Pattern
import TypeTrace.Infer.Program
import TypeTrace.Json.Basic
import TypeTrace.Json.Printer
import TypeTrace.Json.Reader
import TypeTrace.Main
import TypeTrace.Name
import TypeTrace.Proofs.Accounting
import TypeTrace.Proofs.Assignment
import TypeTrace.Proofs.Computation
import TypeTrace.Proofs.Cutting
import TypeTrace.Proofs.Drafting
import TypeTrace.Proofs.Execution
import TypeTrace.Proofs.Instance
import TypeTrace.Proofs.Layout
import TypeTrace.Proofs.Liveness
import TypeTrace.Proofs.Nesting
import TypeTrace.Proofs.OrderedChoice
import TypeTrace.Proofs.Places
import TypeTrace.Proofs.Principality
import TypeTrace.Proofs.Reading
import TypeTrace.Proofs.Rollback
import TypeTrace.Proofs.Rules
import TypeTrace.Proofs.Session
import TypeTrace.Proofs.Shape
import TypeTrace.Proofs.Soundness
import TypeTrace.Proofs.Store
import TypeTrace.Proofs.Supply
import TypeTrace.Proofs.SyntaxTree
import TypeTrace.Proofs.Typing
import TypeTrace.Proofs.Unification
import TypeTrace.Report
import TypeTrace.Syntax.Basic
import TypeTrace.Syntax.Grammar
import TypeTrace.Syntax.Operator
import TypeTrace.Syntax.Parser
import TypeTrace.Syntax.Phrase
import TypeTrace.Syntax.Printer
import TypeTrace.Syntax.Suffix
import TypeTrace.Text.Lines
import TypeTrace.Text.Printable
import TypeTrace.Text.Quoted
import TypeTrace.Text.Slice
import TypeTrace.Ty.Basic
import TypeTrace.Ty.Canonical
import TypeTrace.Ty.Error
import TypeTrace.Ty.Printer
import TypeTrace.Ty.Scheme
import TypeTrace.Ty.Subst
import TypeTrace.Ty.Unify
import TypeTrace.Proofs.Bracketing
import TypeTrace.Proofs.Declaration
import TypeTrace.Proofs.Explanation
import TypeTrace.Proofs.Ranking
import TypeTrace.Proofs.Termination
import TypeTrace.Proofs.Visits
import TypeTrace.Proofs.Height
import TypeTrace.Proofs.Bare
import TypeTrace.Proofs.Phrases
import TypeTrace.Proofs.Mirroring
import TypeTrace.Proofs.Relayout
import TypeTrace.Proofs.Braces
import TypeTrace.Proofs.Reentry
import TypeTrace.Proofs.Demand
import TypeTrace.Proofs.Recursion
import TypeTrace.Proofs.Kinds
import TypeTrace.Proofs.UnificationLog
import TypeTrace.Proofs.Precedence
import TypeTrace.Proofs.Delimiters
import TypeTrace.Proofs.Contracts
import TypeTrace.Proofs.Forms
import TypeTrace.Proofs.Builders
import TypeTrace.Proofs.Regions
import TypeTrace.Proofs.Renaming
import TypeTrace.Proofs.Leftovers
import TypeTrace.Proofs.Lines
import TypeTrace.Proofs.SyntaxErrors
import TypeTrace.Proofs.Constructs
import TypeTrace.Proofs.Names
import TypeTrace.Proofs.Numerals
import TypeTrace.Proofs.Readability
import TypeTrace.Proofs.Generalization
import TypeTrace.Proofs.Weakening
import TypeTrace.Proofs.Literals
import TypeTrace.Proofs.Composition
import TypeTrace.Proofs.Suffixes
import TypeTrace.Proofs.History
import TypeTrace.Proofs.Capture
import TypeTrace.Proofs.Numeration
import TypeTrace.Proofs.Positions
import TypeTrace.Proofs.Homonyms
