import TypeTrace.Cst.Lexer
import TypeTrace.Env.Builtin
import TypeTrace.Infer.Program
import TypeTrace.Report
import TypeTrace.Syntax.Parser
import TypeTrace.Ty.Canonical

/-!
# Analysis of source texts

A source text is read into a tree, the tree into a program, and the type of the program is
inferred with the names that every program knows.  The first stage that fails decides the error.

## Main definitions

* `Analysis`, `Analysis.ofSource`: the type of a source text and all that leads to it
* `AnalysisError`: why there is none
* `AnalysisError.report`: how that is reported
-/

namespace TypeTrace

/-- The result of analysing a source text. -/
structure Analysis where
  /-- The type of the program. -/
  ty : Ty
  /-- The record of its inference. -/
  trace : Trace
  /-- The roles of the nodes of its tree. -/
  metadata : Metadata

/-- Why a source text has no type. -/
inductive AnalysisError where
  /-- It has no tree. -/
  | lex (error : LexError)
  /-- Its tree is no program; `pos` is the byte position of the node that is reported. -/
  | parse (error : ParseError) (pos : Option Nat)
  /-- The program has no type. -/
  | type (failure : Infer.Failure)

namespace AnalysisError

/-- The code of a cause. -/
def code : AnalysisError → String
  | lex e => e.code
  | parse e _ => e.code
  | type failure => failure.error.code

/-- The message of a cause. -/
def message : AnalysisError → String
  | lex e => e.message
  | parse e _ => e.message
  | type failure => failure.error.message

/-- The byte position at which a cause is reported. -/
def pos? : AnalysisError → Option Nat
  | lex e => some e.pos
  | parse _ pos => pos
  | type _ => none

/-- The record of an inference that has failed. -/
def trace? : AnalysisError → Option Trace
  | type failure => some failure.trace
  | _ => none

/-- How a cause is reported for a source text. -/
def report (e : AnalysisError) (src : List Char) : Report :=
  match e.pos? with
  | some pos => .located e.code e.message src pos
  | none => { code := e.code, message := e.message }

end AnalysisError

namespace Analysis

/-- The type with its variables named in the order in which they occur. -/
def display (a : Analysis) : String := a.ty.canonical.render

/-- Analyse a tree. -/
def ofCst (cst : Cst) : Except AnalysisError Analysis :=
  match Language.parseAll cst with
  | .error e => .error (.parse e ((e.loc?.bind cst.span?).map Span.start))
  | .ok (stmt, metadata) =>
    match Infer.program Env.builtin stmt with
    | .error failure => .error (.type failure)
    | .ok (ty, trace) => .ok ⟨ty, trace, metadata⟩

/-- Analyse a source text. -/
def ofSource (a : Alphabet) (src : List Char) : Except AnalysisError Analysis :=
  match Cst.lex a src with
  | .error e => .error (.lex e)
  | .ok cst => ofCst cst

end Analysis
end TypeTrace
