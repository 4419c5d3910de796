import TypeTrace.Syntax.Phrase

/-!
# The grammar of the language

Statements, expressions and patterns as rules on syntax trees.  Blanks matter: operators, `let`,
`if` and arrow functions are read from spaced lists, attributes, indices and calls from smooshed
ones.

## Main definitions

* `Language.kwds`: the reserved words
* `Language.grammar`: the rules
-/

namespace TypeTrace.Language

/-- The words that cannot be names. -/
def kwds : List String :=
  [ "for", "return", "new", "await", "throw", "if", "case", "else", "let", "const", "=", "..", ".",
    "fn", "switch" ]

/-! ## Short forms -/

/-- A matcher for phrases of the language. -/
abbrev Rule := Matcher Phrase

/-- A word with the role of a keyword. -/
def keyword (text : String) : Rule := .kwd text .kwd

/-- A word with the role of punctuation. -/
def punct (text : String) : Rule := .kwd text .punct

/-- A list of one kind. -/
def listOf (kind : ListKind) (inner : Rule) : Rule := .list (.exact kind) inner none

/-- A rule by name. -/
def use (rule : String) : Rule := .ref rule none

/-- A rule by name, whose phrase is a named part. -/
def useAs (name rule : String) : Rule := .ref rule (some name)

/-- The phrases of a rule, as many as there are, as a named part. -/
def manyAs (name rule : String) : Rule := .group name (.star (use rule))

/-! ## Statements -/

/-- `let pat = value`. -/
def letRule : Rule :=
  .tx (.seq [keyword "let", useAs "pat" "pat", punct "=", useAs "value" "expr "]) Build.letBind

/-- `return value`. -/
def returnRule : Rule := .tx (.seq [keyword "return", useAs "value" "expr "]) Build.ret

/-- `for (init; cond; update) body`. -/
def forRule : Rule :=
  .tx (.seq
    [ keyword "for",
      listOf .round (.seq [useAs "init" "stmt", useAs "cond" "expr", useAs "update" "expr"]),
      useAs "body" "block" ]) Build.forLoop

/-- Statements between curly brackets. -/
def blockRule : Rule := .tx (listOf .curly (manyAs "contents" "stmt")) Build.block

/-- Any statement. -/
def stmtRule : Rule :=
  .or
    [ listOf .spaced (.or [use "let", use "return", use "for"]),
      .tx (keyword "return") Build.bareReturn,
      use "block",
      .tx (useAs "expr" "expr") Build.exprStmt ]

/-! ## Expressions -/

/-- An expression that is a single node. -/
def exprRule : Rule :=
  .or
    [ use "expr num", use "expr var", use "expr text", use "expr tuple", use "expr array",
      use "expr!", listOf .spaced (use "expr ") ]

/-- An attribute, an index, or a call. -/
def suffixRule : Rule :=
  .or
    [ .tx (.seq [punct ".", .group "attribute" (.id (some .attr))]) Build.attr,
      .tx (listOf .square (useAs "index" "expr")) Build.index,
      .tx (listOf .round (manyAs "items" "expr")) Build.call ]

/-- An expression with suffixes. -/
def suffixedRule : Rule :=
  .tx (.seq [useAs "base" "expr", .group "suffixes" (.star suffixRule)]) Build.suffixed

/-- `(args) => body`. -/
def lambdaRule : Rule :=
  .tx (.seq
    [ .list (.exact .round) (manyAs "args" "pat") (some .fnArgs),
      punct "=>",
      .group "body" (.or [use "block", use "expr "]) ]) Build.lambda

/-- `switch (target)` and a table of cases. -/
def switchRule : Rule :=
  .tx (.seq
    [ keyword "switch",
      listOf .round (useAs "target" "expr"),
      .group "cases"
        (.table .curly (.tx (.seq [useAs "pat" "pat", useAs "body" "stmt"]) Build.case)) ])
    Build.switch

/-- `if (cond) block`, `else block` and `else if`. -/
def ifRule : Rule :=
  .tx (.seq
    [ keyword "if",
      listOf .round (useAs "cond" "expr"),
      useAs "yes" "block",
      .opt (.seq [keyword "else", .group "no" (.or [use "if", use "block"])]) ]) Build.ifElse

/-- Operands with operators between them. -/
def operationsRule : Rule :=
  .tx (.seq [useAs "first" "expr", .group "rest" (.star (.seq [use "bop", use "expr"]))])
    Build.operations

/-- An expression that takes all nodes of a spaced list. -/
def spacedRule : Rule := .or [lambdaRule, switchRule, use "if", operationsRule]

/-! ## Patterns -/

/-- Any pattern. -/
def patRule : Rule :=
  .or
    [ .tx (keyword "_") Build.anyPat,
      .tx (.group "value" .number) Build.numberPat,
      .tx (.group "value" (.or [keyword "true", keyword "false"])) Build.boolPat,
      .tx (.group "value" (.text .any)) Build.strPat,
      .tx (.group "id" (.id (some .decl))) Build.varPat,
      .tx (listOf .smooshed
        (.seq [.group "name" (.id (some .ref)), listOf .round (manyAs "args" "pat")])) Build.conPat,
      .tx (listOf .round (manyAs "items" "pat")) Build.tuplePat ]

/-! ## All rules -/

/-- The rules of the language. -/
def grammar : Grammar Phrase where
  rules := .ofList
    [ ("stmt", stmtRule),
      ("let", letRule),
      ("return", returnRule),
      ("for", forRule),
      ("block", blockRule),
      ("expr", exprRule),
      ("expr num", .tx (.group "value" .number) Build.number),
      ("expr var", .tx (.group "id" (.id (some .ref))) Build.var),
      ("expr text", .tx (.group "spans" (.text (use "expr"))) Build.str),
      ("expr tuple", .tx (listOf .round (manyAs "items" "expr")) Build.tuple),
      ("expr array", .tx (listOf .square (manyAs "items" "expr")) Build.array),
      ("expr!", listOf .smooshed (use "expr..")),
      ("expr..", suffixedRule),
      ("bop", .or (Operator.words.map (.kwd · .bop))),
      ("expr ", spacedRule),
      ("if", ifRule),
      ("pat", patRule) ]
  kwds

end TypeTrace.Language
