import TypeTrace.Grammar.Engine
import TypeTrace.Syntax.Grammar

/-!
# Reading programs

Every item at the top of a syntax tree is read as one statement; several of them form a block.

## Main definitions

* `ParseError`: why a tree is no program
* `Language.parse`, `Language.Parsed.result`: read one item, and insist on a statement
* `Language.parseFirst`, `Language.parseAll`: read the first item, and all of them
-/

namespace TypeTrace

/-- Why a syntax tree is no program. -/
inductive ParseError where
  /-- There is nothing to read. -/
  | emptyInput
  /-- An item that no rule accepts. -/
  | noMatch (root : Loc)
  /-- Nodes that no rule accounts for. -/
  | unparsed (locs : List Loc)
  /-- An item that is nested too deep. -/
  | tooDeep (nesting : Nesting)
deriving DecidableEq

namespace ParseError

/-- The node at which a cause is reported. -/
def loc? : ParseError → Option Loc
  | emptyInput => none
  | noMatch root => some root
  | unparsed locs => locs.head?
  | tooDeep nesting => some nesting.loc

/-- The code of a cause. -/
def code : ParseError → String
  | emptyInput => "PAR000"
  | noMatch _ => "PAR001"
  | unparsed _ => "PAR002"
  | tooDeep _ => "PAR003"

/-- The message of a cause. -/
def message : ParseError → String
  | emptyInput => "入力が空です"
  | noMatch root => "ルート " ++ Loc.render root ++ " に一致する規則がありません"
  | unparsed locs =>
    "解析されなかったノードがあります: " ++ ", ".intercalate (locs.map Loc.render)
  | tooDeep nesting =>
    "入れ子が深すぎます: " ++ toString nesting.depth ++ " 段 (上限 " ++ toString nesting.limit ++
      " 段)"

end ParseError

namespace Language

/-- What reading one item gives. -/
structure Parsed where
  /-- The item. -/
  root : Loc
  /-- The statement, if the item is one. -/
  stmt : Option Stmt
  /-- The roles of its nodes. -/
  metadata : Metadata
  /-- The depth of the item, if it is nested too deep. -/
  tooDeep : Option Nesting

/-- Read one item as a statement. -/
def parse (cst : Cst) (root : Loc) : Parsed :=
  let outcome := grammar.parse cst "stmt" root
  ⟨root, outcome.value.bind Phrase.stmt?, outcome.metadata, outcome.tooDeep⟩

namespace Parsed

/-- The nodes that no rule accounts for. -/
def unparsed (p : Parsed) : List Loc :=
  (p.metadata.entries.filter (·.2 == .unparsed)).map Prod.fst

/-- The statement, if all nodes are accounted for. -/
def result (p : Parsed) : Except ParseError (Stmt × Metadata) :=
  match p.tooDeep with
  | some nesting => .error (.tooDeep nesting)
  | none =>
    match p.stmt, p.unparsed with
    | some stmt, [] => .ok (stmt, p.metadata)
    | none, [] => .error (.noMatch p.root)
    | none, [loc] => .error (if loc = p.root then .noMatch p.root else .unparsed [loc])
    | _, locs => .error (.unparsed locs)

end Parsed

/-- Read the first item. -/
def parseFirst (cst : Cst) : Except ParseError (Stmt × Metadata) :=
  match cst.roots with
  | [] => .error .emptyInput
  | root :: _ => (parse cst root).result

/-- Read all of the given items, up to the first that is no statement. -/
def parseRoots (cst : Cst) : List Loc → Except ParseError (List Stmt × Metadata)
  | [] => .ok ([], .empty)
  | root :: roots => do
    let (stmt, metadata) ← (parse cst root).result
    let (stmts, more) ← parseRoots cst roots
    return (stmt :: stmts, metadata.union more)

/-- Read all items.  Several statements form a block. -/
def parseAll (cst : Cst) : Except ParseError (Stmt × Metadata) := do
  match ← parseRoots cst cst.roots with
  | ([], _) => throw .emptyInput
  | ([stmt], metadata) => return (stmt, metadata)
  | (first :: second :: rest, metadata) =>
    let src := first.region.merge ((second :: rest).getLastD second).region
    return (.expr (.block (first :: second :: rest) src) src, metadata)

end Language
end TypeTrace
