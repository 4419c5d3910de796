import TypeTrace.Analysis
import TypeTrace.Cst.AlphabetFile
import TypeTrace.Infer.Export
import TypeTrace.Infer.Outline
import TypeTrace.Json.Printer

/-!
# The command line

The command takes a source text, from a file or as an argument, and prints its type.  On request it
prints the steps of the inference and the whole trace before it, also when inference fails.  All of
this is a function of the arguments and the contents of files.

## Main definitions

* `Cli.Options`, `Cli.Command`, `Cli.command?`: what the arguments ask for
* `Cli.CliError`: why a command fails
* `Cli.run`: what a command prints
-/

namespace TypeTrace.Cli

/-! ## Arguments -/

/-- What the arguments ask for. -/
structure Options where
  /-- The file with the source text. -/
  file : Option String := none
  /-- The source text. -/
  expr : Option String := none
  /-- Print the trace. -/
  events : Bool := false
  /-- Print the steps. -/
  steps : Bool := false
  /-- The file with the alphabet. -/
  alphabet : Option String := none
deriving DecidableEq, Inhabited

/-- What to do. -/
inductive Command where
  | analyse (options : Options)
  | showVersion
  | showHelp
deriving DecidableEq

/-- An option without a value. -/
inductive Flag where
  | events
  | steps
  /-- Asks for diagnostics, of which there are none. -/
  | verbose
  | version
  | help
deriving DecidableEq

/-- An option with a value. -/
inductive Setting where
  | expr
  | alphabet
deriving DecidableEq

/-- An option by its long name. -/
def long? : String → Option (Flag ⊕ Setting)
  | "events" => some (.inl .events)
  | "steps" => some (.inl .steps)
  | "verbose" => some (.inl .verbose)
  | "version" => some (.inl .version)
  | "help" => some (.inl .help)
  | "expr" => some (.inr .expr)
  | "lex-config" => some (.inr .alphabet)
  | _ => none

/-- An option by its short name. -/
def short? : Char → Option (Flag ⊕ Setting)
  | 'v' => some (.inl .verbose)
  | 'V' => some (.inl .version)
  | 'h' => some (.inl .help)
  | 'e' => some (.inr .expr)
  | _ => none

/-- A part of the command line. -/
inductive Item where
  | flag (flag : Flag)
  | setting (setting : Setting) (value : String)
  | file (path : String)
  /-- What is no option, or an option with a value too many or too few. -/
  | wrong
deriving DecidableEq

/-- The items of an argument `--name` or `--name=value`, and the option that still needs a value. -/
def longItems (cs : List Char) : List Item × Option Setting :=
  let value? := match cs.dropWhile (· ≠ '=') with
    | [] => none
    | _ :: value => some (String.ofList value)
  match long? (String.ofList (cs.takeWhile (· ≠ '='))), value? with
  | some (.inl flag), none => ([.flag flag], none)
  | some (.inr setting), some value => ([.setting setting value], none)
  | some (.inr setting), none => ([], some setting)
  | _, _ => ([.wrong], none)

/-- The items of an argument that joins short names, the last of them perhaps with its value, and
the option that still needs a value. -/
def shortItems : List Char → List Item × Option Setting
  | [] => ([], none)
  | c :: cs =>
    match short? c with
    | none => ([.wrong], none)
    | some (.inl flag) =>
      let (items, pending) := shortItems cs
      (.flag flag :: items, pending)
    | some (.inr setting) =>
      -- What follows the name of a setting is its value.
      match cs with
      | [] => ([], some setting)
      | '=' :: value => ([.setting setting (String.ofList value)], none)
      | value => ([.setting setting (String.ofList value)], none)

/-- The items of an argument, and the option that still needs a value. -/
def argItems (arg : String) : List Item × Option Setting :=
  match arg.toList with
  | '-' :: '-' :: cs => longItems cs
  | '-' :: c :: cs => shortItems (c :: cs)
  | _ => ([.file arg], none)

/-- The argument can be the value of the option before it. -/
def isValue (arg : String) : Bool :=
  match arg.toList with
  | '-' :: _ :: _ => false
  | _ => true

/-- The items of a command line.  After `--` there are only files. -/
def items : List String → List Item
  | [] => []
  | arg :: args =>
    if arg = "--" then args.map .file
    else
      match argItems arg, args with
      | (found, none), args => found ++ items args
      | (found, some setting), value :: args =>
        if isValue value then found ++ .setting setting value :: items args else found ++ [.wrong]
      | (found, some _), [] => found ++ [.wrong]

/-- Set what is not set yet; the name of a file is not empty. -/
def Options.set? (o : Options) : Item → Option Options
  | .flag .events => if o.events then none else some { o with events := true }
  | .flag .steps => if o.steps then none else some { o with steps := true }
  | .flag _ => some o
  | .setting .expr value => if o.expr.isSome then none else some { o with expr := some value }
  | .setting .alphabet path =>
    if o.alphabet.isSome || path.isEmpty then none else some { o with alphabet := some path }
  | .file path => if o.file.isSome || path.isEmpty then none else some { o with file := some path }
  | .wrong => none

/-- What the items ask for in addition to `o`. -/
def commandFrom (o : Options) : List Item → Option Command
  | [] => if o.file.isSome && o.expr.isSome then none else some (.analyse o)
  -- A mistake before a request for information is reported, one after it is not.
  | .flag .version :: _ => some .showVersion
  | .flag .help :: _ => some .showHelp
  | item :: rest => (o.set? item).bind fun o => commandFrom o rest

/-- What the arguments ask for, if they are right. -/
def command? (args : List String) : Option Command := commandFrom {} (items args)

/-! ## Running a command -/

/-- Why a file cannot be read. -/
inductive ReadError where
  | notFound
  | other (reason : String)
deriving DecidableEq

/-- The message of a cause. -/
def ReadError.message : ReadError → String
  | notFound => "No such file or directory (os error 2)"
  | other reason => reason

/-- The contents of files by name. -/
abbrev Files := String → Except ReadError String

/-- Why a command fails. -/
inductive CliError where
  | unreadable (path : String) (error : ReadError)
  | badAlphabet
  | noSource
  | analysis (report : Report)
deriving DecidableEq

/-- The message of a cause. -/
def CliError.message : CliError → String
  | unreadable path error => path ++ " を読めません: " ++ error.message
  | badAlphabet => "字句解析設定が不正です: "
  | noSource => "入力ファイルか -e で式を指定してください"
  | analysis report => report.render

/-- What a command prints, and how it ends. -/
structure Output where
  /-- The exit code. -/
  exit : Nat
  /-- The text on standard output. -/
  stdout : String := ""
  /-- The text on standard error. -/
  stderr : String := ""
deriving DecidableEq, Inhabited

/-- The content of a file. -/
def readFile (files : Files) (path : String) : Except CliError String :=
  (files path).mapError (.unreadable path)

/-- The alphabet that is asked for. -/
def alphabet (files : Files) (o : Options) : Except CliError Alphabet :=
  match o.alphabet with
  | none => .ok .js
  | some path => do
    match Alphabet.ofText? (← readFile files path) with
    | none => throw .badAlphabet
    | some a => return a

/-- The source text that is asked for. -/
def source (files : Files) (o : Options) : Except CliError String :=
  match o.expr, o.file with
  | some expr, _ => .ok expr
  | none, some path => readFile files path
  | none, none => .error .noSource

/-- The lines for a trace that are asked for. -/
def traceLines (o : Options) (t : Trace) : List String :=
  (if o.steps then t.outline else []) ++ (if o.events then [t.toJson.pretty] else [])

/-- Lines as text. -/
def ofLines (lines : List String) : String := String.join (lines.map (· ++ "\n"))

/-- The output of a command that fails after some lines. -/
def failing (lines : List String) (e : CliError) : Output :=
  { exit := 1, stdout := ofLines lines, stderr := ofLines [e.message] }

/-- What is to be analysed.  The alphabet is read before the source text. -/
def input (files : Files) (o : Options) : Except CliError (Alphabet × String) := do
  return (← alphabet files o, ← source files o)

/-- Analyse the source text that is asked for. -/
def analyse (files : Files) (o : Options) : Output :=
  match input files o with
  | .error e => failing [] e
  | .ok (a, src) =>
    match Analysis.ofSource a src.toList with
    | .ok analysis =>
      { exit := 0, stdout := ofLines (traceLines o analysis.trace ++ [analysis.display]) }
    | .error e =>
      failing ((e.trace?.map (traceLines o)).getD []) (.analysis (e.report src.toList))

/-- The name and the version of the command. -/
def versionText : String := "algw-trace 0.1.0"

/-- What the command is good for, and what arguments it takes. -/
def helpLines : List String :=
  [ "Algorithm W type inference with an event trace",
    "",
    "Usage: algw-trace [OPTIONS] [FILE]",
    "",
    "Arguments:",
    "  [FILE]  入力ファイル（`-e` と排他）",
    "",
    "Options:",
    "  -e, --expr <EXPR>              式を直接与える",
    "      --events                   トレース全体を JSON で出力する",
    "      --steps                    説明スタックとステップ数を表示する",
    "      --lex-config <LEX_CONFIG>  字句解析設定（JSON ファイル）",
    "  -v, --verbose...               ログ出力（-v: debug, -vv: trace）",
    "  -h, --help                     Print help",
    "  -V, --version                  Print version" ]

/-- What the command prints for the given arguments and files. -/
def run (files : Files) (args : List String) : Output :=
  match command? args with
  | none => { exit := 2 }
  | some .showVersion => { exit := 0, stdout := ofLines [versionText] }
  | some .showHelp => { exit := 0, stdout := ofLines helpLines }
  | some (.analyse o) => analyse files o

/-- The files that a command may read. -/
def paths (args : List String) : List String :=
  match command? args with
  | some (.analyse o) => o.alphabet.toList ++ o.file.toList
  | _ => []

end TypeTrace.Cli
