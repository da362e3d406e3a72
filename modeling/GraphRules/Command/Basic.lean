import GraphRules.Command.Arguments
import GraphRules.Command.Plan
import GraphRules.Report.Lines
import GraphRules.Settings

/-! The command line: checking, compiling and running scripts. -/
namespace GraphRules

structure Failure where
  message : String
  causes : List String := []
  deriving DecidableEq, Inhabited

namespace Failure

def indented (first further : String) (s : String) : String :=
  first ++ ("\n" ++ further).intercalate (s.splitOn "\n")

def causeLines : List String → List String
  | [c] => [indented "    " "    " c]
  | cs => cs.zipIdx.map fun (c, i) => indented ("    " ++ toString i ++ ": ") "       " c

def text (f : Failure) : String :=
  let causes :=
    if f.causes.isEmpty then ""
    else "\n\nCaused by:\n" ++ "\n".intercalate (causeLines f.causes)
  "Error: " ++ f.message ++ causes ++ "\n"

end Failure

abbrev Doing := ExceptT Failure Plan

namespace Doing

def warn (lines : List String) : Doing Unit := ExceptT.lift (Plan.warnLines lines)

def print (lines : List String) : Doing Unit := ExceptT.lift (Plan.printLines lines)

def read (what path : String) : Doing String :=
  ExceptT.mk (.read path fun r => .done (r.mapError fun e => ⟨what ++ path, [e.message]⟩))

def emit (text : String) : Option String → Doing Unit
  | none => ExceptT.lift (.print text (.done ()))
  | some path => do
    ExceptT.mk (.write path text fun
      | none => .done (.ok ())
      | some e => .done (.error ⟨"writing " ++ path, [e.message]⟩))
    warn ["Output saved to: " ++ path]

end Doing

def Json.Fault.message : Json.Fault → String
  | .truncated => "the text ends too early"
  | .malformed => "the text is no JSON"
  | .mismatch => "the value is not of the expected shape"

def Yaml.Fault.message : Yaml.Fault → String
  | .unreadable => "the text is no YAML of the expected shape"

def DocumentError.causes (what : String) : DocumentError → List String
  | .json f => ["parsing " ++ what ++ " json", f.message]
  | .yaml f => ["parsing " ++ what ++ " yaml", f.message]

namespace Command

def loadSettings : Option String → Doing Settings
  | none => pure {}
  | some path => do
    let text ← Doing.read "reading config " path
    match Settings.ofText (Settings.formatOfPath path) text with
    | .ok s => pure s
    | .error e =>
      match e.causes "config" with
      | m :: causes => throw ⟨m, causes⟩
      | [] => throw ⟨path, []⟩

def compileScript (color : Bool) (threshold : Nat) (path : String) : Doing Program := do
  let source ← Doing.read "reading " path
  match (Compiler.standard threshold).compile source with
  | .ok p =>
    Doing.warn (Report.diagnosticLines color path p.warnings)
    pure p
  | .error e =>
    Doing.warn (Report.diagnosticLines color path e.diagnostics)
    throw ⟨path ++ ": " ++ e.message, []⟩

def loadGraph (path : String) : Doing Graph := do
  let text ← Doing.read "reading graph " path
  match Graph.ofText (DocumentFormat.ofGraphPath path) text with
  | .ok g => pure g
  | .error (.graph e) => throw ⟨"loading graph " ++ path, [e.message]⟩
  | .error (.document e) => throw ⟨"loading graph " ++ path, e.causes "graph"⟩

/-- The goals to be answered, each with its name: a goal of its own, the queries named, or all
queries. -/
def goals (color : Bool) (p : Program) (queries : List String) :
    Option String → Doing (List (String × Term))
  | some text =>
    match Script.parseGoal text with
    | .ok f => pure [(text, Lowering.lowerGoal f)]
    | .error ds => do
      Doing.warn (Report.diagnosticLines color "goal" ds)
      throw ⟨"invalid goal \x60" ++ text ++ "\x60", []⟩
  | none =>
    let names := if queries.isEmpty then p.queries.map Prod.fst else queries
    names.mapM fun name =>
      match p.queryGoal? name with
      | some g => pure (name, g)
      | none => throw ⟨"script has no query named \x60" ++ name ++ "\x60", []⟩

def answer (e : Engine) (g : String × Term) : QueryAnswers :=
  let (solutions, truncated) := e.solveAll g.2
  ⟨g.1, solutions, truncated⟩

def rendered : Except Yaml.WriteError String → Doing String
  | .ok s => pure s
  | .error e => throw ⟨e.message, []⟩

/-- The format of an output file: its extension counts if no other format than text was asked for.
-/
def outputFormat (f : Format) (output? : Option String) : Format :=
  match f, output?.bind Path.extension? with
  | .text, some e => (Format.ofName? e).getD .text
  | f, _ => f

def perform (color : Bool) (s : Settings) : Task → Doing Unit
  | .check script => do
    let p ← compileScript color s.expansionThreshold script
    Doing.print [script ++ ": ok (" ++ toString p.clauses.length ++ " clauses, " ++
      toString p.warnings.length ++ " warnings)"]
  | .compile script format output? => do
    let p ← compileScript color s.expansionThreshold script
    let text ← rendered ((outputFormat format output?).renderProgram p)
    Doing.emit text output?
  | .run script graph queries goal? limit? format => do
    let p ← compileScript color s.expansionThreshold script
    let g ← loadGraph graph
    let limits := { s.limits with solutions? := limit? <|> s.limits.solutions? }
    let engine : Engine := { library := .ofGraph Standard.declarations g, limits }
    let engine := engine.load p.clauses
    let answers := (← goals color p queries goal?).map (answer engine)
    match format with
    | .text => Doing.print (answers.flatMap (Report.answerLines color))
    | f =>
      let text ← rendered (f.renderAnswers answers)
      Doing.emit text none
  | .predicates =>
    Doing.print (Report.predicateLines color (Library.ofGraph Standard.declarations {}).predicates)

def invoke (color : Bool) (i : Invocation) : Doing Unit := do
  let s ← loadSettings i.config?
  perform (color && !i.noColor && s.color) s i.task

def version : String := "vislog 0.3.0"

def usage : List String :=
  ["Usage: vislog [OPTIONS] <COMMAND>", "", "Commands:",
    "  check <SCRIPT>", "  compile [-f <FORMAT>] [-o <OUTPUT>] <SCRIPT>",
    "  run -g <GRAPH> [-q <QUERY>] [--goal <GOAL>] [-l <LIMIT>] [-f <FORMAT>] <SCRIPT>",
    "  predicates", "", "Options:", "  --config <FILE>", "  -v, --verbose",
    "  --no-color", "  -h, --help",
    "  -V, --version"]

/-- The whole command. Gives the exit code: 1 for a failure, and 2 for arguments that make no sense.
-/
def plan (color : Bool) (args : List String) : Plan Nat :=
  match Arguments.parse args with
  | .error .version => do
    Plan.printLines [version]
    pure 0
  | .error .help => do
    Plan.printLines usage
    pure 0
  | .error .usage => do
    Plan.warnLines usage
    pure 2
  | .ok i => do
    match ← (invoke color i).run with
    | .ok () => pure 0
    | .error f => .warn f.text (.done 1)

end Command

end GraphRules
