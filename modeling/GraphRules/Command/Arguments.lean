import GraphRules.Number.Reading
import GraphRules.Report.Format

/-! Arguments of the command line. A verb says what is to be done; options stand before or after it,
their values in the next argument or in the same one. -/
namespace GraphRules

namespace Arguments

inductive Verb where
  | check | compile | run | predicates
  deriving DecidableEq, Inhabited

namespace Verb

def all : List Verb := [.check, .compile, .run, .predicates]

def name : Verb → String
  | .check => "check"
  | .compile => "compile"
  | .run => "run"
  | .predicates => "predicates"

def ofName? (s : String) : Option Verb := all.find? fun v => v.name = s

def takesScript (v : Verb) : Bool := v ≠ .predicates

end Verb

inductive Switch where
  | config | verbose | noColor | help | version | format | output | graph | query | goal | limit
  deriving DecidableEq, Inhabited

namespace Switch

def everywhere : List Switch := [.config, .verbose, .noColor, .help]

def beforeVerb : List Switch := .version :: everywhere

def ofVerb : Verb → List Switch
  | .check => everywhere
  | .compile => everywhere ++ [.format, .output]
  | .run => everywhere ++ [.graph, .query, .goal, .limit, .format]
  | .predicates => everywhere

def long : Switch → String
  | .config => "config"
  | .verbose => "verbose"
  | .noColor => "no-color"
  | .help => "help"
  | .version => "version"
  | .format => "format"
  | .output => "output"
  | .graph => "graph"
  | .query => "query"
  | .goal => "goal"
  | .limit => "limit"

def short? : Switch → Option Char
  | .verbose => some 'v'
  | .help => some 'h'
  | .version => some 'V'
  | .format => some 'f'
  | .output => some 'o'
  | .graph => some 'g'
  | .query => some 'q'
  | .limit => some 'l'
  | _ => none

def takesValue (s : Switch) : Bool := s ∉ [.verbose, .noColor, .help, .version]

def repeats (s : Switch) : Bool := s = .query

end Switch

def limit? (s : String) : Option Nat :=
  let ds := match s.toList with
    | '+' :: ds => ds
    | ds => ds
  if ds.isEmpty || !ds.all Char.isDigit then none
  else (some (digitsValue ds)).filter (· < 1 <<< 64)

def format? (s : String) : Option Format := [Format.text, .json, .yaml].find? fun f => f.name = s

def Switch.accepts (s : Switch) (value : String) : Bool :=
  match s with
  | .format => (format? value).isSome
  | .limit => (limit? value).isSome
  | .query => true
  | .goal => true
  | _ => !value.isEmpty

inductive Refusal where
  /-- The arguments make no sense. -/
  | usage
  /-- They ask for help only. -/
  | help
  /-- They ask for the version only. -/
  | version
  deriving DecidableEq, Inhabited

structure Given where
  options : List (Switch × String) := []
  script? : Option String := none
  deriving Inhabited

namespace Given

def has (g : Given) (s : Switch) : Bool := g.options.any fun o => o.1 = s

def value? (g : Given) (s : Switch) : Option String :=
  (g.options.find? fun o => o.1 = s).map Prod.snd

def values (g : Given) (s : Switch) : List String :=
  (g.options.filter fun o => o.1 = s).map Prod.snd

def add (g : Given) (s : Switch) (value : String) : Except Refusal Given :=
  if s = .help then .error .help
  else if s = .version then .error .version
  else if g.has s && !s.repeats then .error .usage
  else if s.takesValue && !s.accepts value then .error .usage
  else .ok { g with options := g.options ++ [(s, value)] }

end Given

def nextValue : List String → Except Refusal (String × List String)
  | [] => .error .usage
  | v :: rest =>
    match v.toList with
    | '-' :: _ :: _ => .error .usage
    | _ => .ok (v, rest)

def readLong (switches : List Switch) (g : Given) (cs : List Char) (rest : List String) :
    Except Refusal (Given × List String) := do
  let name := String.ofList (cs.takeWhile (· ≠ '='))
  let attached? := match cs.dropWhile (· ≠ '=') with
    | [] => none
    | _ :: v => some (String.ofList v)
  match switches.find? fun s => s.long = name with
  | none => throw .usage
  | some s =>
    if s.takesValue then
      match attached? with
      | some v => pure (← g.add s v, rest)
      | none =>
        let (v, rest) ← nextValue rest
        pure (← g.add s v, rest)
    else if attached?.isSome then throw .usage
    else pure (← g.add s "", rest)

/-- Options by their letters. The value of the last one may follow it directly or after an equals
sign. -/
def readShort (switches : List Switch) :
    Given → List Char → List String → Except Refusal (Given × List String)
  | g, [], rest => .ok (g, rest)
  | g, c :: cs, rest =>
    match switches.find? fun s => s.short? = some c with
    | none => .error .usage
    | some s =>
      if s.takesValue then
        match cs with
        | [] => do
          let (v, rest) ← nextValue rest
          pure (← g.add s v, rest)
        | '=' :: v => do pure (← g.add s (String.ofList v), rest)
        | v => do pure (← g.add s (String.ofList v), rest)
      else do
        let g ← g.add s ""
        readShort switches g cs rest

def readOption (switches : List Switch) (g : Given) (arg : List Char) (rest : List String) :
    Except Refusal (Given × List String) :=
  match arg with
  | '-' :: '-' :: cs => readLong switches g cs rest
  | _ :: cs => readShort switches g cs rest
  | [] => .error .usage

def isOption : List Char → Bool
  | '-' :: _ :: _ => true
  | _ => false

def addScript (v : Verb) (g : Given) (path : String) : Except Refusal Given :=
  if !v.takesScript || g.script?.isSome || path.isEmpty then .error .usage
  else .ok { g with script? := some path }

def readAfterVerb (v : Verb) : Nat → Bool → Given → List String → Except Refusal Given
  | 0, _, _, _ => .error .usage
  | _, _, g, [] => .ok g
  | fuel + 1, plain, g, a :: rest =>
    if !plain && a = "--" then readAfterVerb v fuel true g rest
    else if !plain && isOption a.toList then do
      let (g, rest) ← readOption (Switch.ofVerb v) g a.toList rest
      readAfterVerb v fuel plain g rest
    else do
      let g ← addScript v g a
      readAfterVerb v fuel plain g rest

def readHelp : List String → Refusal
  | [] => .help
  | [a] => if (Verb.ofName? a).isSome || a = "help" then .help else .usage
  | _ => .usage

def readBeforeVerb : Nat → Given → List String → Except Refusal (Given × Verb × List String)
  | 0, _, _ => .error .usage
  | _, _, [] => .error .usage
  | fuel + 1, g, a :: rest =>
    if a = "--" then .error .usage
    else if isOption a.toList then do
      let (g, rest) ← readOption Switch.beforeVerb g a.toList rest
      readBeforeVerb fuel g rest
    else if a = "help" then .error (readHelp rest)
    else
      match Verb.ofName? a with
      | some v => .ok (g, v, rest)
      | none => .error .usage

end Arguments

inductive Task where
  | check (script : String)
  | compile (script : String) (format : Format) (output? : Option String)
  | run (script graph : String) (queries : List String) (goal? : Option String)
      (limit? : Option Nat)
      (format : Format)
  | predicates
  deriving DecidableEq, Inhabited

structure Invocation where
  task : Task
  config? : Option String := none
  noColor : Bool := false
  deriving DecidableEq, Inhabited

namespace Arguments

def formatOf (g : Given) : Format := ((g.value? .format).bind format?).getD .text

/-- The task of a verb with its options. A goal and queries exclude each other. -/
def taskOf (v : Verb) (g : Given) : Except Refusal Task :=
  match v, g.script? with
  | .predicates, _ => .ok .predicates
  | .check, some script => .ok (.check script)
  | .compile, some script => .ok (.compile script (formatOf g) (g.value? .output))
  | .run, some script =>
    match g.value? .graph with
    | none => .error .usage
    | some graph =>
      if g.has .goal && g.has .query then .error .usage
      else
        .ok (.run script graph ((g.values .query).flatMap fun q => q.splitOn ",") (g.value? .goal)
          ((g.value? .limit).bind limit?) (formatOf g))
  | _, none => .error .usage

/-- What the arguments ask for. Of two settings files, the one named after the verb counts. -/
def parse (args : List String) : Except Refusal Invocation := do
  let (before, v, rest) ← readBeforeVerb (args.length + 1) {} args
  let after ← readAfterVerb v (rest.length + 1) false {} rest
  let task ← taskOf v after
  pure
    { task
      config? := after.value? .config <|> before.value? .config
      noColor := after.has .noColor || before.has .noColor }

end Arguments

end GraphRules
