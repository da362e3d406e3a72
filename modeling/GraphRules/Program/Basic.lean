import GraphRules.Check.Basic
import GraphRules.Library.Standard
import GraphRules.Program.Lowering
import GraphRules.Script.Parse
import GraphRules.Text.Digest

/-! Compiled scripts. Compilation reads, checks and lowers a script, and stops at the first stage
that finds an error. -/
namespace GraphRules

namespace Program

def announced? (c : Clause) : Option (String × Nat) :=
  match c with
  | ⟨.compound "query" [.atom name, .number (.int (.ofNat n))], []⟩ => some (name, n)
  | _ => none

def queries (p : Program) : List (String × Nat) := p.clauses.filterMap announced?

def queryGoal? (p : Program) (name : String) : Option Term := do
  let (_, arity) ← p.queries.find? fun q => q.1 = name
  let c ← p.clauses.find? fun c => c.signature? = some ⟨name, arity⟩
  pure c.head

def text (p : Program) : String := String.join (p.clauses.map fun c => c.text ++ "\n")

def fingerprint (p : Program) : String := Digest.hash p.text.toUTF8.toList

end Program

inductive CompileError where
  | reading (diagnostics : List Diagnostic)
  | checking (diagnostics : List Diagnostic)
  deriving Inhabited

namespace CompileError

def diagnostics : CompileError → List Diagnostic
  | .reading ds => ds
  | .checking ds => ds

def message (e : CompileError) : String :=
  let n := toString (Diagnostic.errors e.diagnostics).length
  match e with
  | .reading _ => "syntax errors: " ++ n
  | .checking _ => "check failed with " ++ n ++ " error(s)"

end CompileError

structure Compiler where
  vocabulary : Vocabulary
  /-- More alternatives than this in one statement give a warning. -/
  expansionThreshold : Nat := 16
  deriving Inhabited

namespace Compiler

def reservedNames : List Signature :=
  [⟨"query", 2⟩, ⟨"not", 1⟩, ⟨"true", 0⟩, ⟨"fail", 0⟩, ⟨"false", 0⟩]

def ofVocabulary (v : Vocabulary) (expansionThreshold : Nat) : Compiler :=
  ⟨reservedNames.foldl (fun v s => v.insert s .reserved) v, expansionThreshold⟩

def standard (expansionThreshold : Nat) : Compiler :=
  .ofVocabulary Standard.declarations.vocabulary expansionThreshold

def compile (c : Compiler) (source : String) : Except CompileError Program :=
  match Script.parse source with
  | .error ds => .error (.reading ds)
  | .ok script =>
    let result := script.check c.vocabulary
    if result.isOk then
      let program := script.lower c.expansionThreshold
      .ok { program with warnings := result.warnings ++ program.warnings }
    else .error (.checking (result.errors ++ result.warnings))

end Compiler

end GraphRules
