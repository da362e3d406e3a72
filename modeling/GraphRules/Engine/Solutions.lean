import GraphRules.Engine.Search
import GraphRules.Term.Text

/-! The answers to a goal, one after the other. -/
namespace GraphRules

/-- An answer: terms for the variables of the goal, in the order of their names. -/
structure Solution where
  bindings : List (String × Term)
  deriving DecidableEq, Inhabited

namespace Solution

def find? (s : Solution) (name : String) : Option Term := s.bindings.lookup name

def text (s : Solution) : String :=
  match s.bindings with
  | [] => "true"
  | bs => ", ".intercalate (bs.map fun (name, t) => name ++ " = " ++ t.text)

def insert (name : String) (t : Term) : List (String × Term) → List (String × Term)
  | [] => [(name, t)]
  | (n, u) :: rest =>
    if n = name then (name, t) :: rest
    else if name < n then (name, t) :: (n, u) :: rest
    else (n, u) :: insert name t rest

def ofVariables (vs : List Var) (b : Bindings) : Solution :=
  ⟨vs.foldl (fun bs v => insert v.name (b.resolve (.var v)) bs) []⟩

end Solution

inductive Stage where
  | fresh | yielded | done
  deriving DecidableEq, Inhabited

structure Solutions where
  run : Search.Run
  vars : List Var
  stage : Stage := .fresh
  emitted : Nat := 0

namespace Solutions

/-- The answers to a goal. Variables with a leading underscore are not shown. -/
def ofGoal (goal : Term) : Solutions :=
  { run := { goals := [⟨goal, 0⟩] }
    vars := goal.vars.filter fun v => !(v.name.toList.head? = some '_') }

def depthExceeded (s : Solutions) : Bool := s.run.cut

def advance (e : Engine) (budget : Nat) (s : Solutions) : Option Solution × Solutions :=
  let limited : Bool := match e.limits.solutions? with
    | some n => n ≤ s.emitted
    | none => false
  if limited then (none, { s with stage := .done })
  else
    match Search.search e budget s.run with
    | (.found, run) =>
      (some (.ofVariables s.vars run.bindings),
        { s with run, stage := .yielded, emitted := s.emitted + 1 })
    | (_, run) => (none, { s with run, stage := .done })

/-- The next answer, with the sequence after it. The search may take `budget` steps. -/
def next (e : Engine) (budget : Nat) (s : Solutions) : Option Solution × Solutions :=
  match s.stage with
  | .done => (none, s)
  | .fresh => advance e budget s
  | .yielded =>
    match Search.backtrack s.run with
    | (true, run) => advance e budget { s with run }
    | (false, run) => (none, { s with run, stage := .done })

def take (e : Engine) (budget : Nat) : Nat → Solutions → List Solution × Solutions
  | 0, s => ([], s)
  | n + 1, s =>
    match next e budget s with
    | (none, s) => ([], s)
    | (some a, s) =>
      let (as, s) := take e budget n s
      (a :: as, s)

end Solutions

namespace Engine

/-- The steps that are allowed when nothing else is said: more than can be made. -/
def budget : Nat := 1 <<< 62

def solveAll (e : Engine) (goal : Term) : List Solution × Bool :=
  let (as, s) := Solutions.take e budget budget (.ofGoal goal)
  (as, s.depthExceeded)

def holds (e : Engine) (goal : Term) : Bool :=
  (Solutions.next e budget (.ofGoal goal)).1.isSome

end Engine

end GraphRules
