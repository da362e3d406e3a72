import GraphRules.Library.Basic
import GraphRules.Term.Bindings

/-! Depth-first search for the answers of a goal. A run holds the goals still to be proved, the
bindings made so far and the choices left open. Clauses of a predicate are tried in their order,
facts of the library before those of the database, and each clause tried is copied into the next
scope. Bindings are kept in one place: a choice has the mark to which they are taken back. The
nesting of clauses is limited; foreign predicates and comparisons do not count as nesting. -/
namespace GraphRules

structure Limits where
  /-- The deepest nesting of clauses. -/
  depth : Nat := 512
  /-- The most answers to a goal. -/
  solutions? : Option Nat := none
  deriving DecidableEq, Inhabited

structure Engine where
  library : Library
  database : Theory := {}
  /-- How many clauses were put into the database. -/
  clauseCount : Nat := 0
  limits : Limits := {}
  deriving Inhabited

namespace Engine

/-- Adds clauses to the database. Those whose head is no goal are left out and do not count. -/
def load (e : Engine) (cs : List Clause) : Engine :=
  { e with
    database := e.database.insertAll cs
    clauseCount := e.clauseCount + cs.countP fun c => c.signature?.isSome }

def clear (e : Engine) : Engine := { e with database := .empty, clauseCount := 0 }

def rebind (e : Engine) (g : Graph) : Graph × Engine :=
  let (previous, library) := e.library.rebind g
  (previous, { e with library })

def setGraph (e : Engine) (g : Graph) : Engine := (e.rebind g).2

def clausesOf (e : Engine) (s : Signature) : List Clause :=
  e.library.theory.clausesOf s ++ e.database.clausesOf s

end Engine

namespace Search

structure Goal where
  term : Term
  depth : Nat
  deriving DecidableEq, Inhabited

/-- A choice left open, with the mark of the bindings to go back to. -/
inductive Choice where
  /-- Goals to be proved instead. -/
  | goals (mark : Nat) (goals : List Goal)
  /-- Clauses still to be tried for a call, and the goals after it. -/
  | clauses (mark : Nat) (call : Term) (depth : Nat) (clauses : List Clause) (rest : List Goal)

/-- The scope of the copy of a clause, by how many were tried. Scopes are words of 32 bits, and are
given out again when none is left. -/
def scopeOf (tries : Nat) : Nat := tries % UInt32.size

structure Run where
  bindings : Bindings := .empty
  goals : List Goal
  choices : List Choice := []
  /-- How many clauses were tried. -/
  tries : Nat := 0
  /-- Whether a branch was cut because clauses were nested too deep. -/
  cut : Bool := false

def Run.scope (r : Run) : Nat := scopeOf r.tries

def tryClauses (call : Term) (depth : Nat) (rest : List Goal) : List Clause → Run → Bool × Run
  | [], r => (false, r)
  | c :: cs, r =>
    let mark := r.bindings.mark
    let r := { r with tries := r.tries + 1 }
    let c := c.rename r.scope
    match r.bindings.unify call c.head with
    | (false, bindings) => tryClauses call depth rest cs { r with bindings }
    | (true, bindings) =>
      let choices := match cs with
        | [] => r.choices
        | cs => .clauses mark call depth cs rest :: r.choices
      (true, { r with
        bindings
        goals := c.body.map (⟨·, depth + 1⟩) ++ rest
        choices })

def backtrackFrom : List Choice → Run → Bool × Run
  | [], r => (false, { r with choices := [] })
  | .goals mark goals :: choices, r =>
    (true, { r with bindings := r.bindings.undoTo mark, goals, choices })
  | .clauses mark call depth cs rest :: choices, r =>
    match tryClauses call depth rest cs { r with bindings := r.bindings.undoTo mark, choices } with
    | (true, r) => (true, r)
    | (false, r) => backtrackFrom choices r

def backtrack (r : Run) : Bool × Run := backtrackFrom r.choices r

def equate : Bindings → List (Term × Term) → Bool × Bindings
  | b, [] => (true, b)
  | b, (s, t) :: rest =>
    match b.unify s t with
    | (true, b) => equate b rest
    | (false, b) => (false, b)

/-- Whether a comparison holds. Numbers are compared by value, and all else only for equality. A
number that is no number differs from everything. -/
def compares (op : String) (s t : Term) : Bool :=
  match s, t with
  | .number a, .number b =>
    match a.compare? b with
    | none => op = "!="
    | some o =>
      match op with
      | "==" => o.isEq
      | "!=" => o.isNe
      | "<" => o.isLT
      | "<=" => o.isLE
      | ">" => o.isGT
      | ">=" => o.isGE
      | _ => false
  | s, t =>
    match op with
    | "==" => s = t
    | "!=" => s ≠ t
    | _ => false

inductive Task where
  | done
  | failing
  | both (a b : Term)
  | either (a b : Term)
  | negation (a : Term)
  | comparison (op : String) (a b : Term)
  | call (s : Signature)

/-- The task of a goal. Variables and numbers cannot be called. -/
def task : Term → Task
  | .atom name =>
    if name = "true" then .done
    else if name = "fail" ∨ name = "false" then .failing
    else .call ⟨name, 0⟩
  | .compound "," [a, b] => .both a b
  | .compound ";" [a, b] => .either a b
  | .compound "not" [a] => .negation a
  | .compound f args =>
    match args with
    | [a, b] => if f ∈ comparisonNames then .comparison f a b else .call ⟨f, 2⟩
    | args => .call ⟨f, args.length⟩
  | .var _ => .failing
  | .number _ => .failing

/-- What a step leads to: on to the goals of a run, back to a choice, or nowhere. -/
inductive Step where
  | onward (r : Run)
  | back (r : Run)
  | interrupted (r : Run)

def Step.ofResult : Bool × Run → Step
  | (true, r) => .onward r
  | (false, r) => .back r

def Step.onlyIf (b : Bool) (rest : List Goal) (r : Run) : Step :=
  if b then .onward { r with goals := rest } else .back r

/-- Calls a predicate: a foreign one is asked, any other is tried with its clauses. -/
def call (e : Engine) (goal : Term) (s : Signature) (depth : Nat) (rest : List Goal) (r : Run) :
    Step :=
  if e.library.isForeign s then
    match e.library.call s (goal.args.map r.bindings.resolve) with
    | none => .back r
    | some equations =>
      match equate r.bindings equations with
      | (true, bindings) => .onward { r with bindings, goals := rest }
      | (false, bindings) => .back { r with bindings := bindings.undoTo r.bindings.mark }
  else if e.limits.depth ≤ depth then .back { r with cut := true }
  else .ofResult (tryClauses goal depth rest (e.clausesOf s) r)

inductive Verdict where
  /-- An answer was found. -/
  | found
  /-- There are no more answers. -/
  | exhausted
  /-- The steps allowed were used up. -/
  | interrupted
  deriving DecidableEq, Inhabited

def inner (r : Run) (goal : Term) (depth : Nat) : Run :=
  { bindings := r.bindings, goals := [⟨goal, depth⟩], tries := r.tries }

/-- What is left of a run for a goal by itself: how many clauses were tried and whether a branch was
cut. -/
def afterInner (r i : Run) : Run := { r with tries := i.tries, cut := r.cut || i.cut }

/-- Goes on if a goal by itself has no answer. No answer is asked for when none are allowed. -/
def negate (e : Engine) (prove : Run → Verdict × Run) (goal : Term) (depth : Nat) (rest : List Goal)
    (r : Run) : Step :=
  if e.limits.solutions? = some 0 then .onward { r with goals := rest }
  else
    match prove (inner r goal depth) with
    | (.found, i) => .back (afterInner r i)
    | (.exhausted, i) => .onward { afterInner r i with goals := rest }
    | (.interrupted, i) => .interrupted (afterInner r i)

def step (e : Engine) (prove : Run → Verdict × Run) (g : Goal) (rest : List Goal) (r : Run) :
    Step :=
  let goal := r.bindings.walk g.term
  match task goal with
  | .done => .onward { r with goals := rest }
  | .failing => .back r
  | .both a b => .onward { r with goals := ⟨a, g.depth⟩ :: ⟨b, g.depth⟩ :: rest }
  | .either a b =>
    .onward { r with
      goals := ⟨a, g.depth⟩ :: rest
      choices := .goals r.bindings.mark (⟨b, g.depth⟩ :: rest) :: r.choices }
  | .negation a => negate e prove a g.depth rest r
  | .comparison op a b =>
    .onlyIf (compares op (r.bindings.resolve a) (r.bindings.resolve b)) rest r
  | .call s => call e goal s g.depth rest r

/-- Searches on until an answer is found or no choice is left. A negated goal is searched for in a
run of its own that stops at its first answer. -/
def search (e : Engine) : Nat → Run → Verdict × Run
  | 0, r => (.interrupted, r)
  | fuel + 1, r =>
    match r.goals with
    | [] => (.found, r)
    | g :: rest =>
      match step e (search e fuel) g rest r with
      | .onward r => search e fuel r
      | .back r =>
        match backtrack r with
        | (true, r) => search e fuel r
        | (false, r) => (.exhausted, r)
      | .interrupted r => (.interrupted, r)

end Search

end GraphRules
