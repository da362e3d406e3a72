import GraphRules.Number.Basic

/-! First-order terms and the clauses built from them. Terms hold no bindings. -/
namespace GraphRules

theorem nodup_eraseDups {α : Type} [BEq α] [LawfulBEq α] (l : List α) : l.eraseDups.Nodup := by
  induction h : l.length using Nat.strongRecOn generalizing l with
  | ind n ih =>
    subst h
    cases l with
    | nil => exact .nil
    | cons a l =>
      rw [List.eraseDups_cons, List.nodup_cons]
      refine ⟨fun hmem => ?_, ih _ (Nat.lt_succ_of_le (List.length_filter_le _ l)) _ rfl⟩
      simpa using (List.mem_filter.mp (List.mem_eraseDups.mp hmem)).2

/-- A logic variable. Scope 0 holds the variables as written; every use of a clause moves its
variables into a scope of their own. -/
structure Var where
  name : String
  scope : Nat := 0
  deriving DecidableEq, Hashable, Inhabited

inductive Term where
  /-- A named constant. -/
  | atom (name : String)
  | number (value : Number)
  | var (v : Var)
  /-- A functor applied to arguments. -/
  | compound (functor : String) (args : List Term)
  deriving Inhabited

structure Signature where
  name : String
  arity : Nat
  deriving DecidableEq, Inhabited

namespace Term

mutual

def decEq : (s t : Term) → Decidable (s = t)
  | .atom a, .atom b =>
    if h : a = b then isTrue (by rw [h]) else isFalse (by simp [h])
  | .number a, .number b =>
    if h : a = b then isTrue (by rw [h]) else isFalse (by simp [h])
  | .var a, .var b =>
    if h : a = b then isTrue (by rw [h]) else isFalse (by simp [h])
  | .compound f xs, .compound g ys =>
    if h : f = g then
      match decEqList xs ys with
      | isTrue hs => isTrue (by rw [h, hs])
      | isFalse hs => isFalse (by simp [hs])
    else isFalse (by simp [h])
  | .atom _, .number _ => isFalse (by simp)
  | .atom _, .var _ => isFalse (by simp)
  | .atom _, .compound _ _ => isFalse (by simp)
  | .number _, .atom _ => isFalse (by simp)
  | .number _, .var _ => isFalse (by simp)
  | .number _, .compound _ _ => isFalse (by simp)
  | .var _, .atom _ => isFalse (by simp)
  | .var _, .number _ => isFalse (by simp)
  | .var _, .compound _ _ => isFalse (by simp)
  | .compound _ _, .atom _ => isFalse (by simp)
  | .compound _ _, .number _ => isFalse (by simp)
  | .compound _ _, .var _ => isFalse (by simp)

def decEqList : (xs ys : List Term) → Decidable (xs = ys)
  | [], [] => isTrue rfl
  | [], _ :: _ => isFalse (by simp)
  | _ :: _, [] => isFalse (by simp)
  | x :: xs, y :: ys =>
    match decEq x y with
    | isTrue h =>
      match decEqList xs ys with
      | isTrue hs => isTrue (by rw [h, hs])
      | isFalse hs => isFalse (by simp [hs])
    | isFalse h => isFalse (by simp [h])

end

instance : DecidableEq Term := decEq

def int (n : Int) : Term := .number (.int n)

def named (name : String) : Term := .var { name }

def isVar : Term → Bool
  | .var _ => true
  | _ => false

def isCallable : Term → Bool
  | .atom _ => true
  | .compound _ _ => true
  | _ => false

def args : Term → List Term
  | .compound _ as => as
  | _ => []

def signature? : Term → Option Signature
  | .atom name => some ⟨name, 0⟩
  | .compound f as => some ⟨f, as.length⟩
  | _ => none

def apply (name : String) : List Term → Term
  | [] => .atom name
  | as => .compound name as

mutual

def size : Term → Nat
  | .compound _ as => 1 + sizes as
  | _ => 1

def sizes : List Term → Nat
  | [] => 0
  | a :: as => a.size + sizes as

end

mutual

def occurrences : Term → List Var
  | .var v => [v]
  | .compound _ as => occurrencesList as
  | _ => []

def occurrencesList : List Term → List Var
  | [] => []
  | a :: as => a.occurrences ++ occurrencesList as

end

def vars (t : Term) : List Var := t.occurrences.eraseDups

mutual

def rename (scope : Nat) : Term → Term
  | .var v => .var { v with scope }
  | .compound f as => .compound f (renameList scope as)
  | t => t

def renameList (scope : Nat) : List Term → List Term
  | [] => []
  | a :: as => a.rename scope :: renameList scope as

end

def conjunction : List Term → Term
  | [] => .atom "true"
  | [g] => g
  | g :: gs => .compound "," [g, conjunction gs]

def disjunction : List Term → Term
  | [] => .atom "fail"
  | [g] => g
  | g :: gs => .compound ";" [g, disjunction gs]

end Term

structure Clause where
  head : Term
  body : List Term := []
  deriving DecidableEq, Inhabited

namespace Clause

def isFact (c : Clause) : Bool := c.body.isEmpty

def signature? (c : Clause) : Option Signature := c.head.signature?

def rename (scope : Nat) (c : Clause) : Clause :=
  ⟨c.head.rename scope, Term.renameList scope c.body⟩

end Clause

end GraphRules
