import GraphRules.Term.Basic
import Std.Data.ExtTreeMap

/-! Bindings of variables to terms, kept in the order in which they were made. A mark is a number of
bindings, and undoing to a mark forgets all later ones. Unification does not look for a variable
inside the term it is bound to. -/
namespace GraphRules

def Var.order : Var → Var → Ordering := compareLex (compareOn Var.scope) (compareOn Var.name)

instance : Std.TransCmp Var.order := inferInstanceAs (Std.TransCmp (compareLex _ _))

instance : Std.LawfulEqCmp Var.order where
  eq_of_compare {a b} h := by
    obtain ⟨h₁, h₂⟩ := compareLex_eq_eq.mp h
    cases a
    cases b
    simp_all [compareOn]

/-- The bindings, newest first, with an index of them. -/
structure Bindings where
  trail : List (Var × Term)
  index : Std.ExtTreeMap Var Term Var.order
  /-- The sizes of the bound terms taken together. -/
  weight : Nat
  index_eq : ∀ v, index[v]? = trail.lookup v
  unique : (trail.map Prod.fst).Nodup
  weight_eq : weight = Term.sizes (trail.map Prod.snd)

namespace Bindings

def empty : Bindings where
  trail := []
  index := ∅
  weight := 0
  index_eq := by simp
  unique := by simp
  weight_eq := by simp [Term.sizes]

instance : Inhabited Bindings := ⟨empty⟩

def find? (b : Bindings) (v : Var) : Option Term := b.index[v]?

theorem find?_eq_lookup (b : Bindings) (v : Var) : b.find? v = b.trail.lookup v := b.index_eq v

/-- The trail says all there is to say. -/
@[ext]
theorem ext {a b : Bindings} (h : a.trail = b.trail) : a = b := by
  have hi : a.index = b.index :=
    Std.ExtTreeMap.ext_getElem? fun v => by rw [a.index_eq, b.index_eq, h]
  have hw : a.weight = b.weight := by rw [a.weight_eq, b.weight_eq, h]
  cases a
  cases b
  simp_all

theorem lookup_eq_none_iff (l : List (Var × Term)) (v : Var) :
    l.lookup v = none ↔ v ∉ l.map Prod.fst := by
  induction l with
  | nil => simp
  | cons p l ih =>
    obtain ⟨w, t⟩ := p
    rw [List.lookup_cons]
    by_cases h : v = w
    · simp [h]
    · have hb : (v == w) = false := by simpa using h
      simp only [hb, ih, List.map_cons, List.mem_cons, h, false_or]

/-- Binds a variable that has no binding; a bound one keeps its own. -/
def bind (b : Bindings) (v : Var) (t : Term) : Bindings :=
  if h : b.find? v = none then
    { trail := (v, t) :: b.trail
      index := b.index.insert v t
      weight := b.weight + t.size
      index_eq := fun w => by
        rw [Std.ExtTreeMap.getElem?_insert, List.lookup_cons, b.index_eq]
        by_cases hw : v = w
        · simp [hw]
        · have hw' : (w == v) = false := by simpa using fun e => hw e.symm
          simp [hw, hw']
      unique := by
        rw [find?_eq_lookup, lookup_eq_none_iff] at h
        simpa using ⟨by simpa using h, b.unique⟩
      weight_eq := by simp [b.weight_eq, Term.sizes, Nat.add_comm] }
  else b

def pop (b : Bindings) : Bindings :=
  match h : b.trail with
  | [] => b
  | (v, t) :: rest =>
    { trail := rest
      index := b.index.erase v
      weight := b.weight - t.size
      index_eq := fun w => by
        have hu := b.unique
        rw [h] at hu
        simp only [List.map_cons, List.nodup_cons] at hu
        rw [Std.ExtTreeMap.getElem?_erase, b.index_eq, h, List.lookup_cons]
        by_cases hw : v = w
        · subst hw
          simpa using ((lookup_eq_none_iff rest v).mpr hu.1).symm
        · have hw' : (w == v) = false := by simpa using fun e => hw e.symm
          simp [hw, hw']
      unique := by
        have hu := b.unique
        rw [h] at hu
        exact (List.nodup_cons.mp hu).2
      weight_eq := by
        have hw := b.weight_eq
        rw [h] at hw
        simp only [List.map_cons, Term.sizes] at hw
        omega }

def mark (b : Bindings) : Nat := b.trail.length

def undoTo (b : Bindings) (m : Nat) : Bindings := (b.mark - m).repeat pop b

def walkSteps (b : Bindings) : Nat → Term → Term
  | n + 1, .var v =>
    match b.find? v with
    | some t => b.walkSteps n t
    | none => .var v
  | _, t => t

/-- A walk passes through each binding at most once, so it takes no more steps than the weight. -/
def walk (b : Bindings) (t : Term) : Term := b.walkSteps b.weight t

def resolveDepth (b : Bindings) : Nat → Term → Term
  | 0, t => t
  | n + 1, t =>
    match b.walk t with
    | .compound f as => .compound f (as.map (b.resolveDepth n))
    | t => t

/-- The term with all its bound variables replaced. Without a cycle among the bindings, no path in
the result is longer than the sizes of the term and of the bound terms together. -/
def resolve (b : Bindings) (t : Term) : Term := b.resolveDepth (b.weight + t.size) t

def unifyEach (step : Bindings → Term → Term → Bool × Bindings) :
    Bindings → List Term → List Term → Bool × Bindings
  | b, s :: ss, t :: ts =>
    match step b s t with
    | (true, b) => unifyEach step b ss ts
    | (false, b) => (false, b)
  | b, _, _ => (true, b)

/-- Makes two terms equal. A variable on the left is bound before one on the right. What was bound
before a failure stays bound. -/
def unifyInner : Nat → Bindings → Term → Term → Bool × Bindings
  | 0, b, _, _ => (false, b)
  | n + 1, b, s, t =>
    let s := b.walk s
    let t := b.walk t
    if s = t then (true, b)
    else
      match s, t with
      | .var v, t => (true, b.bind v t)
      | s, .var v => (true, b.bind v s)
      | .compound f ss, .compound g ts =>
        if f = g ∧ ss.length = ts.length then unifyEach (unifyInner n) b ss ts else (false, b)
      | _, _ => (false, b)

def unify (b : Bindings) (s t : Term) : Bool × Bindings :=
  match unifyInner (b.weight + s.size + t.size) b s t with
  | (true, c) => (true, c)
  | (false, c) => (false, c.undoTo b.mark)

end Bindings

end GraphRules
