import GraphRules.Term.Basic

/-! Theories: clauses grouped by the predicate they define. Clauses of one predicate keep their
order. -/
namespace GraphRules

structure Theory where
  groups : List (Signature × List Clause) := []
  deriving Inhabited

namespace Theory

def empty : Theory := {}

def clausesOf (t : Theory) (s : Signature) : List Clause := (t.groups.lookup s).getD []

def insertGroup (s : Signature) (c : Clause) :
    List (Signature × List Clause) → List (Signature × List Clause)
  | [] => [(s, [c])]
  | (r, cs) :: rest => if r = s then (r, cs ++ [c]) :: rest else (r, cs) :: insertGroup s c rest

/-- Adds a clause after the others of its predicate. A clause whose head is no goal is left out. -/
def insert (t : Theory) (c : Clause) : Theory :=
  match c.signature? with
  | some s => ⟨insertGroup s c t.groups⟩
  | none => t

def insertAll (t : Theory) (cs : List Clause) : Theory := cs.foldl insert t

def size (t : Theory) : Nat := t.groups.foldl (fun n g => n + g.2.length) 0

theorem lookup_insertGroup (s r : Signature) (c : Clause) (gs : List (Signature × List Clause)) :
    (insertGroup s c gs).lookup r =
      if r = s then some ((gs.lookup s).getD [] ++ [c]) else gs.lookup r := by
  induction gs with
  | nil =>
    by_cases h : r = s
    · simp [insertGroup, h]
    · have hb : (r == s) = false := by simpa using h
      simp [insertGroup, List.lookup_cons, hb, h]
  | cons g gs ih =>
    obtain ⟨q, cs⟩ := g
    by_cases hq : q = s
    · subst hq
      by_cases h : r = q
      · simp [insertGroup, h]
      · have hb : (r == q) = false := by simpa using h
        simp [insertGroup, List.lookup_cons, hb, h]
    · have hs : (s == q) = false := by simpa using fun e => hq e.symm
      by_cases h : r = q
      · have hr : ¬ r = s := by rw [h]; exact hq
        simp [insertGroup, hq, h]
      · have hb : (r == q) = false := by simpa using h
        simp only [insertGroup, hq, if_false, List.lookup_cons, hb, hs, ih]

/-- A clause joins its own predicate and no other. -/
theorem clausesOf_insert (t : Theory) (c : Clause) (s : Signature) :
    (t.insert c).clausesOf s =
      if c.signature? = some s then t.clausesOf s ++ [c] else t.clausesOf s := by
  unfold insert
  cases h : c.signature? with
  | none => simp
  | some r =>
    by_cases hs : s = r
    · subst hs
      simp [clausesOf, lookup_insertGroup]
    · have hr : ¬ r = s := fun e => hs e.symm
      simp [clausesOf, lookup_insertGroup, hs, hr]

end Theory

end GraphRules
