import GraphRules.Engine.Solutions
import Mathlib.Data.List.DropRight

/-! Engines that are loaded, cleared and bound to other graphs, in any order and any number of
times. What an engine answers depends on the graph bound last and on the clauses loaded since it was
cleared, and on nothing before that. -/
namespace GraphRules

namespace Theory

/-- Clauses by signature, in the order in which the signatures come up. A clause whose head is no
goal is in no group. -/
def grouped (cs : List Clause) : List (Signature × List Clause) :=
  (cs.filterMap Clause.signature?).eraseDups.map fun s =>
    (s, cs.filter fun c => c.signature? = some s)

theorem insertGroup_map (s : Signature) (c : Clause) (f : Signature → List Clause)
    {ks : List Signature} (hk : ks.Nodup) :
    insertGroup s c (ks.map fun k => (k, f k)) =
      if s ∈ ks then ks.map fun k => (k, if k = s then f k ++ [c] else f k)
      else ks.map (fun k => (k, f k)) ++ [(s, [c])] := by
  induction ks with
  | nil => rfl
  | cons k ks ih =>
    obtain ⟨hk, hks⟩ := List.nodup_cons.mp hk
    by_cases h : k = s
    · subst h
      have hmap : (ks.map fun x => (x, if x = k then f x ++ [c] else f x)) = ks.map fun x =>
        (x, f x) := by
        refine List.map_congr_left fun x hx => ?_
        have hne : ¬ x = k := fun e => hk (e ▸ hx)
        rw [if_neg hne]
      simp [insertGroup, hmap]
    · have hs : ¬ s = k := fun e => h e.symm
      simp only [List.map_cons, insertGroup, if_neg h, ih hks, List.mem_cons, hs, false_or]
      by_cases hm : s ∈ ks <;> simp [hm]

theorem eraseDups_concat (l : List Signature) (s : Signature) :
    (l ++ [s]).eraseDups = if s ∈ l then l.eraseDups else l.eraseDups ++ [s] := by
  rw [List.eraseDups_append]
  by_cases h : s ∈ l
  · simp [List.removeAll, h]
  · have hnew : [s].removeAll l = [s] := by simp [List.removeAll, h]
    rw [hnew, if_neg h]
    rfl

theorem grouped_concat (cs : List Clause) (c : Clause) :
    grouped (cs ++ [c]) = (insert ⟨grouped cs⟩ c).groups := by
  unfold insert
  cases h : c.signature? with
  | none => simp [grouped, h]
  | some s =>
    have hfilter : ∀ k, (cs ++ [c]).filter (fun c => c.signature? = some k) =
        if k = s then (cs.filter fun c => c.signature? = some k) ++ [c] else cs.filter fun c =>
          c.signature? = some k := by
      intro k
      by_cases hk : k = s
      · simp [h, hk]
      · have hs : ¬ s = k := fun e => hk e.symm
        simp [h, hk, hs]
    have hkeys : (cs ++ [c]).filterMap Clause.signature? =
        cs.filterMap Clause.signature? ++ [s] := by simp [h]
    dsimp only [grouped]
    rw [insertGroup_map s c _ (nodup_eraseDups _), hkeys, eraseDups_concat]
    simp only [hfilter, List.mem_eraseDups]
    by_cases hm : s ∈ cs.filterMap Clause.signature?
    · rw [if_pos hm, if_pos hm]
    · -- the signature is new, and no clause had it before
      have hnone : (cs.filter fun c => c.signature? = some s) = [] := by
        refine List.filter_eq_nil_iff.mpr fun d hd hs => hm ?_
        exact List.mem_filterMap.mpr ⟨d, hd, of_decide_eq_true hs⟩
      rw [if_neg hm, if_neg hm, List.map_append, List.map_singleton, if_pos rfl, hnone]
      congr 1
      refine List.map_congr_left fun k hk => ?_
      have hne : ¬ k = s := fun e => hm (e ▸ List.mem_eraseDups.mp hk)
      rw [if_neg hne]

theorem groups_insertAll (cs : List Clause) : (empty.insertAll cs).groups = grouped cs := by
  induction cs using List.reverseRecOn with
  | nil => rfl
  | append_singleton cs c ih =>
    rw [insertAll, List.foldl_append, ← insertAll, grouped_concat, ← ih]; rfl

theorem foldl_length (gs : List (Signature × List Clause)) (n : Nat) :
    gs.foldl (fun n g => n + g.2.length) n = n + size ⟨gs⟩ := by
  induction gs generalizing n with
  | nil => rfl
  | cons g gs ih =>
    rw [size, List.foldl_cons, List.foldl_cons, ih, ih]
    omega

theorem size_cons (g : Signature × List Clause) (gs : List (Signature × List Clause)) :
    size ⟨g :: gs⟩ = g.2.length + size ⟨gs⟩ := by
  rw [size, List.foldl_cons, foldl_length, Nat.zero_add]

theorem size_insert (t : Theory) (c : Clause) :
    (t.insert c).size = t.size + if c.signature?.isSome then 1 else 0 := by
  obtain ⟨gs⟩ := t
  unfold insert
  cases h : c.signature? with
  | none => rfl
  | some s =>
    simp only [Option.isSome_some, if_true]
    induction gs with
    | nil => rfl
    | cons g gs ih =>
      obtain ⟨r, cs⟩ := g
      by_cases hr : r = s
      · simp only [insertGroup, if_pos hr, size_cons, List.length_append, List.length_singleton]
        omega
      · simp only [insertGroup, if_neg hr, size_cons, ih]
        omega

theorem size_insertAll (t : Theory) (cs : List Clause) :
    (t.insertAll cs).size = t.size + cs.countP fun c => c.signature?.isSome := by
  induction cs generalizing t with
  | nil => rfl
  | cons c cs ih =>
    rw [insertAll, List.foldl_cons, ← insertAll, ih, size_insert, List.countP_cons]
    omega

end Theory

inductive Operation where
  | load (clauses : List Clause)
  | clear
  | bind (graph : Graph)

namespace Operation

def isClear : Operation → Bool
  | .clear => true
  | _ => false

def clauses : Operation → List Clause
  | .load cs => cs
  | _ => []

def graph? : Operation → Option Graph
  | .bind g => some g
  | _ => none

def loaded (ops : List Operation) : List Clause :=
  (ops.rtakeWhile fun o => !o.isClear).flatMap clauses

def lastGraph (g : Graph) (ops : List Operation) : Graph := (ops.filterMap graph?).getLast?.getD g

end Operation

namespace Engine

open Operation

def fresh (d : Declarations) (g : Graph) (limits : Limits) :
    Engine := { library := .ofGraph d g, limits }

def perform (e : Engine) : Operation → Engine
  | .load cs => e.load cs
  | .clear => e.clear
  | .bind g => e.setGraph g

def performAll (e : Engine) (ops : List Operation) : Engine := ops.foldl perform e

theorem load_append (e : Engine) (cs ds : List Clause) :
    e.load (cs ++ ds) = (e.load cs).load ds := by
  simp [load, Theory.insertAll, List.countP_append, Nat.add_assoc]

/-- An engine is what it would be if the clauses loaded last were all that was ever loaded, and the
graph bound last all that was ever bound. -/
theorem performAll_fresh (d : Declarations) (limits : Limits) (g : Graph) (ops : List Operation) :
    (fresh d g limits).performAll ops = (fresh d (lastGraph g ops) limits).load (loaded ops) := by
  induction ops using List.reverseRecOn with
  | nil => rfl
  | append_singleton ops op ih =>
    have hlast : (fresh d g limits).performAll (ops ++ [op]) =
        ((fresh d g limits).performAll ops).perform op := by
      simp [performAll]
    rw [hlast, ih]
    cases op with
    | load cs =>
      have hloaded : loaded (ops ++ [.load cs]) = loaded ops ++ cs := by
        simp [loaded, isClear, clauses]
      have hgraph : lastGraph g (ops ++ [.load cs]) = lastGraph g ops := by simp [lastGraph, graph?]
      rw [hloaded, hgraph, load_append]
      rfl
    | clear =>
      have hloaded : loaded (ops ++ [.clear]) = [] := by simp [loaded, isClear]
      have hgraph : lastGraph g (ops ++ [.clear]) = lastGraph g ops := by simp [lastGraph, graph?]
      rw [hloaded, hgraph]
      rfl
    | bind g' =>
      have hloaded : loaded (ops ++ [.bind g']) = loaded ops := by
        simp [loaded, isClear, clauses]
      have hgraph : lastGraph g (ops ++ [.bind g']) = g' := by simp [lastGraph, graph?]
      rw [hloaded, hgraph]
      rfl

/-- Answers to all goals are those of an engine made for the graph bound last, with the clauses
loaded since the database was cleared. Every binding gives back the graph bound before, the facts
are those of the bound graph by signature, and the count of clauses is right. -/
theorem performed_as_fresh (d : Declarations) (limits : Limits) (g : Graph) (ops : List Operation) :
    let e := (fresh d g limits).performAll ops
    (∀ goal budget n, Solutions.take e budget n (.ofGoal goal) =
      Solutions.take ((fresh d (lastGraph g ops) limits).load (loaded ops))
      budget n (.ofGoal goal)) ∧
    (∀ g', (e.rebind g').1 = lastGraph g ops) ∧
    e.library.theory.groups =
      Theory.grouped (d.derivations.flatMap fun t => t.clauses (lastGraph g ops)) ∧
    e.database.groups = Theory.grouped (loaded ops) ∧ e.clauseCount = e.database.size := by
  intro e
  have he : e = (fresh d (lastGraph g ops) limits).load (loaded ops) :=
    performAll_fresh d limits g ops
  rw [he]
  refine ⟨fun _ _ _ => rfl, fun _ => rfl, Theory.groups_insertAll _, Theory.groups_insertAll _, ?_⟩
  exact (Nat.zero_add _).trans
    ((Theory.size_insertAll .empty (loaded ops)).trans (Nat.zero_add _)).symm

end Engine

end GraphRules
