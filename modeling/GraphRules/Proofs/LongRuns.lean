import GraphRules.Proofs.DeclaredQueries
import GraphRules.Proofs.FiniteSearch

/-! Searches that are too long to be run. A predicate that calls another one four times, which calls
a third one four times, and so on, takes as many attempts as are wanted and changes nothing else; a
search can leap over its calls. In this way one comes to states in which all scopes were given out,
and the copy of a clause has the variables of the goal. -/
namespace GraphRules.Search

variable {e : Engine} {goal : Term} {outer : Bool} {r r' r'' : Run} {names below : List String}
  {x : String} {depth n : Nat} {v : Verdict} {rest : List Goal}

/-- Goals are worked on one after the other, and none of them leads back or is a negation. -/
inductive Advances (e : Engine) : Run → Run → Prop
  | refl (r : Run) : Advances e r r
  | step {r r' r'' : Run} {g : Goal} {rest : List Goal} (hg : r.goals = g :: rest)
    (hs : ∀ prove, step e prove g rest r = .onward r') (h : Advances e r' r'') : Advances e r r''

theorem Advances.trans (h : Advances e r r') (h' : Advances e r' r'') : Advances e r r'' := by
  induction h with
  | refl _ => exact h'
  | step hg hs _ ih => exact .step hg hs (ih h')

theorem Advances.reachable (h : Advances e r r') (hr : Reachable e goal outer r) :
    Reachable e goal outer r' := by
  induction h with
  | refl _ => exact hr
  | step hg hs _ ih => exact ih (hr.onward hg (hs (search e 0)))

theorem Advances.search (h : Advances e r r') (hs : search e n r' = (v, r'')) :
    ∃ m, search e m r = (v, r'') := by
  induction h with
  | refl _ => exact ⟨n, hs⟩
  | @step r r₁ r₂ g rest hg hstep _ ih =>
    obtain ⟨m, hm⟩ := ih hs
    refine ⟨m + 1, ?_⟩
    simp only [Search.search, hg, hstep]
    exact hm

/-- What the predicate at the top of a tower calls: the one below it, four times. -/
def fourfold : List String → List Term
  | [] => []
  | x :: _ => List.replicate 4 (.atom x)

/-- Predicates without arguments that have one clause each, the last of them a fact. -/
def isTower (e : Engine) : List String → Bool
  | [] => true
  | x :: below => decide (x ∉ ["true", "fail", "false"]) && !e.library.isForeign ⟨x, 0⟩ &&
    decide (e.clausesOf ⟨x, 0⟩ = [⟨.atom x, fourfold below⟩]) && isTower e below

def towerTries : Nat → Nat
  | 0 => 0
  | n + 1 => 1 + 4 * towerTries n

theorem task_atom_of_not_mem (h : x ∉ ["true", "fail", "false"]) :
    task (.atom x) = .call ⟨x, 0⟩ := by
  simp only [List.mem_cons, List.not_mem_nil, or_false, not_or] at h
  simp [task_atom, h]

theorem isTower_cons (h : isTower e (x :: below)) :
    x ∉ ["true", "fail", "false"] ∧ e.library.isForeign ⟨x, 0⟩ = false ∧
      e.clausesOf ⟨x, 0⟩ = [⟨.atom x, fourfold below⟩] ∧ isTower e below := by
  simpa [isTower, and_assoc] using h

theorem rename_floor (x : String) (below : List String) (n : Nat) :
    Clause.rename n ⟨.atom x, fourfold below⟩ = ⟨.atom x, fourfold below⟩ := by
  cases below <;> rfl

theorem walk_atom (b : Bindings) (x : String) : b.walk (.atom x) = .atom x :=
  Bindings.walk_nonvar _ (by simp)

theorem unify?_atom (b : Bindings) (x : String) : b.unify? (.atom x) (.atom x) = some b := by
  have hsize : (Term.atom x).size = 1 := rfl
  rw [Bindings.unify?_eq, hsize, Bindings.unifyDepth_succ, if_pos rfl]

/-- The call of a predicate in a tower takes one attempt, and leaves what its clause calls. -/
theorem advances_call (h : isTower e (x :: below)) (hg : r.goals = ⟨.atom x, depth⟩ :: rest)
    (hd : depth < e.limits.depth) :
    Advances e r { r with
      goals := (fourfold below).map (⟨·, depth + 1⟩) ++ rest
      tries := r.tries + 1 } := by
  obtain ⟨hname, hforeign, hclauses, -⟩ := isTower_cons h
  refine .step hg (fun prove => ?_) (.refl _)
  simp only [step, walk_atom, task_atom_of_not_mem hname]
  rw [call_clauses hforeign, if_neg (Nat.not_le.mpr hd), hclauses, tryClauses_cons,
    rename_floor, unify?_atom]
  rfl

theorem advances_tower (h : isTower e (x :: below)) (hg : r.goals = ⟨.atom x, depth⟩ :: rest)
    (hd : depth + below.length < e.limits.depth) :
    Advances e r { r with goals := rest, tries := r.tries + towerTries (below.length + 1) } := by
  induction below generalizing x r depth rest with
  | nil => exact advances_call h hg hd
  | cons y below ih =>
    have hbelow := (isTower_cons h).2.2.2
    rw [List.length_cons] at hd ⊢
    have hnext : ∀ {r : Run} {rest : List Goal}, r.goals = ⟨.atom y, depth + 1⟩ :: rest →
        Advances e r { r with goals := rest, tries := r.tries + towerTries (below.length + 1) } :=
      fun hg => ih hbelow hg (by omega)
    refine (advances_call h hg (by omega)).trans ?_
    refine (hnext rfl).trans ((hnext rfl).trans ((hnext rfl).trans ?_))
    have hlast := hnext (r := { r with
      goals := [⟨.atom y, depth + 1⟩] ++ rest
      tries := r.tries + 1 + towerTries (below.length + 1) + towerTries (below.length + 1) +
        towerTries (below.length + 1) }) rfl
    have hsum : r.tries + towerTries (below.length + 1 + 1) =
        r.tries + 1 + towerTries (below.length + 1) + towerTries (below.length + 1) +
          towerTries (below.length + 1) + towerTries (below.length + 1) := by
      rw [towerTries]
      omega
    rw [hsum]
    exact hlast

/-- How high a predicate stands in a tower; one that is not in it, on the ground. -/
def height (names : List String) : Term → Nat
  | .atom x => (names.dropWhile (· ≠ x)).length
  | _ => 0

theorem isTower_of_suffix {names' : List String} (h : isTower e names)
    (hsuffix : names' <:+ names) : isTower e names' := by
  induction names with
  | nil => rwa [List.suffix_nil.mp hsuffix]
  | cons x below ih =>
    rcases List.suffix_cons_iff.mp hsuffix with rfl | hsuffix
    · exact h
    · exact ih (isTower_cons h).2.2.2 hsuffix

theorem exists_tower_of_height {t : Term} (h : isTower e names) (ht : 0 < height names t) :
    ∃ x below, t = .atom x ∧ isTower e (x :: below) ∧ height names t = below.length + 1 := by
  cases t with
  | atom x =>
    simp only [height] at ht ⊢
    have hsuffix := List.dropWhile_suffix (l := names) (· ≠ x)
    have hfirst := List.head?_dropWhile_not (fun y => decide (y ≠ x)) names
    cases hdrop : names.dropWhile (· ≠ x) with
    | nil => rw [hdrop] at ht; cases ht
    | cons y below =>
      rw [hdrop] at hsuffix hfirst
      have hy : y = x := by simpa using hfirst
      subst hy
      exact ⟨y, below, rfl, isTower_of_suffix h hsuffix, rfl⟩
  | _ => cases ht

/-- A search that leaps over the calls of predicates in a tower. Negations are not searched for. -/
def leap (e : Engine) (names : List String) : Nat → Run → Option (Verdict × Run)
  | 0, _ => none
  | n + 1, r =>
    match r.goals with
    | [] => some (.found, r)
    | g :: rest =>
      if 0 < height names g.term ∧ g.depth + height names g.term ≤ e.limits.depth then
        leap e names n { r with goals := rest, tries := r.tries + towerTries (height names g.term) }
      else
        match step e (fun i => (.interrupted, i)) g rest r with
        | .onward r => leap e names n r
        | .back r =>
          match backtrack r with
          | (true, r) => leap e names n r
          | (false, r) => some (.exhausted, r)
        | .interrupted _ => none

/-- What is come to by leaps is come to step by step. -/
theorem exists_search_of_leap (h : isTower e names) (hl : leap e names n r = some (v, r')) :
    v ≠ .interrupted ∧ ∃ m, search e m r = (v, r') := by
  induction n generalizing r with
  | zero => cases hl
  | succ n ih =>
    rw [leap] at hl
    cases hg : r.goals with
    | nil =>
      rw [hg] at hl
      cases hl
      exact ⟨by simp, 1, by simp [search, hg]⟩
    | cons g rest =>
      rw [hg] at hl
      dsimp only at hl
      split_ifs at hl with hheight
      · obtain ⟨x, below, hterm, htower, hlen⟩ := exists_tower_of_height h hheight.1
        obtain ⟨hv, m, hm⟩ := ih hl
        rw [hlen] at hm hheight
        obtain ⟨t, depth⟩ := g
        obtain rfl : t = .atom x := hterm
        have hd : depth + (below.length + 1) ≤ e.limits.depth := hheight.2
        exact ⟨hv, (advances_tower htower hg (by omega)).search hm⟩
      · have hstep : ∀ m, (∀ i, step e (fun i => (.interrupted, i)) g rest r ≠ .interrupted i) →
            step e (search e m) g rest r = step e (fun i => (.interrupted, i)) g rest r :=
          fun m hs => step_of_le (fun _ hi => (hi rfl).elim) hs
        cases hs : step e (fun i => (.interrupted, i)) g rest r with
        | interrupted r₁ => rw [hs] at hl; cases hl
        | onward r₁ =>
          rw [hs] at hl hstep
          obtain ⟨hv, m, hm⟩ := ih hl
          refine ⟨hv, m + 1, ?_⟩
          simp only [search, hg, hstep m (by simp)]
          exact hm
        | back r₁ =>
          rw [hs] at hl hstep
          dsimp only at hl
          cases hb : backtrack r₁ with
          | mk ok r₂ =>
            rw [hb] at hl
            cases ok with
            | true =>
              obtain ⟨hv, m, hm⟩ := ih hl
              refine ⟨hv, m + 1, ?_⟩
              simp only [search, hg, hstep m (by simp), hb]
              exact hm
            | false =>
              cases hl
              refine ⟨by simp, 1, ?_⟩
              rw [search, hg]
              dsimp only
              rw [hstep 0 (by simp)]
              dsimp only
              rw [hb]

end GraphRules.Search

namespace GraphRules.Reference

open Search

variable {e : Engine} {x : String} {below : List String}
  {copy : Nat → Bindings → Term → List Goal → Nat} {depth : Nat}

end GraphRules.Reference

namespace GraphRules.Solutions

open Search

variable {e : Engine} {names : List String} {s s' : Solutions} {as : List Solution} {steps : Nat}

def leapAll (e : Engine) (names : List String) (steps : Nat) :
    Nat → Solutions → Option (List Solution × Solutions)
  | 0, _ => none
  | n + 1, s =>
    match s.resumed? with
    | none => some ([], (s.next e 0).2)
    | some r =>
      match leap e names steps r with
      | some (.found, run) =>
        (leapAll e names steps n
          { s with run, stage := .yielded, emitted := s.emitted + 1 }).map fun p =>
            (.ofVariables s.vars run.bindings :: p.1, p.2)
      | some (_, run) => some ([], { s with run, stage := .done })
      | none => none

theorem exists_next_of_leap (hs : e.limits.solutions? = none) (h : isTower e names) {r r' : Run}
    {v : Verdict} (hr : s.resumed? = some r) (hl : leap e names steps r = some (v, r')) :
    ∃ m, s.givesUp e m = false ∧ s.next e m =
      match v with
      | .found =>
        (some (.ofVariables s.vars r'.bindings),
          { s with run := r', stage := .yielded, emitted := s.emitted + 1 })
      | _ => (none, { s with run := r', stage := .done }) := by
  obtain ⟨hv, m, hm⟩ := exists_search_of_leap h hl
  refine ⟨m, by simp [givesUp, hr, hm, hv], ?_⟩
  rw [next_of_resumed hr, advance, hs]
  simp only [Bool.false_eq_true, if_false, hm]
  cases v <;> rfl

/-- Answers that are found by leaps are the answers. -/
theorem exists_completes_of_leapAll (hs : e.limits.solutions? = none) (h : isTower e names)
    {n : Nat} (hl : leapAll e names steps n s = some (as, s')) :
    ∃ budget, Completes e budget s as s' := by
  induction n generalizing s as with
  | zero => cases hl
  | succ n ih =>
    rw [leapAll] at hl
    cases hr : s.resumed? with
    | none =>
      rw [hr] at hl
      cases hl
      obtain ⟨s', hnext⟩ := next_of_not_resumed hr
      exact ⟨0, .last (.inr (by simp [givesUp, hr])) (by rw [hnext])⟩
    | some r =>
      rw [hr] at hl
      dsimp only at hl
      cases hleap : leap e names steps r with
      | none => rw [hleap] at hl; cases hl
      | some p =>
        obtain ⟨v, r'⟩ := p
        rw [hleap] at hl
        obtain ⟨m, hup, hnext⟩ := exists_next_of_leap hs h hr hleap
        cases v with
        | found =>
          obtain ⟨⟨rest, s₁⟩, hrest, heq⟩ := Option.map_eq_some_iff.mp hl
          cases heq
          obtain ⟨budget, hcompletes⟩ := ih hrest
          obtain ⟨hsame, hup⟩ := next_of_le (Nat.le_max_left m budget) (.inr hup)
          exact ⟨max m budget, .more hup
            (hsame.trans hnext) (hcompletes.of_le (Nat.le_max_right m budget))⟩
        | exhausted =>
          cases hl
          exact ⟨m, .last (.inr hup) hnext⟩
        | interrupted => exact ((exists_search_of_leap h hleap).1 rfl).elim

end GraphRules.Solutions

namespace GraphRules

open Check Lowering Reference Search

def towerNames : List String :=
  ["p", "o", "n", "m", "l", "k", "j", "i", "h", "g", "f", "e", "d", "c", "b", "a"]

def floors : List String → List Clause
  | [] => []
  | x :: below => floors below ++ [⟨.atom x, fourfold below⟩]

def pairEngine : Engine :=
  { library := Standard.library { nodes := [], edges := [] }
    database := Theory.empty.insertAll
      (floors towerNames ++ [⟨.compound "pair" [.named "Y", .named "X"], []⟩]) }

/-- All scopes but one are given out before the fact is tried, and its copy gets the scope of the
goal. -/
def pairGoal : Term :=
  .conjunction (List.replicate 3 (.atom "p") ++ [.compound "pair" [.named "X", .atom "b"]])

theorem isTower_pairEngine : isTower pairEngine towerNames := by decide +kernel

/-- The state before the last attempt. -/
theorem reachable_pairGoal :
    ∃ r, Reachable pairEngine pairGoal true r ∧ r.tries + 1 = 2 ^ 32 ∧ r.bindings = .empty ∧
      r.goals = [⟨.compound "pair" [.named "X", .atom "b"], 0⟩] := by
  have hdepth : 0 + towerNames.tail.length < pairEngine.limits.depth := by decide
  obtain ⟨T, htower, hsum⟩ : ∃ T,
      (∀ n t, Advances pairEngine { goals := [⟨.atom "p", 0⟩, ⟨t, 0⟩], tries := n }
        { goals := [⟨t, 0⟩], tries := n + T }) ∧ 0 + T + T + T + 1 = 2 ^ 32 :=
    ⟨towerTries towerNames.length,
      fun n t => advances_tower isTower_pairEngine rfl hdepth, by decide +kernel⟩
  have hcall (n : Nat) (t : Term) : Advances pairEngine
      { goals := [⟨.compound "," [.atom "p", t], 0⟩], tries := n }
      { goals := [⟨t, 0⟩], tries := n + T } := .step rfl (fun _ => rfl) (htower n t)
  have hcalls :=
    (hcall 0 _).trans ((hcall _ _).trans (hcall _ (.compound "pair" [.named "X", .atom "b"])))
  have hreach : Reachable pairEngine pairGoal true _ := hcalls.reachable .start
  exact ⟨_, hreach, hsum, rfl, rfl⟩

def towerSource : String :=
  "a.\na,a,a,a->b.\nb,b,b,b->c.\nc,c,c,c->d.\nd,d,d,d->e.\ne,e,e,e->f.\nf,f,f,f->g.\n" ++
    "g,g,g,g->h.\nh,h,h,h->i.\ni,i,i,i->j.\nj,j,j,j->k.\nk,k,k,k->l.\nl,l,l,l->m.\n" ++
    "m,m,m,m->n.\nn,n,n,n->o.\no,o,o,o->p.\nedge(A)->v(A).\n" ++
    "query q:graph(A),p,p,o,o,o,n,n,n,n,v(C).\n"

def towerGraph : Graph := { nodes := [⟨"x", []⟩], edges := [⟨"y", "x", "x", []⟩] }

/-- The goals of the query. Between the first of them and the last, as many clauses are tried as
there are scopes, but for three. -/
def towerBody : List Term :=
  .compound "graph" [.named "A"] ::
    (["p", "p", "o", "o", "o", "n", "n", "n", "n"].map .atom ++ [.compound "v" [.named "C"]])

def towerClauses : List Clause :=
  floors towerNames ++
    [⟨.compound "v" [.named "A"], [.compound "edge" [.named "A"]]⟩,
      ⟨.compound "query" [.atom "q", .int 2], []⟩,
      ⟨.compound "q" [.named "A", .named "C"], towerBody⟩]

def towerEngine (limits : Limits) : Engine :=
  Engine.load { library := Standard.library towerGraph, limits } towerClauses

def towerRank (x : String) : Nat :=
  if x = "q" then 17 else if x = "v" then 1 else height towerNames (.atom x)

structure IsTowerScript (s : Script) (program : Program) (q : Query) : Prop where
  parse : Script.parse towerSource = .ok s
  compile : (Compiler.standard 16).compile towerSource = .ok program
  warnings : program.warnings = []
  plain : ∀ negations, s.isPlain negations
  rank : ∀ i ∈ s.items, ∀ p ∈ i.defined, ∀ f ∈ condition? i, ∀ q ∈ formulaNames f,
    towerRank q < towerRank p
  derived : ∀ p ∈ "q" :: "v" :: "graph" :: "edge" :: towerNames, s.isDerived p
  clauses : s.items.flatMap itemClauses = towerClauses
  query : .query q ∈ s.items
  shape : q.name = "q" ∧ q.headVariables = ["A", "C"] ∧ lowerGoal q.body = .conjunction towerBody

theorem exists_isTowerScript : ∃ s program q, IsTowerScript s program q := by
  have hcheck : (Script.parse towerSource).toOption.any fun s =>
      (s.check Compiler.standardVocabulary).isOk && decide
        ((s.check Compiler.standardVocabulary).warnings = [] ∧
          (s.lower 16).warnings = [] ∧ (∀ n, s.isPlain n) ∧
          (∀ i ∈ s.items, ∀ p ∈ i.defined, ∀ f ∈ condition? i, ∀ q ∈ formulaNames f,
            towerRank q < towerRank p) ∧
          (∀ p ∈ "q" :: "v" :: "graph" :: "edge" :: towerNames, s.isDerived p) ∧
          s.items.flatMap itemClauses = towerClauses ∧ s.items.any fun i => i.query?.any fun q =>
            decide (q.name = "q" ∧ q.headVariables = ["A", "C"] ∧
              lowerGoal q.body = .conjunction towerBody)) := by
    decide +kernel
  obtain ⟨s, hparse, hs⟩ := exists_ok_of_any hcheck
  obtain ⟨hok, hs⟩ := Bool.and_eq_true_iff.mp hs
  obtain ⟨hwarnings, hlowered, hplain, hrank, hderived, hclauses, hquery⟩ := of_decide_eq_true hs
  obtain ⟨q, hq, hshape⟩ := Script.exists_query_of_any hquery
  rw [← Compiler.vocabulary_standard_eq 16] at hok hwarnings
  refine ⟨s, { s.lower 16 with
    warnings := (s.check (Compiler.standard 16).vocabulary).warnings ++ (s.lower 16).warnings }, q,
    hparse, ?_, ?_, hplain, hrank, hderived, hclauses, hq, of_decide_eq_true hshape⟩
  · rw [Compiler.compile, hparse]
    exact if_pos hok
  · exact List.append_eq_nil_iff.mpr ⟨hwarnings, hlowered⟩

namespace IsTowerScript

variable {s : Script} {program : Program} {q : Query}

theorem engine_eq (h : IsTowerScript s program q) (limits : Limits) :
    program.engine towerGraph limits = towerEngine limits := by
  rw [Program.engine, (Compiler.compile_eq_ok h.parse h.compile).2.1, h.clauses]
  rfl

/-- By its name the query has no answer: the last clause that is tried has the variable of the first
goal for its own. -/
theorem completes_name (h : IsTowerScript s program q) :
    ∃ budget s', (Solutions.ofGoal q.goal).Completes (program.engine towerGraph {}) budget [] s' ∧
      s'.depthExceeded = false := by
  have hgoal : q.goal = .compound "q" [.named "A", .named "C"] := by
    rw [Query.goal, h.shape.1, h.shape.2.1]
    rfl
  rw [h.engine_eq, hgoal]
  have hleaps : (Solutions.leapAll (towerEngine {}) towerNames 40 3
      (.ofGoal (.compound "q" [.named "A", .named "C"]))).any fun p =>
        decide (p.1 = [] ∧ p.2.depthExceeded = false) := by
    decide +kernel
  obtain ⟨⟨as, s'⟩, hleap, hp⟩ := (Option.any_eq_true _ _).mp hleaps
  obtain ⟨rfl, hcut⟩ := of_decide_eq_true hp
  obtain ⟨budget, hcompletes⟩ := Solutions.exists_completes_of_leapAll rfl (by decide +kernel) hleap
  exact ⟨budget, s', hcompletes, hcut⟩

/-- As a goal it has one, since its clause is not tried. -/
theorem completes_goal (h : IsTowerScript s program q) :
    ∃ budget a s', (Solutions.ofGoal (lowerGoal q.body)).Completes
      (program.engine towerGraph { depth := 511 }) budget [a] s' := by
  rw [h.engine_eq, h.shape.2.2]
  have hleaps : (Solutions.leapAll (towerEngine { depth := 511 }) towerNames 40 3
      (.ofGoal (.conjunction towerBody))).any fun p =>
        p.1 = [⟨[("A", .atom "graph"), ("C", .atom "y")]⟩] := by
    decide +kernel
  obtain ⟨⟨as, s'⟩, hleap, hp⟩ := (Option.any_eq_true _ _).mp hleaps
  obtain rfl := of_decide_eq_true hp
  obtain ⟨budget, hcompletes⟩ := Solutions.exists_completes_of_leapAll rfl (by decide +kernel) hleap
  exact ⟨budget, _, s', hcompletes⟩

end IsTowerScript

section Truth

variable {e : Engine} {P : String → Prop} {negations : Bool} {I : Interpretation}

theorem holds_atoms (hsane : Sane e P negations I) {ρ : Assignment} {ts : List Term}
    (hts : ∀ bound, I.Holds ρ bound ts) (names : List String) (hnames : ∀ x ∈ names, P x ∧ I x [])
    (bound : Set String) : I.Holds ρ bound (names.map .atom ++ ts) := by
  induction names generalizing bound with
  | nil => exact hts bound
  | cons x names ih =>
    obtain ⟨⟨hP, htrue⟩, hnames⟩ := List.forall_mem_cons.mp hnames
    have htask : task (.atom x) = .call ⟨x, 0⟩ := hsane.task x [] hP
    exact (Interpretation.holds_call htask).mpr ⟨htrue, ih hnames _⟩

theorem isTower_true (hsane : Sane e P negations I) (names : List String) (hP : ∀ x ∈ names, P x)
    (h : isTower e names) : ∀ x ∈ names, I x [] := by
  induction names with
  | nil => exact nofun
  | cons x below ih =>
    obtain ⟨-, -, hclauses, hbelow⟩ := isTower_cons h
    have htrue := ih (fun y hy => hP y (by simp [hy])) hbelow
    have hbody : I.Holds (fun _ => default) ∅ (fourfold below) := by
      cases below with
      | nil => simp [fourfold]
      | cons y below =>
        have hbelow : ∀ z ∈ List.replicate 4 y, P z ∧ I z [] := fun z hz => by
          rw [List.eq_of_mem_replicate hz]
          exact ⟨hP y (by simp), htrue y (by simp)⟩
        exact holds_atoms hsane (fun _ => by simp) _ hbelow ∅
    refine List.forall_mem_cons.mpr ⟨(hsane.meaning x [] (hP x (by simp))).mpr ?_, htrue⟩
    exact ⟨⟨.atom x, fourfold below⟩, by rw [List.length_nil, hclauses]; simp,
      fun _ => default, rfl, hbody⟩

theorem towerEngine_true (hsane : Sane (towerEngine {}) P negations I)
    (hP : ∀ p ∈ "q" :: "v" :: "graph" :: "edge" :: towerNames, P p) :
    I "q" [.atom "graph", .atom "y"] := by
  let ρ : Assignment := fun x => .atom (if x = "C" then "y" else "graph")
  have htower := isTower_true hsane towerNames (fun x hx => hP x (by simp [hx])) (by decide +kernel)
  have hfact : ∀ name id, P name → Standard.fact name [id] ∈ (towerEngine {}).clausesOf ⟨name, 1⟩ →
      I name [.atom id] :=
    fun name id hname hmem =>
      (hsane.meaning name _ hname).mpr ⟨_, hmem, ρ, rfl, by simp [Standard.fact]⟩
  have hgraph : I "graph" [.atom "graph"] := hfact _ _ (hP _ (by decide)) (by decide +kernel)
  have hedge : I "edge" [.atom "y"] := hfact _ _ (hP _ (by decide)) (by decide +kernel)
  have htask : ∀ {p x : String}, P p → task (.compound p [.named x]) = .call ⟨p, 1⟩ :=
    fun hp => hsane.task _ [_] hp
  have hv : I "v" [.atom "y"] := by
    refine (hsane.meaning "v" _ (hP _ (by decide))).mpr
      ⟨⟨.compound "v" [.named "A"], [.compound "edge" [.named "A"]]⟩, by decide +kernel,
        fun _ => .atom "y", rfl, ?_⟩
    exact (Interpretation.holds_call (htask (hP _ (by decide)))).mpr ⟨hedge, by simp⟩
  refine (hsane.meaning "q" _ (hP _ (by decide))).mpr
    ⟨⟨.compound "q" [.named "A", .named "C"], towerBody⟩, by decide +kernel, ρ, rfl, ?_⟩
  refine (Interpretation.holds_call (htask (hP _ (by decide)))).mpr ⟨hgraph, ?_⟩
  refine holds_atoms hsane (fun bound => ?_) _ (fun x hx => ?_) _
  · exact (Interpretation.holds_call (htask (hP _ (by decide)))).mpr ⟨hv, by simp⟩
  · have hmem : x ∈ towerNames :=
      (show ["p", "p", "o", "o", "o", "n", "n", "n", "n"] ⊆ towerNames by decide) hx
    exact ⟨hP x (by simp [hmem]), htower x hmem⟩

end Truth

end GraphRules
