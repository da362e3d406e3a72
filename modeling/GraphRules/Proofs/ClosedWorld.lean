import GraphRules.Proofs.Evaluation
import GraphRules.Proofs.LongRuns
import GraphRules.Proofs.QueryAnswers
import GraphRules.Proofs.ScopeWords
import Mathlib.Data.Finset.Card
import Mathlib.Logic.Relation

/-! Scripts under the closed world assumption: what the graph and the rules do not give is false. If
no predicate of a script calls itself, this settles what is true, and the answers to queries are
what is true of their bodies. -/
namespace GraphRules

open Check Lowering Reference Search

inductive Graph.Fact (g : Graph) : String → List Constant → Prop
  | graph : Fact g "graph" [.atom g.id]
  | node {n : Node} (hn : n ∈ g.nodes) : Fact g "node" [.atom n.id]
  | edge {e : Edge} (he : e ∈ g.edges) : Fact g "edge" [.atom e.id]
  | ends {e : Edge} (he : e ∈ g.edges) : Fact g "edge" [.atom e.source, .atom e.target]
  | edgeWithEnds {e : Edge} (he : e ∈ g.edges) :
    Fact g "edge" [.atom e.source, .atom e.target, .atom e.id]

theorem Graph.fact_of_mem {g : Graph} {c : Clause} (hc : c ∈ Standard.shapeFacts g) {p : String}
    {n : Nat} (hsig : c.signature? = some ⟨p, n⟩) (θ : Valuation) :
    g.Fact p (c.head.args.map (Term.constant θ)) := by
  simp only [Standard.shapeFacts, List.mem_cons, List.mem_append, List.mem_map,
    List.mem_flatMap, List.not_mem_nil, or_false] at hc
  rcases hc with rfl | ⟨n, hn, rfl⟩ | ⟨e, he, rfl | rfl | rfl⟩ <;> cases hsig
  · exact .graph
  · exact .node hn
  · exact .edge he
  · exact .ends he
  · exact .edgeWithEnds he

variable {cs : List Constant}

theorem Graph.exists_of_fact {g : Graph} {p : String} (h : g.Fact p cs) :
    ∃ c ∈ Standard.shapeFacts g, c.signature? = some ⟨p, cs.length⟩ ∧ c.body = [] ∧
      ∀ θ, c.head.args.map (Term.constant θ) = cs := by
  have hedge : ∀ {e : Edge} {c : Clause}, e ∈ g.edges →
      c ∈ [Standard.fact "edge" [e.id], Standard.fact "edge" [e.source, e.target],
        Standard.fact "edge" [e.source, e.target, e.id]] → c ∈ Standard.shapeFacts g := fun he hc =>
    List.mem_cons_of_mem _ (List.mem_append_right _ (List.mem_flatMap.mpr ⟨_, he, hc⟩))
  cases h with
  | graph => exact ⟨Standard.fact "graph" [g.id], List.mem_cons_self, rfl, rfl, fun _ => rfl⟩
  | @node n hn =>
    refine ⟨Standard.fact "node" [n.id], List.mem_cons_of_mem _ (List.mem_append_left _ ?_),
      rfl, rfl, fun _ => rfl⟩
    exact List.mem_map_of_mem hn
  | @edge e he => exact ⟨Standard.fact "edge" [e.id], hedge he (by simp), rfl, rfl, fun _ => rfl⟩
  | @ends e he =>
    exact ⟨Standard.fact "edge" [e.source, e.target], hedge he (by simp), rfl, rfl, fun _ => rfl⟩
  | @edgeWithEnds e he =>
    exact ⟨Standard.fact "edge" [e.source, e.target, e.id], hedge he (by simp), rfl, rfl, fun _ =>
      rfl⟩

namespace Script

/-- What the graph and the script give, when predicates are called as in an interpretation. -/
def step (s : Script) (g : Graph) (I : Interpretation) : Interpretation := fun p cs =>
  g.Fact p cs ∨ ∃ head a, s.Derives p head a ∧ ∃ ρ : Assignment,
    List.Forall₂ (ArgKind.Takes ρ) head cs ∧ I.AllTrue [] ρ [] a

/-- Of the derived predicates, nothing is true but what the graph and the script give. -/
def ClosedWorld (s : Script) (g : Graph) (I : Interpretation) : Prop :=
  ∀ p cs, s.isDerived p → (I p cs ↔ s.step g I p cs)

def Calls (s : Script) (p q : String) : Prop :=
  ∃ i ∈ s.items, p ∈ i.defined ∧ ∃ f ∈ condition? i, q ∈ formulaNames f

/-- Negations inside others keep to the rule of the check in all conditions of the script. -/
def isGuarded (s : Script) : Bool :=
  (s.items.filterMap condition?).all fun f => f.alternatives.all (Check.isGuarded [] [])

variable {s : Script} {g : Graph} {p q : String} {head : List ArgKind} {a : List Literal}

theorem isGuarded_of_isPlain (h : s.isPlain false) : s.isGuarded := by
  refine List.all_eq_true.mpr fun f hf => List.all_eq_true.mpr fun a ha => ?_
  have hsimple := Formula.simple_of_mem_alternatives (List.all_eq_true.mp h f hf) a ha
  clear ha
  generalize ([] : List Literal) = before
  induction a generalizing before with
  | nil => rw [Check.isGuarded]
  | cons l a ih =>
    obtain ⟨hl, hrest⟩ := List.forall_mem_cons.mp hsimple
    rcases hl with ⟨c, rfl, -⟩ | ⟨_, _, _, hnegations, _⟩
    · rw [Check.isGuarded, Bool.true_and]
      exact ih hrest _
    · cases hnegations

theorem Derives.origin (h : s.Derives p head a) :
    ∃ i ∈ s.items, p ∈ i.defined ∧ (a = [] ∨ ∃ f ∈ condition? i, a ∈ f.alternatives) := by
  rcases h with ⟨r, hr, k, hk, rfl, _, ha⟩ | ⟨q, hq, rfl, _, ha⟩
  · refine ⟨_, hr, List.mem_map_of_mem hk, ?_⟩
    unfold Rule.alternatives at ha
    cases hf : r.antecedent? with
    | none => rw [hf] at ha; exact .inl (List.mem_singleton.mp ha)
    | some f => rw [hf] at ha; exact .inr ⟨f, hf, ha⟩
  · exact ⟨_, hq, List.mem_singleton_self _, .inr ⟨q.body, rfl, ha⟩⟩

theorem Derives.calls (h : s.Derives p head a) (hq : q ∈ literalsNames a) : s.Calls p q := by
  obtain ⟨i, hi, hp, rfl | ⟨f, hf, ha⟩⟩ := h.origin
  · cases hq
  · exact ⟨i, hi, hp, f, hf, (Formula.of_mem_alternatives ha).2.2 hq⟩

theorem Derives.isGuarded (h : s.Derives p head a) (hs : s.isGuarded) :
    Check.isGuarded [] [] a := by
  obtain ⟨i, hi, _, rfl | ⟨f, hf, ha⟩⟩ := h.origin
  · rw [Check.isGuarded]
  · have hall := List.all_eq_true.mp hs f (List.mem_filterMap.mpr ⟨i, hi, hf⟩)
    exact List.all_eq_true.mp hall a ha

theorem step_congr {I J : Interpretation} (h : ∀ q, s.Calls p q → ∀ cs, I q cs ↔ J q cs)
    (cs : List Constant) : s.step g I p cs ↔ s.step g J p cs := by
  refine or_congr_right (exists_congr fun head => exists_congr fun a =>
    and_congr_right fun hd => ?_)
  refine exists_congr fun ρ => and_congr_right' ?_
  exact Interpretation.allTrue_congr fun q hq => h q (hd.calls hq)

noncomputable def rank (s : Script) (p : String) : Nat :=
  open Classical in ((referencedNames s.items).toFinset.filter (Relation.TransGen s.Calls p)).card

theorem rank_lt (hacyclic : ∀ p, ¬ Relation.TransGen s.Calls p p) (h : s.Calls p q) :
    s.rank q < s.rank p := by
  classical
  refine Finset.card_lt_card (Finset.ssubset_iff_subset_ne.mpr ⟨fun x hx => ?_, fun heq => ?_⟩)
  · rw [Finset.mem_filter] at hx ⊢
    exact ⟨hx.1, .head h hx.2⟩
  · have hmem : q ∈ (referencedNames s.items).toFinset.filter (Relation.TransGen s.Calls p) := by
      refine Finset.mem_filter.mpr ⟨List.mem_toFinset.mpr (List.mem_flatMap.mpr ?_), .single h⟩
      obtain ⟨i, hi, _, f, hf, hq⟩ := h
      refine ⟨i, hi, ?_⟩
      rw [Option.mem_def.mp hf]
      exact hq
    rw [← heq, Finset.mem_filter] at hmem
    exact hacyclic q hmem.2

/-- A predicate is settled once all predicates are that it calls. -/
theorem iterate_step_stable (hacyclic : ∀ p, ¬ Relation.TransGen s.Calls p p) (I : Interpretation)
    {m n : Nat} (hm : s.rank p < m) (hn : s.rank p < n) (cs : List Constant) :
    (s.step g)^[m] I p cs ↔ (s.step g)^[n] I p cs := by
  induction m generalizing n p cs with
  | zero => cases hm
  | succ m ih =>
    cases n with
    | zero => cases hn
    | succ n =>
      rw [Function.iterate_succ_apply', Function.iterate_succ_apply']
      refine step_congr (fun q hq => ih ?_ ?_) cs
      · exact Nat.lt_of_lt_of_le (rank_lt hacyclic hq) (Nat.le_of_lt_succ hm)
      · exact Nat.lt_of_lt_of_le (rank_lt hacyclic hq) (Nat.le_of_lt_succ hn)

theorem exists_closedWorld (hacyclic : ∀ p, ¬ Relation.TransGen s.Calls p p) (g : Graph) :
    ∃ I, s.ClosedWorld g I := by
  refine ⟨fun p => (s.step g)^[s.rank p + 1] (fun _ _ => False) p, fun p cs _ => ?_⟩
  show (s.step g)^[s.rank p + 1] _ p cs ↔ _
  rw [Function.iterate_succ_apply']
  refine step_congr (fun q hq cs => ?_) cs
  exact iterate_step_stable hacyclic _ (rank_lt hacyclic hq) (Nat.lt_succ_self _) cs

end Script

namespace Script

variable {s : Script} {g : Graph}

/-- The closed world assumption leaves no choice for derived predicates. -/
theorem ClosedWorld.unique (hacyclic : ∀ p, ¬ Relation.TransGen s.Calls p p)
    (hplain : s.isPlain true) {I J : Interpretation} (hI : s.ClosedWorld g I)
    (hJ : s.ClosedWorld g J) {p : String} (hp : s.isDerived p) (cs : List Constant) :
    I p cs ↔ J p cs := by
  induction hrank : s.rank p using Nat.strongRecOn generalizing p cs with
  | ind n ih =>
    subst hrank
    rw [hI p cs hp, hJ p cs hp]
    refine step_congr (fun q hq cs => ih _ (rank_lt hacyclic hq) ?_ cs rfl) cs
    obtain ⟨i, hi, _, f, hf, hq⟩ := hq
    exact isDerived_of_isPlain hplain hi hf hq

end Script

theorem Check.hazardsFrom_nil {outside : List String} {before after : List Literal}
    (h : hazardsFrom outside before after = []) : hazardsFrom [] before after = [] := by
  induction after generalizing before with
  | nil => rfl
  | cons l after ih =>
    obtain ⟨hhere, hthere⟩ := List.append_eq_nil_iff.mp h
    refine List.append_eq_nil_iff.mpr ⟨?_, ih hthere⟩
    cases l with
    | call c => rfl
    | group f => rfl
    | compare c => exact hhere
    | negated f s =>
      refine List.map_eq_nil_iff.mpr (List.filter_eq_nil_iff.mpr fun x hx hbad => ?_)
      rw [Bool.and_eq_true, decide_eq_true_eq, decide_eq_true_eq] at hbad
      refine hbad.2 (hazardsFrom_negated h hx ?_)
      simp only [List.nil_append] at hbad
      rw [List.append_assoc]
      exact List.mem_append_right _ hbad.1

theorem ArgKind.takes_iff {head : List ArgKind} (hwild : .wildcard ∉ head) {ρ : Assignment} :
    List.Forall₂ (ArgKind.Takes ρ) head cs ↔
      (head.map ArgKind.toTerm).map (Term.constant ρ.toValuation) = cs := by
  induction head generalizing cs with
  | nil => simp [eq_comm]
  | cons k head ih =>
    rw [List.mem_cons, not_or] at hwild
    cases cs with
    | nil => simp
    | cons c cs =>
      have hk : k.Takes ρ c ↔ k.toTerm.constant ρ.toValuation = c := by
        cases k with
        | wildcard => exact (hwild.1 rfl).elim
        | var x => exact Iff.rfl
        | symbol s => exact Iff.rfl
        | quoted s => exact Iff.rfl
        | int n => exact Iff.rfl
        | float x => exact Iff.rfl
      rw [List.forall₂_cons, ih hwild.2, hk, List.map_cons, List.map_cons, List.cons.injEq]

namespace Script.Accepted

variable {s : Script} {program : Program} {I : Interpretation}

theorem clause_iff (h : s.Accepted program true) (hguarded : s.isGuarded) {p : String}
    {head : List ArgKind} {a : List Literal} {c : Clause} {ws : List String}
    (hd : s.Derives p head a) (hlow : c.Lowers p head a ws) (cs : List Constant) :
    (∃ ρ : Assignment, c.head.args.map (Term.constant ρ.toValuation) = cs ∧ I.Holds ρ ∅ c.body) ↔
      ∃ ρ : Assignment, List.Forall₂ (ArgKind.Takes ρ) head cs ∧ I.AllTrue [] ρ [] a := by
  obtain ⟨hwild, _, ⟨outside, hhazards⟩, hsimple⟩ := h.derives_sound hd
  have hplaced : Placed [] [] a ∅ ws :=
    ⟨hlow.nodup, fun w hw => ⟨List.not_mem_nil, List.not_mem_nil,
      (hlow.free w hw).2, Set.notMem_empty w⟩, fun _ _ hx => hx.elim, List.forall_mem_nil _⟩
  have hagrees : Agrees I [] [] a ∅ ws c.body :=
    agrees_of_guarded (fun p args hp => h.task_apply hp args) hlow.body
    hsimple hplaced (hazardsFrom_nil hhazards) (hd.isGuarded hguarded)
  simp only [ArgKind.takes_iff hwild, hlow.head_eq, Term.args_apply]
  constructor
  · rintro ⟨ρ, heq, hholds⟩
    exact ⟨ρ, heq, (hagrees ρ).1 hholds⟩
  · rintro ⟨ρ, heq, htrue⟩
    obtain ⟨ρ', hρ', hholds⟩ := (hagrees ρ).2 htrue
    refine ⟨ρ', ?_, hholds⟩
    rw [← heq]
    refine Term.map_constant_congr fun v hv => hρ' v.name fun hw => ?_
    exact (hlow.free _ hw).1 ((ArgKind.mem_occurrences hwild v).mp hv).2

theorem sane_closedWorld (h : s.Accepted program true) (hguarded : s.isGuarded) {g : Graph}
    (hI : s.ClosedWorld g I) (limits : Limits) :
    Sane (program.engine g limits) (s.isDerived ·) true I := by
  refine h.sane fun p cs hp => (hI p cs hp).trans ⟨?_, ?_⟩
  · rintro (hfact | ⟨head, a, hd, ρ, htakes, htrue⟩)
    · obtain ⟨c, hc, hsig, hbody, hvalues⟩ := Graph.exists_of_fact hfact
      refine ⟨c, Program.mem_clausesOf_engine.mpr ⟨.inl hc, hsig⟩, fun _ => default, hvalues _, ?_⟩
      rw [hbody]
      simp
    · obtain ⟨ws, c, hc, hlow⟩ := h.exists_clause hd g limits
      rw [htakes.length_eq] at hc
      exact ⟨c, hc, (h.clause_iff hguarded hd hlow cs).mpr ⟨ρ, htakes, htrue⟩⟩
  · rintro ⟨c, hc, ρ, heq, hholds⟩
    rcases h.clause_cases hp hc with hfact | ⟨head, a, ws, hd, hlow⟩
    · rw [← heq]
      exact .inl (Graph.fact_of_mem hfact (Program.mem_clausesOf_engine.mp hc).2 _)
    · exact .inr ⟨head, a, hd, (h.clause_iff hguarded hd hlow cs).mp ⟨ρ, heq, hholds⟩⟩

/-- The tuples of a query are the values of its variables under which one of its alternatives is
true. -/
theorem query_iff (h : s.Accepted program true) (hguarded : s.isGuarded) {g : Graph}
    (hI : s.ClosedWorld g I) {q : Query} (hq : .query q ∈ s.items) (cs : List Constant) :
    I q.name cs ↔ ∃ ρ : Assignment, (∃ a ∈ q.body.alternatives, I.AllTrue [] ρ [] a) ∧
      q.headVariables.map ρ = cs := by
  have hhead : ∀ ρ : Assignment, List.Forall₂ (ArgKind.Takes ρ) (q.headVariables.map .var) cs ↔
      q.headVariables.map ρ = cs := fun ρ => by
    rw [ArgKind.takes_iff (by simp), List.map_map, List.map_map]
    exact Iff.rfl
  rw [(h.sane_closedWorld hguarded hI {}).meaning q.name cs (h.isDerived_query hq)]
  constructor
  · rintro ⟨c, hc, hρ⟩
    rw [h.arity_query hq hc, h.clausesOf_query hq] at hc
    obtain ⟨a, ha, rfl⟩ := List.mem_map.mp hc
    obtain ⟨ws, hlow⟩ := queryClause_lowers (h.bound q hq) ha
    obtain ⟨ρ, htakes, htrue⟩ := (h.clause_iff hguarded (.inr ⟨q, hq, rfl, rfl, ha⟩) hlow cs).mp hρ
    exact ⟨ρ, ⟨a, ha, htrue⟩, (hhead ρ).mp htakes⟩
  · rintro ⟨ρ, ⟨a, ha, htrue⟩, heq⟩
    obtain ⟨ws, hlow⟩ := queryClause_lowers (h.bound q hq) ha
    have hρ :=
      (h.clause_iff hguarded (.inr ⟨q, hq, rfl, rfl, ha⟩) hlow cs).mpr ⟨ρ, (hhead ρ).mpr heq, htrue⟩
    refine ⟨_, ?_, hρ⟩
    rw [← heq, List.length_map, h.clausesOf_query hq]
    exact List.mem_map_of_mem ha

end Script.Accepted

/-- In scripts in which no predicate calls itself, negation as failure is negation under the closed
world assumption. There is one interpretation of the derived predicates under it, and the answers to
a query show just the values of its variables under which one of its alternatives is true there,
when the search came to its end, nothing was cut, and fewer clauses were tried than there are scopes
to tell their copies apart. -/
theorem query_answers_closedWorld {source : String} {script : Script} {program : Program}
    {threshold : Nat} {q : Query} (hparse : Script.parse source = .ok script)
    (hcompile : (Compiler.standard threshold).compile source = .ok program)
    (hwarnings : ∀ w ∈ program.warnings, w.code ≠ "W004") (hplain : script.isPlain true)
    (hguarded : script.isGuarded) (hacyclic : ∀ p, ¬ Relation.TransGen script.Calls p p)
    (hq : .query q ∈ script.items) (g : Graph) (limits : Limits)
    (hlimit : limits.solutions? = none) : ∃ I, script.ClosedWorld g I ∧
      (∀ J, script.ClosedWorld g J → ∀ p cs, script.isDerived p → (J p cs ↔ I p cs)) ∧
      ∃ goal, program.queryGoal? q.name = some goal ∧
        (∃ m, ∀ budget ≥ m, ∀ n ≥ m,
          (Solutions.collect? (program.engine g limits) budget n (.ofGoal goal)).isSome) ∧
        ∀ budget n as s, Solutions.collect? (program.engine g limits) budget n (.ofGoal goal) =
          some (as, s) → s.depthExceeded = false → s.run.tries < 2 ^ 32 →
          ∀ a, a ∈ as ↔ ∃ ρ : Assignment,
            (∃ alternative ∈ q.body.alternatives, I.AllTrue [] ρ [] alternative) ∧
            a = q.answer (q.headVariables.map ρ) := by
  have h := Script.accepted_of_compile hparse hcompile hwarnings hplain
  obtain ⟨I, hI⟩ := Script.exists_closedWorld hacyclic g
  have hsane := h.sane_closedWorld hguarded hI limits
  refine ⟨I, hI, fun J hJ p cs hp => hJ.unique hacyclic hplain hI hp cs, q.goal,
    h.queryGoal?_query hq, ?_, ?_⟩
  · obtain ⟨k, hends⟩ := Program.solveGoal_ends h.clauses g limits (.call q.name q.all_isFlat_named)
    exact Engine.isSome_collect_of_ends hlimit hends
  · intro budget n as s hc hcut htries a
    obtain ⟨hlast, rfl, hexceeded⟩ :=
      Engine.solveGoal_shared_of_collect hlimit hc htries (Nat.le_refl _)
    have hcut := hexceeded.symm.trans hcut
    constructor
    · intro ha
      obtain ⟨p, hp, rfl⟩ := List.mem_map.mp ha
      obtain ⟨cs, hcs, heq⟩ := h.answer_sound hsane hq (.inr hcut) hp
      obtain ⟨ρ, htrue, rfl⟩ := (h.query_iff hguarded hI hq cs).mp hcs
      exact ⟨ρ, htrue, heq⟩
    · rintro ⟨ρ, htrue, rfl⟩
      have hcs := (h.query_iff hguarded hI hq _).mpr ⟨ρ, htrue, rfl⟩
      obtain ⟨p, hp, heq⟩ := h.answer_complete hsane hq (Trace.ends_of_last? hlast) hcut hcs
      exact List.mem_map.mpr ⟨p, hp, heq⟩

theorem Script.acyclic_of_rank {s : Script} (rank : String → Nat)
    (h : ∀ i ∈ s.items, ∀ p ∈ i.defined, ∀ f ∈ condition? i, ∀ q ∈ formulaNames f, rank q < rank p)
    (p : String) : ¬ Relation.TransGen s.Calls p p := by
  have hlt : ∀ {p q : String}, Relation.TransGen s.Calls p q → rank q < rank p := by
    intro p q hpq
    induction hpq with
    | single hcall =>
      obtain ⟨i, hi, hp, f, hf, hq⟩ := hcall
      exact h i hi _ hp f hf _ hq
    | tail _ hcall ih =>
      obtain ⟨i, hi, hp, f, hf, hq⟩ := hcall
      exact Nat.lt_trans (h i hi _ hp f hf _ hq) ih
  exact fun hp => Nat.lt_irrefl _ (hlt hp)

def calmSource : String :=
  "edge(X, Y) -> eats(X, Y).\nnode(X), not eats(X, _) -> idle(X).\n" ++
    "query calm: node(X), not (eats(X, Y), not (idle(Y); eats(Y, X))).\n"

def calmRank (p : String) : Nat :=
  if p = "calm" then 3 else if p = "idle" then 2 else if p = "eats" then 1 else 0

theorem query_answers_closedWorld_calm :
    ∃ script program q I goal as s, Script.parse calmSource = .ok script ∧
      (Compiler.standard 16).compile calmSource = .ok program ∧
      (∀ w ∈ program.warnings, w.code ≠ "W004") ∧ script.isPlain true ∧ script.isGuarded ∧
      (∀ p, ¬ Relation.TransGen script.Calls p p) ∧ .query q ∈ script.items ∧
      script.ClosedWorld lineGraph I ∧ program.queryGoal? q.name = some goal ∧
      Solutions.collect? (program.engine lineGraph {}) 100 10 (.ofGoal goal) = some (as, s) ∧
      as.length = 2 ∧ s.run.tries < 2 ^ 32 ∧ ∀ a, a ∈ as ↔
      ∃ ρ : Assignment, (∃ alternative ∈ q.body.alternatives, I.AllTrue [] ρ [] alternative) ∧
      a = q.answer (q.headVariables.map ρ) := by
  obtain ⟨script, program, q, goal, as, s, hparse, hcompile, hwarnings, hchecks, hq, hgoal,
    hc, hlen, hcut, htries⟩ :=
    exists_answers_of_checks calmSource "calm" (fun s => s.isPlain true && (s.isGuarded && decide
      (∀ i ∈ s.items, ∀ p ∈ i.defined, ∀ f ∈ condition? i, ∀ q ∈ formulaNames f,
      calmRank q < calmRank p)))
      lineGraph 2 (by decide +kernel) (by decide +kernel)
  simp only [Bool.and_eq_true, decide_eq_true_eq] at hchecks
  obtain ⟨hplain, hguarded, hrank⟩ := hchecks
  have hacyclic := Script.acyclic_of_rank calmRank hrank
  obtain ⟨I, hI, _, goal', hgoal', _, hanswers⟩ :=
    query_answers_closedWorld hparse hcompile hwarnings hplain hguarded hacyclic hq lineGraph {} rfl
  cases hgoal.symm.trans hgoal'
  exact ⟨script, program, q, I, goal, as, s, hparse, hcompile, hwarnings, hplain, hguarded,
    hacyclic, hq, hI, hgoal, hc, hlen, htries, hanswers 100 10 as s hc hcut htries⟩

/-- The answer to the query of the tower is lost, since its last copy of a clause has the variables
of the first. -/
theorem query_answers_closedWorld_lost :
    ∃ script program q I goal budget n s, Script.parse towerSource = .ok script ∧
      (Compiler.standard 16).compile towerSource = .ok program ∧
      (∀ w ∈ program.warnings, w.code ≠ "W004") ∧ script.isPlain true ∧ script.isGuarded ∧
      (∀ p, ¬ Relation.TransGen script.Calls p p) ∧ .query q ∈ script.items ∧
      script.ClosedWorld towerGraph I ∧ program.queryGoal? q.name = some goal ∧
      Solutions.collect? (program.engine towerGraph {}) budget n (.ofGoal goal) = some ([], s) ∧
      s.depthExceeded = false ∧
      ∃ ρ : Assignment, ∃ alternative ∈ q.body.alternatives, I.AllTrue [] ρ [] alternative := by
  obtain ⟨script, program, q, htower⟩ := exists_isTowerScript
  have hwarnings : ∀ w ∈ program.warnings, w.code ≠ "W004" := by simp [htower.warnings]
  have h := Script.accepted_of_compile htower.parse htower.compile hwarnings (htower.plain true)
  have hguarded := Script.isGuarded_of_isPlain (htower.plain false)
  have hacyclic := Script.acyclic_of_rank towerRank htower.rank
  obtain ⟨I, hI⟩ := Script.exists_closedWorld hacyclic towerGraph
  obtain ⟨budget, s, hcompletes, hcut⟩ := htower.completes_name
  have hsane := h.sane_closedWorld hguarded hI {}
  rw [htower.engine_eq] at hsane
  have htrue := towerEngine_true hsane htower.derived
  rw [← htower.shape.1] at htrue
  obtain ⟨ρ, halternative, -⟩ := (h.query_iff hguarded hI htower.query _).mp htrue
  exact ⟨script, program, q, I, q.goal, budget, 1, s, htower.parse, htower.compile,
    hwarnings, htower.plain true, hguarded, hacyclic, htower.query, hI,
    h.queryGoal?_query htower.query,
    Solutions.collect?_of_completes rfl hcompletes, hcut, ρ, halternative⟩

end GraphRules
