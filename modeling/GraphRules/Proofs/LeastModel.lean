import GraphRules.Proofs.LongRuns
import GraphRules.Proofs.RangeRestriction
import GraphRules.Proofs.ScopeWords

/-! The least model of a list of clauses, and the answers to the queries of scripts without
negations: they are the tuples that the queries have in the least model of the program and the facts
about the graph. -/
namespace GraphRules

open Check Lowering Reference Search

namespace Interpretation

def Satisfies (I : Interpretation) (ρ : Assignment) (t : Term) : Prop :=
  ∃ s, t.signature? = some s ∧ I s.name (t.args.map (Term.constant ρ.toValuation))

/-- Interpretations in which every instance of a clause is true. -/
def IsModel (I : Interpretation) (cs : List Clause) : Prop :=
  ∀ c ∈ cs, ∀ s, c.signature? = some s → ∀ ρ : Assignment, (∀ t ∈ c.body, I.Satisfies ρ t) →
    I s.name (c.head.args.map (Term.constant ρ.toValuation))

/-- What is true in all models. -/
def leastModel (cs : List Clause) : Interpretation :=
  fun p as => ∀ I : Interpretation, I.IsModel cs → I p as

variable {I J : Interpretation} {cs : List Clause} {ρ : Assignment} {as : List Constant}

theorem Satisfies.mono (h : ∀ p as, I p as → J p as) {t : Term} (ht : I.Satisfies ρ t) :
    J.Satisfies ρ t := by
  obtain ⟨s, hs, hI⟩ := ht
  exact ⟨s, hs, h _ _ hI⟩

theorem leastModel_le (hI : I.IsModel cs) {p : String} (h : leastModel cs p as) : I p as := h I hI

theorem isModel_leastModel (cs : List Clause) : (leastModel cs).IsModel cs := by
  intro c hc s hs ρ hbody I hI
  exact hI c hc s hs ρ fun t ht => (hbody t ht).mono fun _ _ => leastModel_le hI

theorem arity_of_signature {t : Term} {s : Signature} (h : t.signature? = some s) :
    s.arity = t.args.length := by
  cases t <;> cases h <;> rfl

/-- What is true in the least model follows from a clause. -/
theorem leastModel_iff {p : String} :
    leastModel cs p as ↔ ∃ c ∈ cs, c.signature? = some ⟨p, as.length⟩ ∧
      ∃ ρ : Assignment, c.head.args.map (Term.constant ρ.toValuation) = as ∧
      ∀ t ∈ c.body, (leastModel cs).Satisfies ρ t := by
  constructor
  · -- the interpretation that has just what follows is a model itself
    let J : Interpretation := fun p as => ∃ c ∈ cs, c.signature? = some ⟨p, as.length⟩ ∧
      ∃ ρ : Assignment,
      c.head.args.map (Term.constant ρ.toValuation) = as ∧
        ∀ t ∈ c.body, (leastModel cs).Satisfies ρ t
    have hle : ∀ p as, J p as → leastModel cs p as := by
      rintro p as ⟨c, hc, hs, ρ, rfl, hbody⟩
      exact isModel_leastModel cs c hc _ hs ρ hbody
    refine leastModel_le (I := J) fun c hc s hs ρ hbody =>
      ⟨c, hc, ?_, ρ, rfl, fun t ht => (hbody t ht).mono hle⟩
    rw [hs, List.length_map, ← arity_of_signature hs]
  · rintro ⟨c, hc, hs, ρ, rfl, hbody⟩
    exact isModel_leastModel cs c hc _ hs ρ hbody

theorem holds_iff_satisfies {bound : Set String} {ts : List Term}
    (h : ∀ t ∈ ts, ∃ s, task t = .call s) : I.Holds ρ bound ts ↔ ∀ t ∈ ts, I.Satisfies ρ t := by
  induction ts generalizing bound with
  | nil => simp
  | cons t ts ih =>
    obtain ⟨s, hs⟩ := h t (by simp)
    have hsat : I.Satisfies ρ t ↔ I s.name (t.args.map (Term.constant ρ.toValuation)) := by
      rw [Satisfies, signature_of_task_call hs]
      simp
    rw [holds_call hs, ih fun u hu => h u (by simp [hu]), List.forall_mem_cons, hsat]

end Interpretation

def Term.IsCall (P : String → Prop) (t : Term) : Prop :=
  ∃ p args, P p ∧ args.all Term.isFlat ∧ t = .apply p args

theorem Literal.LowersAll.isCall {P : String → Bool} {a : List Literal} {ws : List String}
    {ts : List Term} (hlow : Literal.LowersAll a ws ts) (hsimple : ∀ l ∈ a, l.Simple P false) :
    ∀ t ∈ ts, t.IsCall (P ·) := by
  induction a generalizing ws ts with
  | nil => obtain ⟨_, rfl⟩ := hlow; simp
  | cons l a ih =>
    obtain ⟨ws₁, ws₂, t, rest, hl, hls, rfl, rfl⟩ := hlow
    refine List.forall_mem_cons.mpr ⟨?_, ih hls fun k hk => hsimple k (by simp [hk])⟩
    rcases hsimple l (by simp) with ⟨c, rfl, hp⟩ | ⟨f, s, rfl, hn, _⟩
    · obtain ⟨args, hargs, rfl⟩ := hl
      exact ⟨_, _, hp, hargs.all_isFlat, rfl⟩
    · cases hn

/-- Programs whose clauses for predicates in `P` have calls of such predicates for bodies, with a
model. -/
structure Engine.Definite (e : Engine) (P : String → Prop) (I : Interpretation) :
    Prop extends e.Functionless where
  task : ∀ p args, P p → task (.apply p args) = .call ⟨p, args.length⟩
  native : ∀ p n, P p → e.library.isForeign ⟨p, n⟩ = false
  calls : ∀ p n, P p → ∀ c ∈ e.clausesOf ⟨p, n⟩, ∀ t ∈ c.body, t.IsCall P
  model : ∀ s, ∀ c ∈ e.clausesOf s, ∀ ρ : Assignment, (∀ t ∈ c.body, I.Satisfies ρ t) →
    I s.name (c.head.args.map (Term.constant ρ.toValuation))

namespace Search

variable {e : Engine} {P : String → Prop} {I : Interpretation} {goal : Term} {outer : Bool}
  {b b' : Bindings} {g : Goal} {gs : List Goal} {items : List Item} {cs : List Term} {θ : Valuation}

def TrueAt (I : Interpretation) (θ : Valuation) (t : Term) : Prop :=
  ∃ s, t.signature? = some s ∧ I s.name (t.args.map (Term.constant θ))

theorem trueAt_apply {p : String} {args : List Term} :
    TrueAt I θ (.apply p args) ↔ I p (args.map (Term.constant θ)) := by
  simp [TrueAt, Term.signature_apply, Term.args_apply]

theorem trueAt_rename {t : Term} (ht : t.IsCall P) (m : Nat) :
    TrueAt I θ (t.rename m) ↔ I.Satisfies (inScope m θ) t := by
  obtain ⟨p, args, _, hargs, rfl⟩ := ht
  rw [Term.apply_rename, trueAt_apply, map_constant_inScope m θ args hargs]
  exact trueAt_apply.symm

/-- What a course leads to: calls are left, and where they are true the goal is. -/
structure Entails (I : Interpretation) (P : String → Prop) (goal : Term) (b : Bindings)
    (gs : List Goal) : Prop where
  calls : ∀ g ∈ gs, g.term.IsCall P
  holds : ∀ θ, b.Admits θ → (∀ g ∈ gs, TrueAt I θ g.term) → TrueAt I θ goal

theorem Entails.walk (h : Entails I P goal b (g :: gs)) (hprog : e.Definite P I) :
    ∃ p args, P p ∧ g.term = .apply p args ∧ b.walk g.term = .apply p args ∧
      task (b.walk g.term) = .call ⟨p, args.length⟩ := by
  obtain ⟨p, args, hp, -, hterm⟩ := h.calls g (by simp)
  have hwalk : b.walk g.term = .apply p args := by
    rw [hterm]
    exact Bindings.walk_nonvar b fun v hv => by cases args <;> cases hv
  exact ⟨p, args, hp, hterm, hwalk, hwalk ▸ hprog.task p args hp⟩

theorem Entails.task_eq (h : Entails I P goal b (g :: gs)) (hprog : e.Definite P I) {k : Task}
    (hk : task (b.walk g.term) = k) : ∃ s, k = .call s := by
  obtain ⟨p, args, -, -, -, htask⟩ := h.walk hprog
  exact ⟨_, hk.symm.trans htask⟩

/-- Whatever variables the copy of a clause shares with the goals, under values that its unification
admits the head is the call and follows from the body. -/
theorem Entails.clause (h : Entails I P goal b (g :: gs)) (hprog : e.Definite P I)
    (hu : Untangled b (.goal g :: items) cs) {s : Signature} {c : Clause} {m depth : Nat}
    (ht : task (b.walk g.term) = .call s) (hc : c ∈ e.clausesOf s)
    (hb : b.unify? (b.walk g.term) (c.rename m).head = some b') :
    Entails I P goal b' (opened c m depth ++ gs) := by
  obtain ⟨p, args, hp, hterm, hwalk, htask⟩ := h.walk hprog
  obtain ⟨p', args', heads, hcall, hargs, hhead, hheads, hunify⟩ :=
    hu.unify hprog.toFunctionless ht hc hb
  have hsame : (⟨p, args.length⟩ : Signature) = ⟨p', args'.length⟩ ∧ args = args' := by
    have heq := hwalk.symm.trans hcall
    refine ⟨Option.some.inj ?_, ?_⟩
    · rw [← Term.signature_apply, heq, Term.signature_apply]
    · rw [← Term.args_apply p args, heq, Term.args_apply]
  obtain ⟨hsig, rfl⟩ := hsame
  cases hsig
  cases ht.symm.trans htask
  have hbody := hprog.calls _ _ hp c hc
  have hopened : ∀ g ∈ opened c m depth, ∃ t ∈ c.body, g.term = t.rename m := by
    intro g hg
    obtain ⟨u, hu, rfl⟩ := List.mem_map.mp hg
    rw [Clause.rename, Term.renameList_eq_map] at hu
    obtain ⟨t, ht, rfl⟩ := List.mem_map.mp hu
    exact ⟨t, ht, rfl⟩
  constructor
  · intro g' hg'
    rcases List.mem_append.mp hg' with hg' | hg'
    · obtain ⟨t, ht, heq⟩ := hopened g' hg'
      obtain ⟨q, as, hq, has, rfl⟩ := hbody t ht
      exact ⟨q, Term.renameList m as, hq, (Term.all_isFlat_renameList m as).trans has,
        heq.trans (Term.apply_rename _ _ _)⟩
    · exact h.calls g' (by simp [hg'])
  · intro θ hθ htrue
    obtain ⟨hopen, hrest⟩ := List.forall_mem_append.mp htrue
    obtain ⟨hadmits, hvalues⟩ := (Bindings.admits_unifyAll hu.bindings hargs
      ((Term.all_isFlat_renameList m heads).trans hheads) hunify).mp hθ
    have hsatisfied : ∀ t ∈ c.body, I.Satisfies (inScope m θ) t := by
      intro t ht
      refine (trueAt_rename (hbody t ht) m).mp (hopen ⟨t.rename m, depth⟩ (List.mem_map_of_mem ?_))
      rw [Clause.rename, Term.renameList_eq_map]
      exact List.mem_map_of_mem ht
    have hheadtrue := hprog.model _ c hc (inScope m θ) hsatisfied
    rw [hhead, Term.args_apply, ← map_constant_inScope m θ heads hheads, ← hvalues] at hheadtrue
    refine h.holds θ hadmits (List.forall_mem_cons.mpr ⟨?_, hrest⟩)
    rw [hterm]
    exact trueAt_apply.mpr hheadtrue

/-- Every course from a call keeps to calls, and what it leaves to be solved entails the call. Only
clauses and the ends of calls can come in its way. -/
theorem Course.entails (hprog : e.Definite P I) (hgoal : goal.IsCall P)
    (h : Course e goal outer b items cs) : Entails I P goal b (goalsOf items) := by
  have htame : goal.Tame := by
    obtain ⟨p, args, -, hargs, rfl⟩ := hgoal
    exact .call p hargs
  induction h with
  | start => exact ⟨by simpa using hgoal, fun θ _ htrue => htrue ⟨goal, 0⟩ (by simp)⟩
  | done _ ht ih => cases (ih.task_eq hprog ht).choose_spec
  | both _ ht ih => cases (ih.task_eq hprog ht).choose_spec
  | left _ ht ih => cases (ih.task_eq hprog ht).choose_spec
  | right _ ht ih => cases (ih.task_eq hprog ht).choose_spec
  | negation _ ht ih => cases (ih.task_eq hprog ht).choose_spec
  | inside _ ht ih => cases (ih.task_eq hprog ht).choose_spec
  | comparison _ ht ih => cases (ih.task_eq hprog ht).choose_spec
  | foreign _ ht hc _ ih =>
    obtain ⟨p, args, hp, -, -, htask⟩ := ih.walk hprog
    cases ht.symm.trans htask
    have hforeign := hprog.native p args.length hp
    rw [Library.isForeign, Option.isSome_eq_false_iff, Option.isNone_iff_eq_none] at hforeign
    rw [Library.call, hforeign] at hc
    cases hc
  | clause h ht hc hb ih =>
    rw [goalsOf_append, goalsOf_map, goalsOf_exit]
    exact ih.clause hprog (h.untangled hprog.toFunctionless htame) ht hc hb
  | exit _ ih => exact ih

end Search

namespace Script.Accepted

variable {s : Script} {program : Program} {limits : Limits}

theorem isCall_body (h : s.Accepted program false) {p : String} (hp : s.isDerived p) {g : Graph}
    {n : Nat} {c : Clause} (hc : c ∈ (program.engine g limits).clausesOf ⟨p, n⟩) :
    ∀ t ∈ c.body, t.IsCall (s.isDerived ·) := by
  rcases h.clause_cases hp hc with hfact | ⟨head, a, ws, hd, hlow⟩
  · obtain ⟨name, ids, _, _, rfl⟩ := Program.shapeFacts_flat hfact
    exact nofun
  · exact hlow.body.isCall (h.derives_sound hd).2.2.2

/-- The least model agrees with the clauses of a script without negations. -/
theorem sane_leastModel (h : s.Accepted program false) (g : Graph) (limits : Limits) :
    Sane (program.engine g limits) (s.isDerived ·) false
      (Interpretation.leastModel (program.clauses ++ Standard.shapeFacts g)) := by
  refine h.sane fun p as hp => ?_
  have hclauses : ∀ c, c ∈ (program.engine g limits).clausesOf ⟨p, as.length⟩ ↔
      c ∈ program.clauses ++ Standard.shapeFacts g ∧
        c.signature? = some ⟨p, as.length⟩ := fun c => by
    rw [Program.mem_clausesOf_engine, List.mem_append, or_comm]
  have hcalls : ∀ c ∈ (program.engine g limits).clausesOf ⟨p, as.length⟩, ∀ t ∈ c.body,
      ∃ s, task t = .call s := by
    intro c hc t ht
    obtain ⟨q, args, hq, -, rfl⟩ := h.isCall_body hp hc t ht
    exact ⟨_, h.task_apply hq args⟩
  rw [Interpretation.leastModel_iff]
  constructor
  · rintro ⟨c, hc, hs, ρ, heq, hbody⟩
    have hc := (hclauses c).mpr ⟨hc, hs⟩
    exact ⟨c, hc, ρ, heq, (Interpretation.holds_iff_satisfies (hcalls c hc)).mpr hbody⟩
  · rintro ⟨c, hc, ρ, heq, hholds⟩
    obtain ⟨hmem, hs⟩ := (hclauses c).mp hc
    exact ⟨c, hmem, hs, ρ, heq, (Interpretation.holds_iff_satisfies (hcalls c hc)).mp hholds⟩

theorem definite (h : s.Accepted program false) (g : Graph) (limits : Limits) :
    (program.engine g limits).Definite (s.isDerived ·)
      (Interpretation.leastModel (program.clauses ++ Standard.shapeFacts g)) where
  toFunctionless := Program.functionless h.clauses g limits
  task p args hp := h.task_apply hp args
  native p n hp := h.isForeign_eq_false hp n g
  calls p n hp c hc := h.isCall_body hp hc
  model s c hc := by
    obtain ⟨hmem, hsig⟩ := Program.mem_clausesOf_engine.mp hc
    exact Interpretation.isModel_leastModel _ c (List.mem_append.mpr hmem.symm) s hsig

/-- A call of a predicate is no negation, so no derived predicate has the name of negation. -/
theorem not_referenced {negations : Bool} (h : s.Accepted program negations) :
    "not" ∉ referencedNames s.items := by
  intro hmem
  obtain ⟨i, hi, hmem⟩ := List.mem_flatMap.mp hmem
  cases hf : condition? i with
  | none => rw [hf] at hmem; cases hmem
  | some f =>
    rw [hf] at hmem
    have htask := h.task_apply (isDerived_of_isPlain h.plain hi hf hmem) [.atom "a"]
    cases htask

/-- What the search answers is true in the least model, also where copies of clauses share variables
with the goals. -/
theorem answer_leastModel (h : s.Accepted program false) (hground : s.Restricted program)
    {q : Query} (hq : .query q ∈ s.items) {g : Graph} {r : Run}
    (hr : Reachable (program.engine g limits) q.goal true r) (hnil : r.goals = []) :
    ∃ cs, Interpretation.leastModel (program.clauses ++ Standard.shapeFacts g) q.name cs ∧
      .ofVariables (Solutions.ofGoal q.goal).vars r.bindings = q.answer cs := by
  have htame : q.goal.Tame := .call q.name q.all_isFlat_named
  have hgoal : q.goal.IsCall (s.isDerived ·) :=
    ⟨_, _, h.isDerived_query hq, q.all_isFlat_named, rfl⟩
  obtain ⟨items, cs, hcourse, hgoals⟩ := hr.explained.goals
  have htidy := (hcourse.untangled (h.definite g limits).toFunctionless htame).bindings
  have hadmits := Bindings.admits_complete htidy default
  generalize r.bindings.complete default = θ at hadmits
  have htrue :=
    (hcourse.entails (h.definite g limits) hgoal).holds θ hadmits (by simp [hgoals, hnil])
  rw [Query.goal, trueAt_apply, List.map_map] at htrue
  refine ⟨q.headVariables.map (inScope 0 θ), htrue, Query.ofVariables_eq_answer fun x hx => ?_⟩
  -- no variable of the query is left open, so its value under the valuation is what it is bound to
  have hmem : .var ⟨x, 0⟩ ∈ q.goal.args := by
    rw [Query.goal, Term.args_apply]
    exact List.mem_map_of_mem hx
  obtain ⟨k, hk⟩ := hr.resolve_goal (hground.grounding g limits) htame (h.task_goal hq) hnil hmem
  have hvalue := hadmits.walk (.var ⟨x, 0⟩)
  rw [← Bindings.resolve_of_flat htidy rfl, hk] at hvalue
  have hconst : k = θ ⟨x, 0⟩ := by cases k <;> exact hvalue
  rw [hk, hconst]
  rfl

end Script.Accepted

/-- Answers to a query of a script without negations are tuples of the query in the least model of
the program and the facts about the graph. The search comes to its end, and if nothing was cut then
and fewer clauses were tried than there are scopes to tell their copies apart, every tuple is among
the answers. -/
theorem query_answers_leastModel {source : String} {script : Script} {program : Program}
    {threshold : Nat} {q : Query} (hparse : Script.parse source = .ok script)
    (hcompile : (Compiler.standard threshold).compile source = .ok program)
    (hwarnings : ∀ w ∈ program.warnings, w.code ≠ "W004") (hplain : script.isPlain false)
    (hq : .query q ∈ script.items) (g : Graph) (limits : Limits) :
    ∃ goal, program.queryGoal? q.name = some goal ∧
      (∀ budget n, ∀ a ∈ (Solutions.take (program.engine g limits) budget n (.ofGoal goal)).1,
        ∃ cs, Interpretation.leastModel (program.clauses ++ Standard.shapeFacts g) q.name cs ∧
          a = q.answer cs) ∧
      (limits.solutions? = none →
        (∃ m, ∀ budget ≥ m, ∀ n ≥ m,
          (Solutions.collect? (program.engine g limits) budget n (.ofGoal goal)).isSome) ∧
        ∀ budget n as s, Solutions.collect? (program.engine g limits) budget n (.ofGoal goal) =
          some (as, s) → s.depthExceeded = false → s.run.tries < 2 ^ 32 →
          ∀ cs, Interpretation.leastModel (program.clauses ++ Standard.shapeFacts g) q.name cs →
            q.answer cs ∈ as) := by
  have h := Script.accepted_of_compile hparse hcompile hwarnings hplain
  have hsane := h.sane_leastModel g limits
  refine ⟨q.goal, h.queryGoal?_query hq, fun budget n a ha => ?_, fun hlimit =>
    ⟨?_, fun budget n as s hc hcut htries => ?_⟩⟩
  · obtain ⟨r, hr, hnil, rfl⟩ := (Solutions.isReachable_ofGoal _ q.goal).mem_take ha
    exact h.answer_leastModel
      (Script.restricted_of_compile hparse hcompile hwarnings h.not_referenced) hq hr hnil
  · obtain ⟨k, hends⟩ := Program.solveGoal_ends h.clauses g limits (.call q.name q.all_isFlat_named)
    exact Engine.isSome_collect_of_ends hlimit hends
  · intro cs hcs
    obtain ⟨hlast, rfl, hexceeded⟩ :=
      Engine.solveGoal_shared_of_collect hlimit hc htries (Nat.le_refl _)
    obtain ⟨p, hp, heq⟩ :=
      h.answer_complete hsane hq (Trace.ends_of_last? hlast) (hexceeded.symm.trans hcut) hcs
    exact List.mem_map.mpr ⟨p, hp, heq⟩

def reachSource : String :=
  "edge(X, Y) -> path(X, Y).\nedge(X, Z), path(Z, Y) -> path(X, Y).\n" ++
    "query reach: path(a, X), edge(_P, X), (node(X); edge(X, _)).\n"

theorem query_answers_leastModel_reach :
    ∃ script program q goal as s, Script.parse reachSource = .ok script ∧
      (Compiler.standard 16).compile reachSource = .ok program ∧
      (∀ w ∈ program.warnings, w.code ≠ "W004") ∧ script.isPlain false ∧ .query q ∈ script.items ∧
      program.queryGoal? q.name = some goal ∧
      Solutions.collect? (program.engine lineGraph {}) 100 10 (.ofGoal goal) = some (as, s) ∧
      as.length = 3 ∧ s.run.tries < 2 ^ 32 ∧
      ∀ cs, Interpretation.leastModel (program.clauses ++ Standard.shapeFacts lineGraph) q.name cs →
      q.answer cs ∈ as := by
  obtain ⟨script, program, q, goal, as, s, hparse, hcompile, hwarnings, hplain, hq, hgoal,
    hc, hlen, hcut, htries⟩ :=
    exists_answers_of_checks reachSource "reach" (·.isPlain false) lineGraph 3
      (by decide +kernel) (by decide +kernel)
  obtain ⟨goal', hgoal', _, hcomplete⟩ :=
    query_answers_leastModel hparse hcompile hwarnings hplain hq lineGraph {}
  cases hgoal.symm.trans hgoal'
  exact ⟨script, program, q, goal, as, s, hparse, hcompile, hwarnings, hplain, hq, hgoal, hc, hlen,
    htries, (hcomplete rfl).2 100 10 as s hc hcut htries⟩

/-- The answer to the query of the tower is lost: as many clauses are tried as there are scopes, and
the copy of the last of them has the variables of the first. -/
theorem query_answers_leastModel_lost :
    ∃ script program q goal budget n s cs, Script.parse towerSource = .ok script ∧
      (Compiler.standard 16).compile towerSource = .ok program ∧
      (∀ w ∈ program.warnings, w.code ≠ "W004") ∧ script.isPlain false ∧ .query q ∈ script.items ∧
      program.queryGoal? q.name = some goal ∧
      Solutions.collect? (program.engine towerGraph {}) budget n (.ofGoal goal) = some ([], s) ∧
      s.depthExceeded = false ∧
      Interpretation.leastModel (program.clauses ++ Standard.shapeFacts towerGraph) q.name cs := by
  obtain ⟨script, program, q, htower⟩ := exists_isTowerScript
  have hwarnings : ∀ w ∈ program.warnings, w.code ≠ "W004" := by simp [htower.warnings]
  have h := Script.accepted_of_compile htower.parse htower.compile hwarnings (htower.plain false)
  obtain ⟨budget, s, hcompletes, hcut⟩ := htower.completes_name
  have hsane := h.sane_leastModel towerGraph {}
  rw [htower.engine_eq] at hsane
  have htrue := towerEngine_true hsane htower.derived
  rw [← htower.shape.1] at htrue
  exact ⟨script, program, q, q.goal, budget, 1, s, _, htower.parse, htower.compile,
    hwarnings, htower.plain false, htower.query, h.queryGoal?_query htower.query,
    Solutions.collect?_of_completes rfl hcompletes, hcut, htrue⟩

end GraphRules
