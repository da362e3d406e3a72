import GraphRules.Proofs.Conditions
import GraphRules.Proofs.QueryAnswers

/-! What the bodies of a compiled program ask for. Taken apart as the search takes it apart, a body
comes to comparisons, to predicates of the vocabulary and to predicates that the program has a
clause for. -/
namespace GraphRules

open Check Lowering Search

namespace Search

def Task.parts : Task → List Term
  | .both a b => [a, b]
  | .either a b => [a, b]
  | .negation a => [a]
  | _ => []

/-- The search for a goal comes to another by taking it apart. -/
inductive Reduces : Term → Term → Prop
  | self (t : Term) : Reduces t t
  | part {t a u : Term} (ha : a ∈ (task t).parts) (hu : Reduces a u) : Reduces t u

variable {t u : Term}

theorem Reduces.trans {s : Term} (h : Reduces s t) (h' : Reduces t u) : Reduces s u := by
  induction h with
  | self => exact h'
  | part ha _ ih => exact .part ha (ih h')

theorem Reduces.eq_of_parts (h : Reduces t u) (ht : (task t).parts = []) : u = t := by
  cases h with
  | self => rfl
  | part ha _ => rw [ht] at ha; cases ha

theorem parts_of_isFlat (h : t.isFlat) : (task t).parts = [] := by
  cases t with
  | atom a => rw [task_atom]; split_ifs <;> rfl
  | number x => rfl
  | var v => rfl
  | compound f as => cases h

theorem Reduces.of_pair {a b : Term} (h : Reduces t u) (ht : (task t).parts = [a, b])
    (hu : (task u).parts = []) : Reduces a u ∨ Reduces b u := by
  cases h with
  | self => rw [ht] at hu; cases hu
  | part hc h =>
    rw [ht] at hc
    rcases List.mem_pair.mp hc with rfl | rfl
    · exact .inl h
    · exact .inr h

theorem Reduces.join {op unit : String} {join : List Term → Term} (hj : Term.Joins op unit join)
    (hunit : (task (.atom unit)).parts = [])
    (hop : ∀ a b, (task (.compound op [a, b])).parts = [a, b]) (hu : (task u).parts = [])
    {ts : List Term} (h : Reduces (join ts) u) :
    u = .atom unit ∨ ∃ t ∈ ts, Reduces (join ts) t ∧ Reduces t u := by
  induction ts with
  | nil =>
    rw [hj.nil] at h
    exact .inl (h.eq_of_parts hunit)
  | cons t ts ih =>
    cases ts with
    | nil =>
      rw [hj.one] at h ⊢
      exact .inr ⟨t, by simp, .self t, h⟩
    | cons t' ts =>
      have hparts := hop t (join (t' :: ts))
      rw [hj.cons] at h ⊢
      rcases h.of_pair hparts hu with h | h
      · exact .inr ⟨t, by simp, .part (by simp [hparts]) (.self t), h⟩
      · refine (ih h).imp_right fun ⟨s, hs, hto, h⟩ => ⟨s, List.mem_cons_of_mem _ hs, ?_, h⟩
        exact .part (by simp [hparts]) hto

end Search

/-- A goal of the language itself: a comparison, or what is always true or false. -/
def Term.IsControl (t : Term) : Prop :=
  (∃ op ∈ comparisonNames, t.signature? = some ⟨op, 2⟩) ∨
    ∃ x ∈ ["true", "fail", "false"], t.signature? = some ⟨x, 0⟩

/-- A goal that has the place of a formula under `not`, where one of some calls has an argument
instead. -/
def Term.IsDenied (u t : Term) (cs : List Call) : Prop :=
  Reduces t (.compound "not" [u]) ∧ ∃ c ∈ cs, c.name = "not" ∧ ∃ x ws, c.args = [x] ∧ x.Lowers ws u

def Term.ComesFrom (u t : Term) (cs : List Call) : Prop :=
  u.IsControl ∨ (∃ c ∈ cs, u.signature? = some ⟨c.name, c.arity⟩) ∨ u.IsDenied t cs

variable {t u : Term} {ts : List Term} {ws : List String}

theorem Term.ComesFrom.mono {s : Term} {cs ds : List Call} (h : u.ComesFrom t cs) (hr : Reduces s t)
    (hsub : cs ⊆ ds) : u.ComesFrom s ds := by
  rcases h with h | ⟨c, hc, h⟩ | ⟨hnot, c, hc, h⟩
  · exact .inl h
  · exact .inr (.inl ⟨c, hsub hc, h⟩)
  · exact .inr (.inr ⟨hr.trans hnot, c, hsub hc, h⟩)

/-- Names are no connectives, so of calls only those of `not` are taken apart. -/
theorem parts_apply {p : String} (hp : Script.IsName p) (hparts : (task (.apply p ts)).parts ≠ []) :
    p = "not" ∧ ∃ t, ts = [t] ∧ (task (.apply p ts)).parts = [t] := by
  have hsymbols := hp.not_mem_symbols
  simp only [List.mem_append, List.mem_cons, List.not_mem_nil, or_false, not_or] at hsymbols
  rcases ts with _ | ⟨t, _ | ⟨t', _ | ⟨t'', ts⟩⟩⟩
  · exact (hparts (parts_of_isFlat rfl)).elim
  · by_cases hnot : p = "not"
    · subst hnot
      exact ⟨rfl, t, rfl, rfl⟩
    · simp [Term.apply, task_one, hnot, Task.parts] at hparts
  · simp [Term.apply, task_two, hsymbols, Task.parts] at hparts
  · rw [Term.apply, task_other p (by simp) (by simp)] at hparts
    · exact (hparts rfl).elim
    · simp

theorem Search.Reduces.call {c : Call} (hname : Script.IsName c.name)
    (hts : Arg.LowersAll c.args ws ts) (hu : (task u).parts = [])
    (h : Reduces (.apply c.name ts) u) : u.ComesFrom (.apply c.name ts) [c] := by
  by_cases hparts : (task (.apply c.name ts)).parts = []
  · obtain rfl := h.eq_of_parts hparts
    refine .inr (.inl ⟨c, by simp, ?_⟩)
    rw [Term.signature_apply, hts.length_eq]
    rfl
  · obtain ⟨hnot, t, rfl, hpart⟩ := parts_apply hname hparts
    have hflat : t.isFlat := by simpa using hts.all_isFlat
    cases h with
    | self => exact (hparts hu).elim
    | part ha h =>
      rw [hpart, List.mem_singleton] at ha
      subst ha
      obtain rfl := h.eq_of_parts (parts_of_isFlat hflat)
      generalize hargs : c.args = as at hts
      cases hts with
      | cons hx hrest =>
        cases hrest
        exact .inr (.inr ⟨by rw [hnot]; exact .self _, c, by simp, hnot, _, _, hargs, hx⟩)

mutual

theorem Literal.Lowers.comesFrom {u : Term} (hu : (task u).parts = []) :
    ∀ {l : Literal} {ws : List String} {t : Term},
    l.Lowers ws t → (∀ c ∈ l.calls, Script.IsName c.name) → Reduces t u → u.ComesFrom t l.calls
  | .call c, _, _, h, hnames, hr => by
    obtain ⟨ts, hts, rfl⟩ := h
    exact hr.call (hnames c (by simp [Literal.calls])) hts hu
  | .negated f _, _, _, h, hnames, hr => by
    obtain ⟨t, ht, rfl⟩ := h
    cases hr with
    | self => cases hu
    | part ha hr =>
      obtain rfl := List.mem_singleton.mp ha
      exact (Formula.Lowers.comesFrom hu ht hnames hr).mono
        (.part ha (.self _)) (List.Subset.refl _)
  | .compare c, _, _, h, _, hr => by
    obtain ⟨l, r, _, rfl⟩ := h
    have hop : ∀ op : Comparator, op.symbol ∈ comparisonNames ∧
        (task (.compound op.symbol [l, r])).parts = [] := by
      intro op
      cases op <;> exact ⟨by decide, rfl⟩
    rw [hr.eq_of_parts (hop c.op).2]
    exact .inl (.inl ⟨c.op.symbol, (hop c.op).1, rfl⟩)
  | .group f, _, _, h, hnames, hr => Formula.Lowers.comesFrom (f := f) hu h hnames hr

theorem Formula.Lowers.comesFrom {u : Term} (hu : (task u).parts = []) :
    ∀ {f : Formula} {ws : List String} {t : Term},
    f.Lowers ws t → (∀ c ∈ f.calls, Script.IsName c.name) → Reduces t u → u.ComesFrom t f.calls
  | .mk ds _, _, _, h, hnames, hr => by
    obtain ⟨ts, hts, rfl⟩ := h
    rcases hr.join .disjunction rfl (fun _ _ => rfl) hu with rfl | ⟨t, ht, hto, hr⟩
    · exact .inl (.inr ⟨"fail", by simp, rfl⟩)
    · exact (Formula.LowersAny.comesFrom hu hts hnames ht hr).mono hto (List.Subset.refl _)

theorem Formula.LowersAny.comesFrom {u : Term} (hu : (task u).parts = []) :
    ∀ {ds : List (List Literal)} {ws : List String} {ts : List Term}, Formula.LowersAny ds ws ts →
      (∀ c ∈ Formula.callsAny ds, Script.IsName c.name) → ∀ {t : Term}, t ∈ ts → Reduces t u →
        u.ComesFrom t (Formula.callsAny ds)
  | [], _, _, h, _, _, ht, _ => by obtain ⟨_, rfl⟩ := h; cases ht
  | c :: cs, _, _, h, hnames, t, ht, hr => by
    obtain ⟨ws₁, ws₂, us, rest, hc, hcs, rfl, rfl⟩ := h
    rcases List.mem_cons.mp ht with rfl | ht
    · rcases hr.join .conjunction rfl (fun _ _ => rfl) hu with rfl | ⟨t', ht', hto, hr⟩
      · exact .inl (.inr ⟨"true", by simp, rfl⟩)
      · exact (Literal.LowersAll.comesFrom hu hc (fun k hk => hnames k (List.mem_append_left _ hk))
          ht' hr).mono
          hto (List.subset_append_left _ _)
    · exact (Formula.LowersAny.comesFrom hu hcs (fun k hk => hnames k (List.mem_append_right _ hk))
        ht hr).mono
        (.self t) (List.subset_append_right _ _)

theorem Literal.LowersAll.comesFrom {u : Term} (hu : (task u).parts = []) :
    ∀ {ls : List Literal} {ws : List String} {ts : List Term}, Literal.LowersAll ls ws ts →
      (∀ c ∈ Literal.callsAll ls, Script.IsName c.name) → ∀ {t : Term}, t ∈ ts → Reduces t u →
        u.ComesFrom t (Literal.callsAll ls)
  | [], _, _, h, _, _, ht, _ => by obtain ⟨_, rfl⟩ := h; cases ht
  | l :: ls, _, _, h, hnames, t, ht, hr => by
    obtain ⟨ws₁, ws₂, t', rest, hl, hls, rfl, rfl⟩ := h
    rcases List.mem_cons.mp ht with rfl | ht
    · exact (Literal.Lowers.comesFrom hu hl (fun k hk => hnames k (List.mem_append_left _ hk))
        hr).mono
        (.self _) (List.subset_append_left _ _)
    · exact (Literal.LowersAll.comesFrom hu hls (fun k hk => hnames k (List.mem_append_right _ hk))
        ht hr).mono
        (.self t) (List.subset_append_right _ _)

end

theorem Literal.LowersAll.exists_of_mem {ls : List Literal} (h : Literal.LowersAll ls ws ts)
    (ht : t ∈ ts) : ∃ l ∈ ls, ∃ ws, l.Lowers ws t := by
  induction ls generalizing ws ts with
  | nil =>
    obtain ⟨_, rfl⟩ := h
    cases ht
  | cons l ls ih =>
    obtain ⟨ws₁, ws₂, t', rest, hl, hls, rfl, rfl⟩ := h
    rcases List.mem_cons.mp ht with rfl | ht
    · exact ⟨l, by simp, ws₁, hl⟩
    · obtain ⟨k, hk, hlow⟩ := ih hls ht
      exact ⟨k, by simp [hk], hlow⟩

/-- The body of a clause is that of a label, or an alternative of the item's formula, or there is
none. -/
theorem Lowering.body_cases {i : Item} {c : Clause} (hc : c ∈ itemClauses i) :
    (∃ d l, i = .labels d ∧ l ∈ d.labels ∧ c = labelClause d.kind l) ∨ c.body = [] ∨
      ∃ f a ws, condition? i = some f ∧ a ∈ f.alternatives ∧ Literal.LowersAll a ws c.body := by
  cases i with
  | labels d =>
    obtain ⟨l, hl, rfl⟩ := List.mem_map.mp hc
    exact .inl ⟨d, l, rfl, hl, rfl⟩
  | rule r =>
    simp only [itemClauses, ruleClauses] at hc
    cases hr : r.antecedent? with
    | none =>
      rw [hr] at hc
      obtain ⟨h, _, rfl⟩ := List.mem_map.mp hc
      exact .inr (.inl rfl)
    | some f =>
      rw [hr] at hc
      obtain ⟨h, _, hc⟩ := List.mem_flatMap.mp hc
      obtain ⟨a, ha, rfl⟩ := List.mem_map.mp hc
      obtain ⟨ws, hbody, _⟩ :=
        lowerLiterals_spec (h.vars ++ Literal.varsAll a) a (lowerCall _ h 0).2
      exact .inr (.inr ⟨f, a, ws, hr, ha, hbody⟩)
  | query q =>
    rcases List.mem_cons.mp hc with rfl | hc
    · exact .inr (.inl rfl)
    · obtain ⟨a, ha, rfl⟩ := List.mem_map.mp hc
      obtain ⟨ws, hbody, _⟩ := lowerLiterals_spec (Literal.varsAll a) a 0
      exact .inr (.inr ⟨q.body, a, ws, rfl, ha, hbody⟩)

/-- A goal that is no variable and no number, and asks for something there is: a comparison, what is
always true or false, a predicate of the vocabulary or one that the program has a clause for. -/
def Program.Knows (p : Program) (v : Vocabulary) (t : Term) : Prop :=
  t.IsControl ∨ ∃ s, t.signature? = some s ∧
    ((v.role? s).isSome ∨ ∃ c ∈ p.clauses, c.signature? = some s)

def Lowering.labelSignatures (kind : LabelKind) : List Signature :=
  [⟨kind.predicate, 1⟩, ⟨"attribute", 3⟩]

theorem Lowering.reduces_labelClause {kind : LabelKind} {l : Label}
    (ht : t ∈ (labelClause kind l).body) (hr : Reduces t u) :
    ∃ s ∈ labelSignatures kind, u.signature? = some s := by
  simp only [labelClause, List.mem_cons, List.not_mem_nil, or_false] at ht
  rcases ht with rfl | rfl
  · have hparts : (task (.compound kind.predicate [.named "X"])).parts = [] := by cases kind <;> rfl
    rw [hr.eq_of_parts hparts]
    exact ⟨_, List.mem_cons_self, rfl⟩
  · rw [hr.eq_of_parts rfl]
    exact ⟨⟨"attribute", 3⟩, by simp [labelSignatures], rfl⟩

/-- Taken apart as the search does it, the body of a clause of a compiled program has only goals
that the program or the vocabulary knows. The clauses of labels ask for the shape and the attributes
of the graph without looking them up in the vocabulary, and an argument that `not` is applied to
like a predicate becomes a goal as it is. -/
theorem body_goals_known {v : Vocabulary} {threshold : Nat} {source : String}
    {script : Script} {program : Program} (hparse : Script.parse source = .ok script)
    (hcompile : (Compiler.ofVocabulary v threshold).compile source = .ok program) {c : Clause}
    (hc : c ∈ program.clauses) {t u : Term} (ht : t ∈ c.body) (hr : Reduces t u)
    (hu : (task u).parts = []) : program.Knows (Compiler.ofVocabulary v threshold).vocabulary u ∨
      (∃ d l, .labels d ∈ script.items ∧ l ∈ d.labels ∧ c = labelClause d.kind l ∧
        ∃ s ∈ labelSignatures d.kind, u.signature? = some s) ∨
      ∃ i ∈ script.items, c ∈ itemClauses i ∧ ∃ f, condition? i = some f ∧
        ∃ a ∈ f.alternatives, ∃ l ∈ a, (∃ ws, l.Lowers ws t) ∧ u.IsDenied t l.calls := by
  obtain ⟨hok, hclauses, _⟩ := Compiler.compile_eq_ok hparse hcompile
  rw [hclauses] at hc
  obtain ⟨i, hi, hc⟩ := List.mem_flatMap.mp hc
  rcases body_cases hc with ⟨d, l, rfl, hl, rfl⟩ | hbody | ⟨f, a, ws, hf, ha, hlow⟩
  · exact .inr (.inl ⟨d, l, hi, hl, rfl, reduces_labelClause ht hr⟩)
  · rw [hbody] at ht
    cases ht
  · have hnames := (Script.yields_condition.parse hparse i hi f hf).names
    obtain ⟨l, hl, ws', hlit⟩ := hlow.exists_of_mem ht
    have hsub : l.calls ⊆ f.calls :=
      fun k hk => Formula.callsAll_subset ha (Literal.calls_subset_callsAll hl hk)
    rcases hlit.comesFrom hu (fun k hk => hnames k (hsub hk)) hr with
      hcontrol | ⟨k, hk, hsig⟩ | hdenied
    · exact .inl (.inl hcontrol)
    · refine .inl (.inr ⟨_, hsig, ?_⟩)
      rw [hclauses]
      exact (Script.refers_of_check hparse hok hi hf (hsub hk)).imp_right And.right
    · exact .inr (.inr ⟨i, hi, hc, f, hf, a, ha, l, hl, ⟨ws', hlit⟩, hdenied⟩)

theorem Compiler.exists_parse_of_compile {c : Compiler} {source : String} {program : Program}
    (h : c.compile source = .ok program) : ∃ s, Script.parse source = .ok s := by
  unfold Compiler.compile at h
  cases hparse : Script.parse source with
  | error ds => rw [hparse] at h; cases h
  | ok s => exact ⟨s, rfl⟩

def busySource : String :=
  "node labels: wolf.\nwolf(X), not (busy(X); is_leaf(X)), degree(X, D), D >= 2 -> idle(X).\n" ++
    "query busy: edge(X, _), (wolf(X); not idle(X)).\n"

theorem body_goals_known_busy :
    ∃ script program c t u, Script.parse busySource = .ok script ∧
      (Compiler.ofVocabulary Standard.declarations.vocabulary 16).compile busySource = .ok program ∧
      c ∈ program.clauses ∧ t ∈ c.body ∧ Reduces t u ∧ (task u).parts = [] ∧
        u.signature? = some ⟨"is_leaf", 1⟩ ∧
      (program.Knows (Compiler.standard 16).vocabulary u ∨
        (∃ d l, .labels d ∈ script.items ∧ l ∈ d.labels ∧ c = labelClause d.kind l ∧
          ∃ s ∈ labelSignatures d.kind, u.signature? = some s) ∨
        ∃ i ∈ script.items, c ∈ itemClauses i ∧ ∃ f, condition? i = some f ∧
          ∃ a ∈ f.alternatives, ∃ l ∈ a, (∃ ws, l.Lowers ws t) ∧ u.IsDenied t l.calls) := by
  obtain ⟨program, hcompile, hgoal⟩ :=
    exists_ok_of_any (r := (Compiler.standard 16).compile busySource)
    (P := fun p => p.clauses.any fun c => c.body.any fun t => (task t).parts.any fun t' =>
      (task t').parts.any fun u =>
      (task u).parts.isEmpty && u.signature? = some ⟨"is_leaf", 1⟩) (by decide +kernel)
  obtain ⟨script, hparse⟩ := Compiler.exists_parse_of_compile hcompile
  obtain ⟨c, hc, hgoal⟩ := List.any_eq_true.mp hgoal
  obtain ⟨t, ht, hgoal⟩ := List.any_eq_true.mp hgoal
  obtain ⟨t', ht', hgoal⟩ := List.any_eq_true.mp hgoal
  obtain ⟨u, hu, hgoal⟩ := List.any_eq_true.mp hgoal
  obtain ⟨hempty, hsig⟩ := Bool.and_eq_true_iff.mp hgoal
  have hparts := List.isEmpty_iff.mp hempty
  have hr : Reduces t u := .part ht' (.part hu (.self u))
  exact ⟨script, program, c, t, u, hparse, hcompile, hc, ht, hr, hparts, of_decide_eq_true hsig,
    body_goals_known hparse hcompile hc ht hr hparts⟩

/-- Without the shape of the graph in the vocabulary, the clause of a label asks for a predicate
that nothing knows. And where `not` is applied to a variable, the search comes to the variable
itself. -/
theorem body_goals_unknown :
    (∃ program c t, (Compiler.ofVocabulary {} 16).compile "node labels: wolf." = .ok program ∧
      c ∈ program.clauses ∧
      t ∈ c.body ∧ (task t).parts = [] ∧
        ¬ program.Knows (Compiler.ofVocabulary {} 16).vocabulary t) ∧
    ∃ program c t u, (Compiler.standard 16).compile "node(X), not(X) -> odd(X)." = .ok program ∧
      c ∈ program.clauses ∧
      t ∈ c.body ∧ Reduces t u ∧ (task u).parts = [] ∧
        ¬ program.Knows (Compiler.standard 16).vocabulary u := by
  constructor
  · obtain ⟨program, hcompile, hgoal⟩ := exists_ok_of_any
      (r := (Compiler.ofVocabulary {} 16).compile "node labels: wolf.")
      (P := fun p =>
        p.clauses.all (fun c => c.signature? ≠ some ⟨"node", 1⟩) && p.clauses.any fun c =>
          c.body.any fun t =>
        (task t).parts.isEmpty && t.signature? = some ⟨"node", 1⟩) (by decide +kernel)
    obtain ⟨hnone, hgoal⟩ := Bool.and_eq_true_iff.mp hgoal
    obtain ⟨c, hc, hgoal⟩ := List.any_eq_true.mp hgoal
    obtain ⟨t, ht, hgoal⟩ := List.any_eq_true.mp hgoal
    obtain ⟨hparts, hsig⟩ := Bool.and_eq_true_iff.mp hgoal
    have hsig := of_decide_eq_true hsig
    refine ⟨program, c, t, hcompile, hc, ht, List.isEmpty_iff.mp hparts, ?_⟩
    rintro ((⟨op, hop, hs⟩ | ⟨x, hx, hs⟩) | ⟨s, hs, hrole | ⟨c', hc', hs'⟩⟩)
    · rw [hsig] at hs; cases hs
    · rw [hsig] at hs; cases hs
    · rw [hsig] at hs
      cases hs
      revert hrole
      decide
    · rw [hsig] at hs
      cases hs
      exact of_decide_eq_true (List.all_eq_true.mp hnone c' hc') hs'
  · obtain ⟨program, hcompile, hgoal⟩ := exists_ok_of_any
      (r := (Compiler.standard 16).compile "node(X), not(X) -> odd(X).")
      (P := fun p => p.clauses.any fun c => c.body.any fun t => (task t).parts.any fun u =>
        (task u).parts.isEmpty && u.signature?.isNone) (by decide +kernel)
    obtain ⟨c, hc, hgoal⟩ := List.any_eq_true.mp hgoal
    obtain ⟨t, ht, hgoal⟩ := List.any_eq_true.mp hgoal
    obtain ⟨u, hu, hgoal⟩ := List.any_eq_true.mp hgoal
    obtain ⟨hempty, hnone⟩ := Bool.and_eq_true_iff.mp hgoal
    refine ⟨program, c, t, u, hcompile, hc, ht, .part hu (.self u), List.isEmpty_iff.mp hempty, ?_⟩
    rintro ((⟨op, hop, hs⟩ | ⟨x, hx, hs⟩) | ⟨s, hs, _⟩) <;> rw [hs] at hnone <;> cases hnone

end GraphRules
