import GraphRules.Proofs.Acceptance
import GraphRules.Proofs.Lowered
import GraphRules.Proofs.Reading

/-! The calls in the formulas of a script. Their names start with a small letter, and in a script
that passes the check each of them is known to the vocabulary or defined by a clause of the program.
-/
namespace GraphRules

open Check Lowering

mutual

def Literal.calls : Literal → List Call
  | .call c => [c]
  | .negated f _ => f.calls
  | .compare _ => []
  | .group f => f.calls

def Formula.calls : Formula → List Call
  | .mk ds _ => Formula.callsAny ds

def Formula.callsAny : List (List Literal) → List Call
  | [] => []
  | c :: cs => Literal.callsAll c ++ Formula.callsAny cs

def Literal.callsAll : List Literal → List Call
  | [] => []
  | l :: ls => l.calls ++ Literal.callsAll ls

end

mutual

theorem Literal.names_eq_map_calls : ∀ l : Literal, literalNames l = l.calls.map Call.name
  | .call _ => rfl
  | .negated f _ => Formula.names_eq_map_calls f
  | .compare _ => rfl
  | .group f => Formula.names_eq_map_calls f

theorem Formula.names_eq_map_calls : ∀ f : Formula, formulaNames f = f.calls.map Call.name
  | .mk ds _ => Formula.namesAny_eq_map_calls ds

theorem Formula.namesAny_eq_map_calls :
    ∀ ds : List (List Literal), disjunctNames ds = (Formula.callsAny ds).map Call.name
  | [] => rfl
  | c :: cs => by
    rw [disjunctNames, Formula.callsAny, List.map_append, Literal.namesAll_eq_map_calls c,
      Formula.namesAny_eq_map_calls cs]

theorem Literal.namesAll_eq_map_calls :
    ∀ ls : List Literal, literalsNames ls = (Literal.callsAll ls).map Call.name
  | [] => rfl
  | l :: ls => by
    rw [literalsNames, Literal.callsAll, List.map_append, Literal.names_eq_map_calls l,
      Literal.namesAll_eq_map_calls ls]

end

theorem Literal.callsAll_append (a b : List Literal) :
    Literal.callsAll (a ++ b) = Literal.callsAll a ++ Literal.callsAll b := by
  induction a with
  | nil => rfl
  | cons l a ih => simp [Literal.callsAll, ih]

theorem Literal.calls_subset_callsAll {l : Literal} {ls : List Literal} (h : l ∈ ls) :
    l.calls ⊆ Literal.callsAll ls := by
  obtain ⟨before, after, rfl⟩ := List.append_of_mem h
  rw [Literal.callsAll_append, Literal.callsAll]
  exact List.subset_append_of_subset_right _ (List.subset_append_left _ _)

mutual

theorem Literal.callsAll_subset :
    ∀ {l : Literal} {a : List Literal}, a ∈ l.alternatives → Literal.callsAll a ⊆ l.calls
  | .call c, a, h => by obtain rfl := List.mem_singleton.mp h; simp [Literal.callsAll]
  | .negated f s, a, h => by obtain rfl := List.mem_singleton.mp h; simp [Literal.callsAll]
  | .compare c, a, h => by obtain rfl := List.mem_singleton.mp h; simp [Literal.callsAll]
  | .group f, a, h => Formula.callsAll_subset (f := f) h

theorem Formula.callsAll_subset :
    ∀ {f : Formula} {a : List Literal}, a ∈ f.alternatives → Literal.callsAll a ⊆ f.calls
  | .mk ds _, _, h => Formula.callsAll_subset_any (show _ ∈ Formula.alternativesAny ds from h)

theorem Formula.callsAll_subset_any : ∀ {ds : List (List Literal)} {a : List Literal},
    a ∈ Formula.alternativesAny ds → Literal.callsAll a ⊆ Formula.callsAny ds
  | [], _, h => by cases h
  | c :: cs, a, h => by
    rcases List.mem_append.mp h with h | h
    · exact List.subset_append_of_subset_left _ (Literal.callsAll_subset_all h)
    · exact List.subset_append_of_subset_right _ (Formula.callsAll_subset_any h)

theorem Literal.callsAll_subset_all : ∀ {ls a : List Literal}, a ∈ Literal.alternativesAll ls →
    Literal.callsAll a ⊆ Literal.callsAll ls
  | [], _, h => by obtain rfl := List.mem_singleton.mp h; exact List.Subset.refl _
  | l :: ls, a, h => by
    obtain ⟨x, hx, h⟩ := List.mem_flatMap.mp h
    obtain ⟨y, hy, rfl⟩ := List.mem_map.mp h
    have hleft := Literal.callsAll_subset hx
    have hright := Literal.callsAll_subset_all hy
    rw [Literal.callsAll_append]
    exact List.append_subset.mpr
      ⟨List.subset_append_of_subset_left _ hleft, List.subset_append_of_subset_right _ hright⟩

end

structure Formula.Readable (f : Formula) : Prop where
  alternatives_ne : f.alternatives ≠ []
  names : ∀ c ∈ f.calls, Script.IsName c.name

namespace Script

theorem yields_literal_names {f : Reader Formula}
    (h : Yields f fun g => ∀ c ∈ g.calls, IsName c.name) :
    Yields (literal f) fun l => ∀ c ∈ l.calls, IsName c.name := by
  have hgroup : Yields (group f) fun g => ∀ c ∈ g.calls, IsName c.name :=
    .after fun _ => .after fun _ => h.bind fun g hg => .after fun _ =>
      .after fun _ => yields_pure hg
  have hcall : Yields (do let c ← call; pure (Formula.mk [[.call c]] c.span)) fun g =>
    ∀ c ∈ g.calls, IsName c.name :=
    yields_call.bind fun c hc =>
      yields_pure (by simpa [Formula.calls, Formula.callsAny, Literal.callsAll, Literal.calls])
  have hdenied : Yields (denied f) fun g => ∀ c ∈ g.calls, IsName c.name := hgroup.orElse hcall
  have hinner : Yields (do keyword "not"; blanks; denied f) fun g => ∀ c ∈ g.calls, IsName c.name :=
    .after fun _ => .after fun _ => hdenied
  refine Yields.orElse ?_ (.orElse ?_ (.orElse ?_ ?_))
  · exact hinner.spanned.bind fun x hx => yields_pure hx
  · exact (yields_true _).map fun c _ => nofun
  · exact hgroup.map fun g hg => hg
  · exact yields_call.map fun c hc => by simpa [Literal.calls]

theorem yields_formulaDepth_names (n : Nat) :
    Yields (formulaDepth n) fun f => ∀ c ∈ f.calls, IsName c.name := by
  induction n with
  | zero => intro c a c' ha; cases ha
  | succ n ih =>
    have hparts := (((yields_literal_names ih).separated ",").separated ";").spanned
    refine hparts.bind fun x hx => yields_pure ?_
    have hall : ∀ ls : List Literal, (∀ l ∈ ls, ∀ c ∈ l.calls, IsName c.name) →
        ∀ c ∈ Literal.callsAll ls, IsName c.name := by
      intro ls hls
      induction ls with
      | nil => exact nofun
      | cons l ls ih =>
        have hrest := ih fun k hk => hls k (by simp [hk])
        simpa [Literal.callsAll, or_imp, forall_and] using ⟨hls l (by simp), hrest⟩
    have hany : ∀ ds : List (List Literal), (∀ d ∈ ds, ∀ l ∈ d, ∀ c ∈ l.calls, IsName c.name) →
        ∀ c ∈ Formula.callsAny ds, IsName c.name := by
      intro ds hds
      induction ds with
      | nil => exact nofun
      | cons d ds ih =>
        have hrest := ih fun k hk => hds k (by simp [hk])
        simpa [Formula.callsAny, or_imp, forall_and] using ⟨hall d (hds d (by simp)), hrest⟩
    exact hany x.1 fun d hd => (hx.2 d hd).2

theorem yields_formula_readable : Yields formula Formula.Readable := fun c f c' hf =>
  ⟨yields_formula c f c' hf, yields_formulaDepth_names _ c f c' hf⟩

theorem yields_condition : Yields item fun i => ∀ f, condition? i = some f → f.Readable := by
  refine Yields.orElse ?_ (.orElse ?_ ?_)
  · exact .after fun x => yields_pure nofun
  · have hparts : Yields (do
        keyword "query"
        blanks
        let n ← spanned name
        blanks
        exactly ":"
        blanks
        let body ← formula
        blanks
        exactly "."
        pure (n, body)) fun x => x.2.Readable :=
      .after fun _ => .after fun _ => .after fun _ => .after fun _ =>
        .after fun _ => .after fun _ =>
        yields_formula_readable.bind fun f hf => .after fun _ => .after fun _ => yields_pure hf
    refine hparts.spanned.bind fun x hx => yields_pure fun f hf => ?_
    cases hf
    exact hx
  · have hantecedent : Yields antecedent Formula.Readable :=
      yields_formula_readable.bind fun f hf => .after fun _ => .after fun _ => yields_pure hf
    have hparts : Yields (do
        let antecedent? ← optional antecedent
        blanks
        let consequence ← separated "," call
        blanks
        exactly "."
        pure (antecedent?, consequence)) fun x => ∀ f ∈ x.1, f.Readable :=
      hantecedent.optional.bind fun f? hf => .after fun _ => .after fun _ => .after fun _ =>
        .after fun _ => yields_pure hf
    exact hparts.spanned.bind fun x hx => yields_pure fun f hf => hx f hf

end Script

namespace Check

variable {v : Vocabulary} {ds : List Definition} {d : Definition}

def Refers (v : Vocabulary) (ds : List Definition) (c : Call) : Prop :=
  (v.role? ⟨c.name, c.arity⟩).isSome ∨
    v.containsName c.name = false ∧ ∃ d ∈ ds, d.name = c.name ∧ d.arity = c.arity

theorem refers_of_freeOf {c : Call} (h : FreeOf Finding.IsError (referenceFindings v ds c)) :
    Refers v ds c := by
  unfold referenceFindings at h
  split_ifs at h with hname
  · cases hrole : v.role? ⟨c.name, c.arity⟩ with
    | some role => exact .inl (by rw [hrole]; rfl)
    | none =>
      rw [hrole] at h
      exact (h _ (List.mem_singleton_self _) rfl).elim
  · refine .inr ⟨by simpa using hname, ?_⟩
    cases hfind : findDefinition? ds c.name with
    | none =>
      rw [hfind] at h
      exact (h _ (List.mem_singleton_self _) rfl).elim
    | some d =>
      rw [hfind] at h
      dsimp only at h
      split_ifs at h with harity
      · exact ⟨d, List.mem_of_find?_eq_some hfind, by simpa using List.find?_some hfind, harity⟩
      · exact (h _ (List.mem_singleton_self _) rfl).elim

mutual

theorem refers_of_literal : ∀ {l : Literal}, FreeOf Finding.IsError (literalFindings v ds l) →
    ∀ c ∈ l.calls, Refers v ds c
  | .call c, h, _, hk => by rw [List.mem_singleton.mp hk]; exact refers_of_freeOf h
  | .negated f _, h, c, hc => refers_of_formula (f := f) h c hc
  | .compare _, _, _, hc => by cases hc
  | .group f, h, c, hc => refers_of_formula (f := f) h c hc

theorem refers_of_formula : ∀ {f : Formula}, FreeOf Finding.IsError (formulaFindings v ds f) →
    ∀ c ∈ f.calls, Refers v ds c
  | .mk _ _, h, c, hc => refers_of_disjuncts h c hc

theorem refers_of_disjuncts :
    ∀ {cs : List (List Literal)}, FreeOf Finding.IsError (disjunctFindings v ds cs) →
    ∀ c ∈ Formula.callsAny cs, Refers v ds c
  | [], _, _, hc => by cases hc
  | _ :: _, h, c, hc =>
    (List.mem_append.mp hc).elim (refers_of_literals h.left c) (refers_of_disjuncts h.right c)

theorem refers_of_literals :
    ∀ {ls : List Literal}, FreeOf Finding.IsError (literalsFindings v ds ls) →
    ∀ c ∈ Literal.callsAll ls, Refers v ds c
  | [], _, _, hc => by cases hc
  | _ :: _, h, c, hc =>
    (List.mem_append.mp hc).elim (refers_of_literal h.left c) (refers_of_literals h.right c)

end

theorem refers_of_item {i : Item} (h : FreeOf Finding.IsError (itemFindings v ds i)) {f : Formula}
    (hf : condition? i = some f) : ∀ c ∈ f.calls, Refers v ds c := by
  cases i with
  | labels d => cases hf
  | rule r =>
    have hrest := h.right
    simp only [show r.antecedent? = some f from hf] at hrest
    exact refers_of_formula hrest.left.left
  | query q =>
    cases hf
    exact refers_of_formula h.left

theorem definition_mem_of_define {e : Entry} (hd : d ∈ (define v ds e).1) :
    d ∈ ds ∨ e = .definition d := by
  unfold define at hd
  split at hd
  · exact .inl hd
  · next d' =>
    split_ifs at hd
    · exact .inl hd
    · split at hd
      · rcases List.mem_append.mp hd with hd | hd
        · exact .inl hd
        · exact .inr (by rw [List.mem_singleton.mp hd])
      · exact .inl hd

theorem definition_mem_of_defineAll {es : List Entry} (hd : d ∈ (defineAll v ds es).1) :
    d ∈ ds ∨ .definition d ∈ es := by
  induction es generalizing ds with
  | nil => exact .inl hd
  | cons e es ih =>
    rcases ih hd with hd | hd
    · rcases definition_mem_of_define hd with hd | rfl
      · exact .inl hd
      · exact .inr (by simp)
    · exact .inr (by simp [hd])

end Check

theorem Arg.LowersAll.length_eq {as : List Arg} {ws : List String} {ts : List Term}
    (h : Arg.LowersAll as ws ts) : ts.length = as.length := by
  induction h with
  | nil => rfl
  | cons _ _ ih => simp [ih]

/-- Where the script defines a predicate, it has a clause for it. -/
theorem Lowering.exists_clause_of_entry {i : Item}
    (hi : ∀ f, condition? i = some f → f.alternatives ≠ []) {d : Definition}
    (hd : .definition d ∈ entries i) :
    ∃ c ∈ itemClauses i, c.signature? = some ⟨d.name, d.arity⟩ := by
  cases i with
  | labels decl =>
    obtain ⟨l, hl, he⟩ := List.mem_map.mp hd
    unfold labelEntry at he
    split_ifs at he
    cases he
    exact ⟨_, List.mem_map_of_mem hl, rfl⟩
  | rule r =>
    obtain ⟨h, hh, he⟩ := List.mem_map.mp hd
    cases he
    have hhead : ∀ taken, ((lowerCall taken h 0).1).signature? = some ⟨h.name, h.arity⟩ := by
      intro taken
      obtain ⟨_, ts, hts, hcall, _⟩ := lowerCall_spec taken h 0
      rw [hcall, Term.signature_apply, hts.length_eq]
      rfl
    simp only [itemClauses, ruleClauses]
    cases hr : r.antecedent? with
    | none => exact ⟨_, List.mem_map_of_mem hh, hhead _⟩
    | some f =>
      obtain ⟨a, ha⟩ := List.exists_mem_of_ne_nil _ (hi f hr)
      exact ⟨_, List.mem_flatMap.mpr ⟨h, hh, List.mem_map_of_mem ha⟩, hhead _⟩
  | query q =>
    obtain ⟨a, ha⟩ := List.exists_mem_of_ne_nil _ (hi q.body rfl)
    cases List.mem_singleton.mp hd
    refine ⟨_, List.mem_cons_of_mem _ (List.mem_map_of_mem ha), ?_⟩
    rw [queryClause, Clause.signature?, Term.signature_apply, List.length_map]

/-- Calls of a script that passed the check are known, or there is a clause for them. -/
theorem Script.refers_of_check {v : Vocabulary} {source : String} {s : Script}
    (hparse : Script.parse source = .ok s) (hok : (s.check v).isOk) {i : Item} (hi : i ∈ s.items)
    {f : Formula} (hf : condition? i = some f) {c : Call} (hc : c ∈ f.calls) :
    (v.role? ⟨c.name, c.arity⟩).isSome ∨
      v.containsName c.name = false ∧
        ∃ c' ∈ s.items.flatMap itemClauses, c'.signature? = some ⟨c.name, c.arity⟩ := by
  have hfree := (freeOf_errors hok).left
  refine (refers_of_item (freeOf_itemFindings hfree.right hi) hf c
    hc).imp_right fun ⟨hunknown, d, hd, hname, harity⟩ =>
    ⟨hunknown, ?_⟩
  have hentry := (definition_mem_of_defineAll hd).resolve_left List.not_mem_nil
  obtain ⟨j, hj, hentry⟩ := List.mem_flatMap.mp hentry
  obtain ⟨c', hc', hsig⟩ := Lowering.exists_clause_of_entry
    (fun g hg => (Script.yields_condition.parse hparse j hj g hg).alternatives_ne) hentry
  exact ⟨c', List.mem_flatMap.mpr ⟨j, hj, hc'⟩, by rw [hsig, hname, harity]⟩

end GraphRules
