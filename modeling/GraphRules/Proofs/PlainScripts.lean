import GraphRules.Proofs.Correctness
import GraphRules.Proofs.Programs

/-! Scripts that speak of the shape of the graph alone: their rules and queries call only structural
predicates and predicates that other rules and queries define, and compare nothing. When such a
script passes the check, its clauses are safe. -/
namespace GraphRules

open Check Lowering Search

mutual

/-- Whether a literal calls only predicates in `P`. It may have no comparisons, and negations only
where they are allowed. -/
def Literal.uses (P : String → Bool) (negations : Bool) : Literal → Bool
  | .call c => P c.name
  | .negated f _ => negations && f.uses P negations
  | .compare _ => false
  | .group f => f.uses P negations

def Formula.uses (P : String → Bool) (negations : Bool) : Formula → Bool
  | .mk ds _ => Formula.usesAny P negations ds

def Formula.usesAny (P : String → Bool) (negations : Bool) : List (List Literal) → Bool
  | [] => true
  | c :: cs => Literal.usesAll P negations c && Formula.usesAny P negations cs

def Literal.usesAll (P : String → Bool) (negations : Bool) : List Literal → Bool
  | [] => true
  | l :: ls => l.uses P negations && Literal.usesAll P negations ls

end

def Item.defined : Item → List String
  | .labels _ => []
  | .rule r => r.consequence.map Call.name
  | .query q => [q.name]

def Item.labelled : Item → List String
  | .labels d => d.labels.map Label.predicate
  | .rule _ => []
  | .query _ => []

def structuralNames : List String := ["graph", "node", "edge"]

namespace Script

/-- Predicates that are structural, or defined by rules and queries and by no label. -/
def isDerived (s : Script) (p : String) : Bool :=
  decide (p ∈ structuralNames) ||
    (decide (p ∈ s.items.flatMap Item.defined) && !decide (p ∈ s.items.flatMap Item.labelled))

/-- The conditions of rules and queries use derived predicates only. -/
def isPlain (s : Script) (negations : Bool) : Bool :=
  (s.items.filterMap condition?).all (Formula.uses s.isDerived negations)

end Script

section Names

variable {P : String → Bool} {negations : Bool}

mutual

theorem Literal.uses_names : ∀ {l : Literal}, l.uses P negations → ∀ q ∈ literalNames l, P q
  | .call c, h, q, hq => by
    obtain rfl := List.mem_singleton.mp hq
    exact h
  | .negated f _, h, q, hq => by
    rw [Literal.uses, Bool.and_eq_true] at h
    exact Formula.uses_names h.2 q hq
  | .compare c, h, _, _ => by cases h
  | .group f, h, q, hq => Formula.uses_names (f := f) h q hq

theorem Formula.uses_names : ∀ {f : Formula}, f.uses P negations → ∀ q ∈ formulaNames f, P q
  | .mk ds _, h, q, hq => Formula.usesAny_names (show Formula.usesAny P negations ds from h) q hq

theorem Formula.usesAny_names :
    ∀ {ds : List (List Literal)}, Formula.usesAny P negations ds → ∀ q ∈ disjunctNames ds, P q
  | [], _, _, hq => by cases hq
  | c :: cs, h, q, hq => by
    rw [Formula.usesAny, Bool.and_eq_true] at h
    exact (List.mem_append.mp hq).elim (Literal.usesAll_names h.1 q) (Formula.usesAny_names h.2 q)

theorem Literal.usesAll_names :
    ∀ {ls : List Literal}, Literal.usesAll P negations ls → ∀ q ∈ literalsNames ls, P q
  | [], _, _, hq => by cases hq
  | l :: ls, h, q, hq => by
    rw [Literal.usesAll, Bool.and_eq_true] at h
    exact (List.mem_append.mp hq).elim (Literal.uses_names h.1 q) (Literal.usesAll_names h.2 q)

end

end Names

namespace Script

theorem isDerived_of_isPlain {s : Script} {negations : Bool} (hplain : s.isPlain negations)
    {i : Item} (hi : i ∈ s.items) {f : Formula} (hf : condition? i = some f) {p : String}
    (hp : p ∈ formulaNames f) : s.isDerived p :=
  Formula.uses_names (List.all_eq_true.mp hplain f (List.mem_filterMap.mpr ⟨i, hi, hf⟩)) p hp

end Script

section Alternatives

variable {P : String → Bool} {negations : Bool}

def Literal.Simple (P : String → Bool) (negations : Bool) (l : Literal) : Prop :=
  (∃ c, l = .call c ∧ P c.name) ∨ ∃ f s, l = .negated f s ∧ negations ∧ f.uses P negations

mutual

theorem Literal.simple_of_mem_alternatives :
    ∀ {l : Literal}, l.uses P negations → ∀ a ∈ l.alternatives, ∀ k ∈ a, k.Simple P negations
  | .call c, h, a, ha, k, hk => by
    obtain rfl := List.mem_singleton.mp ha
    obtain rfl := List.mem_singleton.mp hk
    exact .inl ⟨c, rfl, h⟩
  | .negated f s, h, a, ha, k, hk => by
    obtain rfl := List.mem_singleton.mp ha
    obtain rfl := List.mem_singleton.mp hk
    rw [Literal.uses, Bool.and_eq_true] at h
    exact .inr ⟨f, s, rfl, h⟩
  | .compare c, h, _, _, _, _ => by cases h
  | .group f, h, a, ha, k, hk => Formula.simple_of_mem_alternatives (f := f) h a ha k hk

theorem Formula.simple_of_mem_alternatives :
    ∀ {f : Formula}, f.uses P negations → ∀ a ∈ f.alternatives, ∀ k ∈ a, k.Simple P negations
  | .mk ds _, h, a, ha, k, hk =>
    Formula.simple_of_mem_alternativesAny (show Formula.usesAny P negations ds from h) a ha k hk

theorem Formula.simple_of_mem_alternativesAny :
    ∀ {ds : List (List Literal)}, Formula.usesAny P negations ds →
    ∀ a ∈ Formula.alternativesAny ds, ∀ k ∈ a, k.Simple P negations
  | [], _, _, ha, _, _ => by cases ha
  | c :: cs, h, a, ha, k, hk => by
    rw [Formula.usesAny, Bool.and_eq_true] at h
    rcases List.mem_append.mp ha with ha | ha
    · exact Literal.simple_of_mem_alternativesAll h.1 a ha k hk
    · exact Formula.simple_of_mem_alternativesAny h.2 a ha k hk

theorem Literal.simple_of_mem_alternativesAll :
    ∀ {ls : List Literal}, Literal.usesAll P negations ls →
    ∀ a ∈ Literal.alternativesAll ls, ∀ k ∈ a, k.Simple P negations
  | [], _, a, ha, k, hk => by
    obtain rfl := List.mem_singleton.mp ha
    cases hk
  | l :: ls, h, a, ha, k, hk => by
    rw [Literal.usesAll, Bool.and_eq_true] at h
    obtain ⟨x, hx, ha⟩ := List.mem_flatMap.mp ha
    obtain ⟨y, hy, rfl⟩ := List.mem_map.mp ha
    rcases List.mem_append.mp hk with hk | hk
    · exact Literal.simple_of_mem_alternatives h.1 x hx k hk
    · exact Literal.simple_of_mem_alternativesAll h.2 y hy k hk

end

end Alternatives

def Term.Secure (P : String → Prop) (negations : Bool) (seen bound : Set String) (t : Term) :
    Prop :=
  ∀ (bound' : Set String) (rest : List Term), bound ⊆ bound' →
    (∀ bound'', bound' ⊆ bound'' → Safe P negations seen bound'' rest) →
      Safe P negations seen bound' (t :: rest)

namespace Term

variable {P : String → Prop} {negations : Bool} {seen bound : Set String}

theorem Secure.both {s t : Term} (hs : s.Secure P negations seen bound)
    (ht : t.Secure P negations seen bound) :
    (compound "," [s, t]).Secure P negations seen bound := by
  intro bound' rest hb hrest
  refine .both rfl (hs bound' _ hb fun bound'' hb' => ?_)
  exact ht bound'' rest (hb.trans hb') fun bound₃ hb₃ => hrest bound₃ (hb'.trans hb₃)

theorem secure_conjunction {ts : List Term} (h : ∀ t ∈ ts, t.Secure P negations seen bound) :
    (conjunction ts).Secure P negations seen bound :=
  Joins.conjunction.induct (fun bound' _ _ hrest => .done rfl (hrest bound' subset_rfl)) .both h

theorem secure_disjunction {ts : List Term} (h : ∀ t ∈ ts, t.Secure P negations seen bound) :
    (disjunction ts).Secure P negations seen bound :=
  Joins.disjunction.induct (fun bound' rest _ _ => .failing bound' rest rfl nofun)
    (fun hs ht bound' rest hb hrest =>
      .either rfl (hs bound' rest hb hrest) (ht bound' rest hb hrest)) h

theorem secure_call {p : String} (hp : P p) {args : List Term} (h : args.all isFlat) :
    (Term.apply p args).Secure P negations seen bound :=
  fun _ _ _ hrest => .call hp h (hrest _ Set.subset_union_left)

theorem Secure.negation (hn : negations) {a : Term} (h : a.Secure P negations seen bound)
    (hv : ∀ v ∈ a.occurrences, v.name ∈ seen → v.name ∈ bound) :
    (Term.compound "not" [a]).Secure P negations seen bound :=
  fun bound' _ hb hrest =>
    .negation rfl hn (fun v hv' hs => hb (hv v hv' hs)) (h bound' [] hb fun _ _ =>
      .nil _) (hrest bound' subset_rfl)

end Term

section Safety

variable {P : String → Bool} {negations : Bool} {seen bound : Set String} {outside : List String}
  {after before : List Literal}

mutual

/-- Below a negation, nothing is left to ask of variables that are seen from outside: they are all
bound there. -/
theorem Literal.Lowers.secure :
    ∀ {l : Literal} {ws : List String} {t : Term}, l.Lowers ws t → l.uses P negations →
      (∀ x ∈ l.vars, x ∈ seen → x ∈ bound) → (∀ w ∈ ws, w ∉ seen) →
      t.Secure (P ·) negations seen bound
  | .call c, _, _, h, hu, _, _ => by
    obtain ⟨ts, hts, rfl⟩ := h
    exact Term.secure_call hu hts.all_isFlat
  | .negated f _, _, _, h, hu, hb, hw => by
    obtain ⟨u, hf, rfl⟩ := h
    rw [Literal.uses, Bool.and_eq_true] at hu
    refine Term.Secure.negation hu.1 (Formula.Lowers.secure hf hu.2 hb hw) fun v hv hs => ?_
    rcases ((Formula.Lowers.mem_occurrences hf v).mp hv).2 with hx | hx
    · exact hb v.name hx hs
    · exact (hw v.name hx hs).elim
  | .compare c, _, _, _, hu, _, _ => by cases hu
  | .group f, _, _, h, hu, hb, hw => Formula.Lowers.secure (f := f) h hu hb hw

theorem Formula.Lowers.secure :
    ∀ {f : Formula} {ws : List String} {t : Term}, f.Lowers ws t → f.uses P negations →
      (∀ x ∈ f.vars, x ∈ seen → x ∈ bound) → (∀ w ∈ ws, w ∉ seen) →
      t.Secure (P ·) negations seen bound
  | .mk ds _, _, _, h, hu, hb, hw => by
    obtain ⟨ts, hts, rfl⟩ := h
    exact Term.secure_disjunction (Formula.LowersAny.secure hts hu hb hw)

theorem Formula.LowersAny.secure :
    ∀ {ds : List (List Literal)} {ws : List String} {ts : List Term}, Formula.LowersAny ds ws ts →
      Formula.usesAny P negations ds → (∀ x ∈ Formula.varsAll ds, x ∈ seen → x ∈ bound) →
      (∀ w ∈ ws, w ∉ seen) → ∀ t ∈ ts, t.Secure (P ·) negations seen bound
  | [], _, _, h, _, _, _ => by obtain ⟨_, rfl⟩ := h; exact nofun
  | c :: cs, _, _, h, hu, hb, hw => by
    obtain ⟨ws₁, ws₂, us, rest, hc, hcs, rfl, rfl⟩ := h
    rw [Formula.usesAny, Bool.and_eq_true] at hu
    refine List.forall_mem_cons.mpr
      ⟨Term.secure_conjunction (Literal.LowersAll.secure hc hu.1 ?_ ?_),
      Formula.LowersAny.secure hcs hu.2 ?_ ?_⟩
    · exact fun x hx => hb x (List.mem_append_left _ hx)
    · exact fun w hw' => hw w (List.mem_append_left _ hw')
    · exact fun x hx => hb x (List.mem_append_right _ hx)
    · exact fun w hw' => hw w (List.mem_append_right _ hw')

theorem Literal.LowersAll.secure :
    ∀ {ls : List Literal} {ws : List String} {ts : List Term}, Literal.LowersAll ls ws ts →
      Literal.usesAll P negations ls → (∀ x ∈ Literal.varsAll ls, x ∈ seen → x ∈ bound) →
      (∀ w ∈ ws, w ∉ seen) → ∀ t ∈ ts, t.Secure (P ·) negations seen bound
  | [], _, _, h, _, _, _ => by obtain ⟨_, rfl⟩ := h; exact nofun
  | l :: ls, _, _, h, hu, hb, hw => by
    obtain ⟨ws₁, ws₂, t, rest, hl, hls, rfl, rfl⟩ := h
    rw [Literal.usesAll, Bool.and_eq_true] at hu
    refine List.forall_mem_cons.mpr ⟨Literal.Lowers.secure hl hu.1 ?_ ?_,
      Literal.LowersAll.secure hls hu.2 ?_ ?_⟩
    · exact fun x hx => hb x (List.mem_append_left _ hx)
    · exact fun w hw' => hw w (List.mem_append_left _ hw')
    · exact fun x hx => hb x (List.mem_append_right _ hx)
    · exact fun w hw' => hw w (List.mem_append_right _ hw')

end

theorem Literal.mem_varsAll_of_boundBy {ls : List Literal} {x : String} (h : x ∈ boundBy ls) :
    x ∈ Literal.varsAll ls := by
  induction ls with
  | nil => cases h
  | cons l ls ih =>
    rw [boundBy, List.flatMap_cons, List.mem_append] at h
    refine List.mem_append.mpr (h.imp (fun h => ?_) ih)
    cases l with
    | call c => exact h
    | negated f s => cases h
    | compare c => cases h
    | group f => cases h

theorem boundBy_append (ls ls' : List Literal) : boundBy (ls ++ ls') = boundBy ls ++ boundBy ls' :=
  List.flatMap_append

theorem Check.hazardsFrom_negated {f : Formula} {s : Span}
    (h : hazardsFrom outside before (.negated f s :: after) = []) {x : String} (hx : x ∈ f.vars)
    (helsewhere : x ∈ outside ++ Literal.varsAll before ++ Literal.varsAll after) :
    x ∈ boundBy before := by
  by_contra hb
  have hmem : x ∈ f.vars.filter fun y =>
      y ∈ outside ++ Literal.varsAll before ++ Literal.varsAll after && y ∉ boundBy before := by
    rw [List.mem_filter, Bool.and_eq_true, decide_eq_true_eq, decide_eq_true_eq]
    exact ⟨hx, helsewhere, hb⟩
  rw [List.map_eq_nil_iff.mp (List.append_eq_nil_iff.mp h).1] at hmem
  cases hmem

/-- The goals of an alternative are safe from left to right: what the check found no hazard in has
its variables bound when it is reached. -/
theorem safe_of_hazardsFrom {ws : List String} {ts : List Term}
    (hlow : Literal.LowersAll after ws ts) (hsimple : ∀ l ∈ after, l.Simple P negations)
    (hseen : ∀ x ∈ seen, x ∈ outside ∨ x ∈ boundBy (before ++ after)) (hws : ∀ w ∈ ws, w ∉ seen)
    (hbound : ∀ x ∈ boundBy before, x ∈ bound) (h : hazardsFrom outside before after = []) :
    Safe (P ·) negations seen bound ts := by
  induction after generalizing before bound ws ts with
  | nil => obtain ⟨_, rfl⟩ := hlow; exact .nil bound
  | cons l after ih =>
    obtain ⟨ws₁, ws₂, t, rest, hl, hls, rfl, rfl⟩ := hlow
    have hthere := (List.append_eq_nil_iff.mp h).2
    have hrest : ∀ bound' : Set String, (∀ x ∈ boundBy (before ++ [l]), x ∈ bound') →
        Safe (P ·) negations seen bound' rest := fun bound' hbound' =>
      ih hls (fun k hk => hsimple k (by simp [hk])) (by simpa using hseen)
        (fun w hw => hws w (List.mem_append_right _ hw)) hbound' hthere
    rcases hsimple l (by simp) with ⟨c, rfl, hp⟩ | ⟨f, s, rfl, hn, hf⟩
    · obtain ⟨args, hargs, rfl⟩ := hl
      refine .call hp hargs.all_isFlat (hrest _ fun x hx => ?_)
      rw [boundBy_append, List.mem_append] at hx
      rcases hx with hx | hx
      · exact .inl (hbound x hx)
      · refine .inr ⟨⟨x, 0⟩, ?_, rfl⟩
        rw [Term.occurrences_apply]
        exact (hargs.mem_occurrences ⟨x, 0⟩).mpr ⟨rfl,
          .inl (by simpa [boundBy, Call.vars] using hx)⟩
    · obtain ⟨u, hu, rfl⟩ := hl
      have hknown : ∀ x ∈ f.vars, x ∈ seen → x ∈ bound := by
        intro x hx hs
        by_cases hb : x ∈ boundBy before
        · exact hbound x hb
        refine hbound x (hazardsFrom_negated h hx ?_)
        rcases hseen x hs with ho | ho
        · exact List.mem_append_left _ (List.mem_append_left _ ho)
        · rw [boundBy_append, List.mem_append] at ho
          exact List.mem_append_right _ (Literal.mem_varsAll_of_boundBy (ho.resolve_left hb))
      have hwild : ∀ w ∈ ws₁, w ∉ seen := fun w hw => hws w (List.mem_append_left _ hw)
      refine (Term.Secure.negation hn (hu.secure hf hknown hwild) fun v hv hs => ?_)
        bound rest subset_rfl
        fun bound' hb => hrest bound' fun x hx => ?_
      · rcases ((hu.mem_occurrences v).mp hv).2 with hx | hx
        · exact hknown v.name hx hs
        · exact (hwild v.name hx hs).elim
      · rw [boundBy_append, List.mem_append] at hx
        rcases hx with hx | hx
        · exact hb (hbound x hx)
        · cases hx

end Safety

end GraphRules
