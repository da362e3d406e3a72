import GraphRules.Proofs.Lowered

/-! Two lowerings of the same formula differ in the names of wildcards only: they are copies of each
other, under any renaming that pairs the names of their wildcards one after the other. -/
namespace GraphRules

variable {R : Var → Var → Prop} {m : Nat} {as : List Arg} {ts ts' : List Term}
  {ws ws' : List String} {t t' : Term}

theorem forall₂_of_append {α β : Type} {r : α → β → Prop} {as as' : List α} {bs bs' : List β}
    (hlen : as.length = bs.length) (h : List.Forall₂ r (as ++ as') (bs ++ bs')) :
    List.Forall₂ r as bs ∧ List.Forall₂ r as' bs' := by
  have htake := List.forall₂_take_append _ bs bs' h
  have hdrop := List.forall₂_drop_append _ bs bs' h
  rw [← hlen] at htake hdrop
  exact ⟨by simpa using htake, by simpa using hdrop⟩

def Paired (R : Var → Var → Prop) (m : Nat) : List String → List String → Prop :=
  List.Forall₂ fun w w' => R ⟨w, m⟩ ⟨w', 0⟩

def Copies (R : Var → Var → Prop) (m : Nat) : List Term → List Term → Prop :=
  List.Forall₂ fun t t' => (t.rename m).Rel R t'

theorem Copies.join {op unit : String} {join : List Term → Term} (hj : Term.Joins op unit join)
    (h : Copies R m ts ts') : ((join ts).rename m).Rel R (join ts') := by
  induction h with
  | nil => rw [hj.nil]; rfl
  | @cons t t' ts ts' ht hts ih =>
    cases hts with
    | nil => rwa [hj.one, hj.one]
    | cons _ _ => rw [hj.cons, hj.cons]; exact ⟨rfl, ht, ih, trivial⟩

theorem Copies.relAll (h : Copies R m ts ts') : Term.RelAll R (Term.renameList m ts) ts' := by
  rw [Term.relAll_iff, Term.renameList_eq_map, List.forall₂_map_left_iff]
  exact h

theorem Copies.apply (h : Copies R m ts ts') (p : String) :
    ((Term.apply p ts).rename m).Rel R (.apply p ts') := by
  rw [Term.apply_rename]
  have hall := h.relAll
  cases h with
  | nil => rfl
  | cons _ _ => exact ⟨rfl, hall⟩

theorem Arg.Lowers.names_length {a : Arg} (h : a.Lowers ws t) (h' : a.Lowers ws' t') :
    ws.length = ws'.length := by
  unfold Arg.Lowers at h h'
  cases hk : a.kind with
  | wildcard =>
    rw [hk] at h h'
    obtain ⟨w, rfl, _⟩ := h
    obtain ⟨w', rfl, _⟩ := h'
    rfl
  | _ => rw [hk] at h h'; rw [h.1, h'.1]

theorem Arg.LowersAll.names_length (h : Arg.LowersAll as ws ts) (h' : Arg.LowersAll as ws' ts') :
    ws.length = ws'.length := by
  induction h generalizing ws' ts' with
  | nil => cases h'; rfl
  | cons ha _ ih =>
    cases h' with
    | cons ha' has' => rw [List.length_append, List.length_append, ha.names_length ha', ih has']

theorem Arg.Lowers.rel {a : Arg} (h : a.Lowers ws t) (h' : a.Lowers ws' t')
    (hvars : ∀ x ∈ a.varName?, R ⟨x, m⟩ ⟨x, 0⟩) (hws : Paired R m ws ws') :
    (t.rename m).Rel R t' := by
  unfold Arg.Lowers at h h'
  unfold Arg.varName? at hvars
  cases hk : a.kind with
  | var x =>
    rw [hk] at h h' hvars
    rw [h.2, h'.2]
    exact hvars x rfl
  | wildcard =>
    rw [hk] at h h'
    obtain ⟨w, rfl, rfl⟩ := h
    obtain ⟨w', rfl, rfl⟩ := h'
    cases hws with
    | cons hw _ => exact hw
  | _ => rw [hk] at h h'; rw [h.2, h'.2]; rfl

theorem Arg.LowersAll.copies (h : Arg.LowersAll as ws ts) (h' : Arg.LowersAll as ws' ts')
    (hvars : ∀ x ∈ as.filterMap Arg.varName?, R ⟨x, m⟩ ⟨x, 0⟩) (hws : Paired R m ws ws') :
    Copies R m ts ts' := by
  induction h generalizing ws' ts' with
  | nil => cases h'; exact .nil
  | @cons a as ws₁ ws₂ t ts ha _ ih =>
    cases h' with
    | cons ha' has' =>
      obtain ⟨hws₁, hws₂⟩ := forall₂_of_append (ha.names_length ha') hws
      refine .cons (ha.rel ha' (fun x hx => hvars x ?_) hws₁)
        (ih has' (fun x hx => hvars x ?_) hws₂)
      · exact List.mem_filterMap.mpr ⟨a, by simp, hx⟩
      · obtain ⟨a', ha', hx⟩ := List.mem_filterMap.mp hx
        exact List.mem_filterMap.mpr ⟨a', by simp [ha'], hx⟩

mutual

theorem Literal.Lowers.names_length :
    ∀ {l : Literal} {ws ws' : List String} {t t' : Term}, l.Lowers ws t →
    l.Lowers ws' t' → ws.length = ws'.length
  | .call _, _, _, _, _, h, h' => by
    obtain ⟨ts, hts, _⟩ := h
    obtain ⟨ts', hts', _⟩ := h'
    exact hts.names_length hts'
  | .negated f _, _, _, _, _, h, h' => by
    obtain ⟨u, hu, _⟩ := h
    obtain ⟨u', hu', _⟩ := h'
    exact Formula.Lowers.names_length hu hu'
  | .compare _, _, _, _, _, h, h' => by
    obtain ⟨l, r, hlr, _⟩ := h
    obtain ⟨l', r', hlr', _⟩ := h'
    exact hlr.names_length hlr'
  | .group f, _, _, _, _, h, h' => Formula.Lowers.names_length (f := f) h h'

theorem Formula.Lowers.names_length :
    ∀ {f : Formula} {ws ws' : List String} {t t' : Term}, f.Lowers ws t →
    f.Lowers ws' t' → ws.length = ws'.length
  | .mk _ _, _, _, _, _, h, h' => by
    obtain ⟨ts, hts, _⟩ := h
    obtain ⟨ts', hts', _⟩ := h'
    exact Formula.LowersAny.names_length hts hts'

theorem Formula.LowersAny.names_length :
    ∀ {ds : List (List Literal)} {ws ws' : List String} {ts ts' : List Term},
    Formula.LowersAny ds ws ts → Formula.LowersAny ds ws' ts' → ws.length = ws'.length
  | [], _, _, _, _, h, h' => by rw [h.1, h'.1]
  | _ :: _, _, _, _, _, h, h' => by
    obtain ⟨ws₁, ws₂, us, rest, hc, hcs, rfl, _⟩ := h
    obtain ⟨ws₁', ws₂', us', rest', hc', hcs', rfl, _⟩ := h'
    rw [List.length_append, List.length_append, Literal.LowersAll.names_length hc hc',
      Formula.LowersAny.names_length hcs hcs']

theorem Literal.LowersAll.names_length :
    ∀ {ls : List Literal} {ws ws' : List String} {ts ts' : List Term},
    Literal.LowersAll ls ws ts → Literal.LowersAll ls ws' ts' → ws.length = ws'.length
  | [], _, _, _, _, h, h' => by rw [h.1, h'.1]
  | _ :: _, _, _, _, _, h, h' => by
    obtain ⟨ws₁, ws₂, t, rest, hl, hls, rfl, _⟩ := h
    obtain ⟨ws₁', ws₂', t', rest', hl', hls', rfl, _⟩ := h'
    rw [List.length_append, List.length_append, Literal.Lowers.names_length hl hl',
      Literal.LowersAll.names_length hls hls']

end

mutual

theorem Literal.Lowers.rel :
    ∀ {l : Literal} {ws ws' : List String} {t t' : Term}, l.Lowers ws t → l.Lowers ws' t' →
    (∀ x ∈ l.vars, R ⟨x, m⟩ ⟨x, 0⟩) → Paired R m ws ws' → (t.rename m).Rel R t'
  | .call c, _, _, _, _, h, h', hvars, hws => by
    obtain ⟨ts, hts, rfl⟩ := h
    obtain ⟨ts', hts', rfl⟩ := h'
    exact (hts.copies hts' hvars hws).apply c.name
  | .negated f _, _, _, _, _, h, h', hvars, hws => by
    obtain ⟨u, hu, rfl⟩ := h
    obtain ⟨u', hu', rfl⟩ := h'
    exact ⟨rfl, Formula.Lowers.rel hu hu' hvars hws, trivial⟩
  | .compare c, _, _, _, _, h, h', hvars, hws => by
    obtain ⟨l, r, hlr, rfl⟩ := h
    obtain ⟨l', r', hlr', rfl⟩ := h'
    have hnames : ∀ x ∈ [c.left, c.right].filterMap Arg.varName?, R ⟨x, m⟩ ⟨x, 0⟩ := by
      rwa [Comparison.filterMap_varName]
    exact ⟨rfl, (hlr.copies hlr' hnames hws).relAll⟩
  | .group f, _, _, _, _, h, h', hvars, hws => Formula.Lowers.rel (f := f) h h' hvars hws

theorem Formula.Lowers.rel :
    ∀ {f : Formula} {ws ws' : List String} {t t' : Term}, f.Lowers ws t → f.Lowers ws' t' →
    (∀ x ∈ f.vars, R ⟨x, m⟩ ⟨x, 0⟩) → Paired R m ws ws' → (t.rename m).Rel R t'
  | .mk _ _, _, _, _, _, h, h', hvars, hws => by
    obtain ⟨ts, hts, rfl⟩ := h
    obtain ⟨ts', hts', rfl⟩ := h'
    exact (Formula.LowersAny.copies hts hts' hvars hws).join .disjunction

theorem Formula.LowersAny.copies :
    ∀ {ds : List (List Literal)} {ws ws' : List String} {ts ts' : List Term},
      Formula.LowersAny ds ws ts → Formula.LowersAny ds ws' ts' →
      (∀ x ∈ Formula.varsAll ds, R ⟨x, m⟩ ⟨x, 0⟩) → Paired R m ws ws' → Copies R m ts ts'
  | [], _, _, _, _, h, h', _, _ => by rw [h.2, h'.2]; exact .nil
  | _ :: _, _, _, _, _, h, h', hvars, hws => by
    obtain ⟨ws₁, ws₂, us, rest, hc, hcs, rfl, rfl⟩ := h
    obtain ⟨ws₁', ws₂', us', rest', hc', hcs', rfl, rfl⟩ := h'
    obtain ⟨hws₁, hws₂⟩ := forall₂_of_append (Literal.LowersAll.names_length hc hc') hws
    have hleft :=
      Literal.LowersAll.copies hc hc' (fun x hx => hvars x (List.mem_append_left _ hx)) hws₁
    exact .cons (hleft.join .conjunction)
      (Formula.LowersAny.copies hcs hcs' (fun x hx => hvars x (List.mem_append_right _ hx)) hws₂)

theorem Literal.LowersAll.copies :
    ∀ {ls : List Literal} {ws ws' : List String} {ts ts' : List Term}, Literal.LowersAll ls ws ts →
      Literal.LowersAll ls ws' ts' → (∀ x ∈ Literal.varsAll ls, R ⟨x, m⟩ ⟨x, 0⟩) →
      Paired R m ws ws' → Copies R m ts ts'
  | [], _, _, _, _, h, h', _, _ => by rw [h.2, h'.2]; exact .nil
  | _ :: _, _, _, _, _, h, h', hvars, hws => by
    obtain ⟨ws₁, ws₂, t, rest, hl, hls, rfl, rfl⟩ := h
    obtain ⟨ws₁', ws₂', t', rest', hl', hls', rfl, rfl⟩ := h'
    obtain ⟨hws₁, hws₂⟩ := forall₂_of_append (Literal.Lowers.names_length hl hl') hws
    exact .cons (Literal.Lowers.rel hl hl' (fun x hx => hvars x (List.mem_append_left _ hx)) hws₁)
      (Literal.LowersAll.copies hls hls' (fun x hx => hvars x (List.mem_append_right _ hx)) hws₂)

end

end GraphRules
