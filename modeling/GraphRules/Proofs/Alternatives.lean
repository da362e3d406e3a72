import GraphRules.Proofs.Lowered

/-! Goals multiplied out. A formula that is lowered as a whole is a term of nested conjunctions and
disjunctions; when these are multiplied out, what is left are its alternatives, each lowered by
itself. -/
namespace GraphRules

namespace Term

def products (as bs : List (List Term)) : List (List Term) :=
  as.flatMap fun x => bs.map fun y => x ++ y

theorem products_singleton_nil (as : List (List Term)) : products as [[]] = as := by
  simp [products]

inductive Splits : Term → List (List Term) → Prop
  | leaf (t : Term) : Splits t [[t]]
  | done : Splits (.atom "true") [[]]
  | failing : Splits (.atom "fail") []
  | both {a b : Term} {as bs : List (List Term)} (ha : Splits a as) (hb : Splits b bs) :
    Splits (.compound "," [a, b]) (products as bs)
  | either {a b : Term} {as bs : List (List Term)} (ha : Splits a as) (hb : Splits b bs) :
    Splits (.compound ";" [a, b]) (as ++ bs)

variable {as bs : List (List Term)} {ts : List Term}

theorem Splits.conjunction {t : Term} (ht : Splits t as) (hts : Splits (conjunction ts) bs)
    (hnil : ts = [] → bs = [[]]) : Splits (conjunction (t :: ts)) (products as bs) := by
  cases ts with
  | nil =>
    rw [hnil rfl, products_singleton_nil]
    exact ht
  | cons u ts => exact .both ht hts

theorem Splits.disjunction {t : Term} (ht : Splits t as) (hts : Splits (disjunction ts) bs)
    (hnil : ts = [] → bs = []) : Splits (disjunction (t :: ts)) (as ++ bs) := by
  cases ts with
  | nil =>
    rw [hnil rfl, List.append_nil]
    exact ht
  | cons u ts => exact .either ht hts

end Term

theorem Literal.LowersAll.append :
    ∀ {ls ls' : List Literal} {ws ws' : List String} {ts ts' : List Term},
      Literal.LowersAll ls ws ts → Literal.LowersAll ls' ws' ts' →
      Literal.LowersAll (ls ++ ls') (ws ++ ws') (ts ++ ts')
  | [], _, _, _, _, _, h, h' => by
    obtain ⟨rfl, rfl⟩ := h
    exact h'
  | l :: ls, _, _, _, _, _, h, h' => by
    obtain ⟨ws₁, ws₂, t, rest, hl, hls, rfl, rfl⟩ := h
    exact ⟨ws₁, _, t, _, hl, Literal.LowersAll.append hls h', List.append_assoc _ _ _, rfl⟩

def Literal.LowersPart (ws : List String) (a : List Literal) (ts : List Term) : Prop :=
  ∃ ws', ws'.Sublist ws ∧ Literal.LowersAll a ws' ts

namespace Literal.LowersPart

variable {ws ws₁ ws₂ : List String} {as : List (List Literal)} {tss : List (List Term)}

theorem singleton {l : Literal} {t : Term} (h : l.Lowers ws t) : LowersPart ws [l] [t] :=
  ⟨ws, .refl ws, ws, [], t, [], h, ⟨rfl, rfl⟩, (List.append_nil ws).symm, rfl⟩

theorem mono (hws : ws₁.Sublist ws₂) (h : List.Forall₂ (LowersPart ws₁) as tss) :
    List.Forall₂ (LowersPart ws₂) as tss :=
  h.imp fun _ _ ⟨ws', hws', hlow⟩ => ⟨ws', hws'.trans hws, hlow⟩

theorem products {bs : List (List Literal)} {uss : List (List Term)}
    (ha : List.Forall₂ (LowersPart ws₁) as tss) (hb : List.Forall₂ (LowersPart ws₂) bs uss) :
    List.Forall₂ (LowersPart (ws₁ ++ ws₂)) (as.flatMap fun a => bs.map fun b => a ++ b)
      (Term.products tss uss) := by
  induction ha with
  | nil => exact .nil
  | @cons a ts as tss hat _ ih =>
    refine List.rel_append ?_ ih
    obtain ⟨ws', hws', hlow⟩ := hat
    rw [List.forall₂_map_left_iff, List.forall₂_map_right_iff]
    exact hb.imp fun _ _ ⟨ws'', hws'', hlow'⟩ => ⟨ws' ++ ws'', hws'.append hws'', hlow.append hlow'⟩

end Literal.LowersPart

mutual

theorem Literal.Lowers.splits : ∀ {l : Literal} {ws : List String} {t : Term}, l.Lowers ws t →
    ∃ tss, t.Splits tss ∧ List.Forall₂ (Literal.LowersPart ws) l.alternatives tss
  | .call _, _, t, h => ⟨_, .leaf t, .cons (Literal.LowersPart.singleton h) .nil⟩
  | .negated _ _, _, t, h => ⟨_, .leaf t, .cons (Literal.LowersPart.singleton h) .nil⟩
  | .compare _, _, t, h => ⟨_, .leaf t, .cons (Literal.LowersPart.singleton h) .nil⟩
  | .group f, _, _, h => Formula.Lowers.splits (f := f) h

/-- A formula that was lowered as a whole is multiplied out to its alternatives, each lowered by
itself. -/
theorem Formula.Lowers.splits : ∀ {f : Formula} {ws : List String} {t : Term}, f.Lowers ws t →
    ∃ tss, t.Splits tss ∧ List.Forall₂ (Literal.LowersPart ws) f.alternatives tss
  | .mk ds _, _, _, h => by
    obtain ⟨ts, hts, rfl⟩ := h
    obtain ⟨tss, hsplits, hparts, _⟩ := Formula.LowersAny.splits hts
    exact ⟨tss, hsplits, hparts⟩

theorem Formula.LowersAny.splits : ∀ {ds : List (List Literal)} {ws : List String} {ts : List Term},
    Formula.LowersAny ds ws ts → ∃ tss, (Term.disjunction ts).Splits tss ∧
      List.Forall₂ (Literal.LowersPart ws) (Formula.alternativesAny ds) tss ∧ (ts = [] → tss = [])
  | [], _, _, h => by
    obtain ⟨rfl, rfl⟩ := h
    exact ⟨[], .failing, .nil, fun _ => rfl⟩
  | c :: cs, _, _, h => by
    obtain ⟨ws₁, ws₂, us, rest, hc, hcs, rfl, rfl⟩ := h
    obtain ⟨tss, ht, hparts, _⟩ := Literal.LowersAll.splits hc
    obtain ⟨uss, hu, hparts', hnil⟩ := Formula.LowersAny.splits hcs
    refine ⟨tss ++ uss, ht.disjunction hu hnil, List.rel_append ?_ ?_, nofun⟩
    · exact Literal.LowersPart.mono (List.sublist_append_left ws₁ ws₂) hparts
    · exact Literal.LowersPart.mono (List.sublist_append_right ws₁ ws₂) hparts'

theorem Literal.LowersAll.splits : ∀ {ls : List Literal} {ws : List String} {ts : List Term},
    Literal.LowersAll ls ws ts → ∃ tss, (Term.conjunction ts).Splits tss ∧
      List.Forall₂ (Literal.LowersPart ws) (Literal.alternativesAll ls) tss ∧ (ts = [] → tss = [[]])
  | [], _, _, h => by
    obtain ⟨rfl, rfl⟩ := h
    exact ⟨[[]], .done, .cons ⟨[], .refl [], rfl, rfl⟩ .nil, fun _ => rfl⟩
  | l :: ls, _, _, h => by
    obtain ⟨ws₁, ws₂, t, rest, hl, hls, rfl, rfl⟩ := h
    obtain ⟨tss, ht, hparts⟩ := Literal.Lowers.splits hl
    obtain ⟨uss, hu, hparts', hnil⟩ := Literal.LowersAll.splits hls
    exact ⟨_, ht.conjunction hu hnil, Literal.LowersPart.products hparts hparts', nofun⟩

end

end GraphRules
