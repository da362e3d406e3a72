import GraphRules.Proofs.Flat
import GraphRules.Proofs.Trail
import Mathlib.Data.List.Forall2

/-! Resolution, unification and lists of equations without a bound on their steps or their depth.
Under tidy bindings, what the bounded functions give is what these computations come to. -/
namespace GraphRules

theorem Term.size_le_sizes {t : Term} {ts : List Term} (h : t ∈ ts) : t.size ≤ Term.sizes ts := by
  induction ts with
  | nil => cases h
  | cons u ts ih =>
    rw [Term.sizes]
    rcases List.mem_cons.mp h with rfl | h
    · omega
    · have := ih h
      omega

namespace Bindings

variable {b b' : Bindings} {s t : Term}

/-- A resolution that ends: arguments of a compound term are resolved in their turn. -/
inductive Resolves (b : Bindings) : Term → Term → Prop
  | flat {t u : Term} {vs : List Var} (h : b.toStore.Walks vs t u) (hu : u.isFlat) : Resolves b t u
  | compound {t : Term} {f : String} {as us : List Term} {vs : List Var}
    (h : b.toStore.Walks vs t (.compound f as)) (has : List.Forall₂ (Resolves b) as us) :
    Resolves b t (.compound f us)

theorem resolves_resolveDepth (h : b.Tidy) {n : Nat} (t : Term) (hn : t.size ≤ n) :
    b.Resolves t (b.resolveDepth n t) := by
  induction n generalizing t with
  | zero =>
    have := t.size_pos
    omega
  | succ n ih =>
    obtain ⟨vs, hwalks, -⟩ := h.forward.exists_walks t
    by_cases hflat : t.isFlat
    · have hend := h.walk hflat
      rw [resolveDepth]
      split
      · next f as hw => rw [hw] at hend; cases hend
      · exact .flat hwalks hend
    · obtain ⟨f, as, rfl⟩ : ∃ f as, t = .compound f as := by
        cases t with
        | compound f as => exact ⟨f, as, rfl⟩
        | _ => exact (hflat rfl).elim
      have hwalk : b.walk (.compound f as) = .compound f as := walk_nonvar b (by simp)
      rw [hwalk] at hwalks
      simp only [resolveDepth, hwalk]
      refine .compound hwalks (List.forall₂_map_right_iff.mpr (List.forall₂_same.mpr fun a ha =>
        ih a ?_))
      have hle := Term.size_le_sizes ha
      simp only [Term.size] at hn
      omega

theorem resolves_resolve (h : b.Tidy) (t : Term) : b.Resolves t (b.resolve t) :=
  resolves_resolveDepth h t (Nat.le_add_left _ _)

end Bindings

namespace Store

inductive Equates : Store → List (Term × Term) → Bool → Store → Prop
  | done (σ : Store) : Equates σ [] true σ
  | failed {σ τ : Store} {s t : Term} (es : List (Term × Term)) :
    Unifies σ s t false τ → Equates σ ((s, t) :: es) false τ
  | next {σ τ τ' : Store} {s t : Term} {es : List (Term × Term)} {ok : Bool} :
    Unifies σ s t true τ → Equates τ es ok τ' → Equates σ ((s, t) :: es) ok τ'

end Store

namespace Bindings

open Store (Returns ReturnsAll Unifies Clash)

variable {b b' : Bindings} {s t : Term}

/-- Terms whose walks end in constants that differ are not made equal. -/
theorem returns_matchFlat (h : b.Tidy) (hs : s.isFlat) (hm : b.matchFlat s t = none) :
    Returns b.toStore s t false b.toStore := by
  obtain ⟨_, hu⟩ | ⟨v, u, _, _, hu⟩ | ⟨hne, hvs, hvt, _⟩ := matchFlat_cases b s t
  · rw [hu] at hm; cases hm
  · rw [hu] at hm; cases hm
  · obtain ⟨vs, hws, -⟩ := h.forward.exists_walks s
    obtain ⟨ws, hwt, -⟩ := h.forward.exists_walks t
    have hnovar : ∀ {u : Term}, (∀ v, u ≠ .var v) → u.isVar = false := by
      intro u hu
      cases u with
      | var v => exact absurd rfl (hu v)
      | _ => rfl
    have hflat := h.walk hs
    refine .clash hws hwt ⟨hne, hnovar hvs, hnovar hvt, fun f ss ts hcompound => ?_⟩
    rw [hcompound] at hflat
    cases hflat

theorem returnsAll_matchFlat {ss ts : List Term} (h : b.Tidy) (hs : ss.all Term.isFlat)
    (ht : ts.all Term.isFlat) (hlen : ss.length = ts.length)
    (hm : unifyAll matchFlat b ss ts = none) : ∃ σ, ReturnsAll b.toStore ss ts false σ := by
  induction ss generalizing b ts with
  | nil =>
    obtain rfl := List.length_eq_zero_iff.mp hlen.symm
    cases hm
  | cons s ss ih =>
    cases ts with
    | nil => cases hlen
    | cons t ts =>
      simp only [List.all_cons, Bool.and_eq_true] at hs ht
      simp only [unifyAll] at hm
      cases hfirst : b.matchFlat s t with
      | none => exact ⟨_, .failed (returns_matchFlat h hs.1 hfirst)⟩
      | some c =>
        rw [hfirst] at hm
        obtain ⟨σ, hrest⟩ := ih (h.matchFlat hs.1 ht.1 hfirst) hs.2 ht.2 (Nat.succ.inj hlen) hm
        have hcall := unifies_of_unify? h.forward ((unify?_of_flat h hs.1 ht.1).trans hfirst)
        obtain ⟨τ, hreturns, rfl⟩ := hcall
        exact ⟨σ, .next hreturns hrest⟩

/-- A call that returns without success is one of unification that changes nothing. -/
theorem unifies_of_returns {σ : Store} (hb : b.Forward) (h : Returns b.toStore s t false σ) :
    Unifies b.toStore s t false b.toStore := by
  obtain ⟨c, -, hsuffix, rfl⟩ := grows_of_returns h hb rfl
  refine ⟨_, h, ?_⟩
  rw [if_neg Bool.false_ne_true, mark_toStore, ← toStore_undoTo, undoTo_of_suffix hsuffix]

theorem returns_of_unify?_none (h : b.Tidy) (hs : s.isShallow) (ht : t.isShallow)
    (hu : b.unify? s t = none) : ∃ σ, Returns b.toStore s t false σ := by
  have hs' := h.walk_isShallow hs
  have ht' := h.walk_isShallow ht
  obtain ⟨vs, hws, -⟩ := h.forward.exists_walks s
  obtain ⟨ws, hwt, -⟩ := h.forward.exists_walks t
  rw [unify?_of_shallow h hs ht, unifyDepth_succ] at hu
  generalize b.walk s = u at *
  generalize b.walk t = w at *
  by_cases heq : u = w
  · rw [if_pos heq] at hu
    cases hu
  · rw [if_neg heq] at hu
    cases u with
    | var v => cases hu
    | atom a =>
      cases w with
      | var v => cases hu
      | _ => exact ⟨_, .clash hws hwt ⟨heq, rfl, rfl, nofun⟩⟩
    | number x =>
      cases w with
      | var v => cases hu
      | _ => exact ⟨_, .clash hws hwt ⟨heq, rfl, rfl, nofun⟩⟩
    | compound f ss =>
      cases w with
      | var v => cases hu
      | atom a => exact ⟨_, .clash hws hwt ⟨heq, rfl, rfl, nofun⟩⟩
      | number x => exact ⟨_, .clash hws hwt ⟨heq, rfl, rfl, nofun⟩⟩
      | compound g ts =>
        dsimp only at hu
        by_cases hfg : f = g ∧ ss.length = ts.length
        · obtain ⟨rfl, hlen⟩ := hfg
          have hargs : unifyAll (unifyDepth 1) b ss ts = unifyAll matchFlat b ss ts :=
            unifyAll_of_flat 0 h hs' ht'
          rw [if_pos rfl, hargs] at hu
          obtain ⟨σ, hall⟩ := returnsAll_matchFlat h hs' ht' hlen hu
          exact ⟨σ, .arguments hws hwt (fun e => heq (congrArg _ e)) hlen hall⟩
        · refine ⟨_, .clash hws hwt ⟨heq, rfl, rfl, fun k as bs hl hr hlen => hfg ?_⟩⟩
          cases hl
          cases hr
          exact ⟨rfl, hlen⟩

theorem unifies_unify (h : b.Tidy) (hs : s.isShallow) (ht : t.isShallow) :
    Unifies b.toStore s t (b.unify s t).1 (b.unify s t).2.toStore := by
  rw [unify_eq]
  cases hu : b.unify? s t with
  | some c => exact unifies_of_unify? h.forward hu
  | none =>
    obtain ⟨σ, hreturns⟩ := returns_of_unify?_none h hs ht hu
    exact unifies_of_returns h.forward hreturns

end Bindings

end GraphRules
