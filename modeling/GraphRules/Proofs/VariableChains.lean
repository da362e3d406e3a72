import GraphRules.Proofs.Unifiers

/-! Chains of variables in a plain store. A walk comes to its end in every store that calls of
unification and going back have led to, also when a variable was bound to a term with itself in it,
and it passes no variable twice. -/
namespace GraphRules

namespace Store

def Links (σ : Store) (v w : Var) : Prop := σ.map[v]? = some (.var w)

variable {σ : Store} {vs ws : List Var} {v w : Var} {t u : Term}

theorem Walks.of_mem (h : σ.Walks vs t u) (hv : v ∈ vs) :
    ∃ ws, σ.Walks ws (.var v) u ∧ ws.length ≤ vs.length := by
  induction h with
  | stop _ => cases hv
  | @step w vs x u hw hrest ih =>
    rcases List.mem_cons.mp hv with rfl | hv
    · exact ⟨_, .step hw hrest, Nat.le_refl _⟩
    · obtain ⟨ws, hws, hlen⟩ := ih hv
      exact ⟨ws, hws, Nat.le_succ_of_le hlen⟩

/-- A walk that ends passes no variable twice: the second time it would have to be shorter. -/
theorem Walks.nodup (h : σ.Walks vs t u) : vs.Nodup := by
  induction h with
  | stop _ => exact .nil
  | @step v vs x u hv hrest ih =>
    refine List.nodup_cons.mpr ⟨fun hmem => ?_, ih⟩
    obtain ⟨ws, hws, hlen⟩ := hrest.of_mem hmem
    obtain ⟨rfl, -⟩ := hws.unique (.step hv hrest)
    exact absurd hlen (Nat.not_succ_le_self _)

/-- Along a chain of variables walks get shorter. -/
theorem Walks.of_transGen (hchain : Relation.TransGen σ.Links v w) (h : σ.Walks vs (.var w) u) :
    ∃ ws, σ.Walks ws (.var v) u ∧ vs.length < ws.length := by
  induction hchain using Relation.TransGen.head_induction_on with
  | single hlink => exact ⟨_, .step hlink h, Nat.lt_succ_self _⟩
  | head hlink _ ih =>
    obtain ⟨ws, hws, hlen⟩ := ih
    exact ⟨_, .step hlink hws, Nat.lt_succ_of_lt hlen⟩

theorem Walks.not_cycle (h : σ.Walks vs (.var v) u) : ¬ Relation.TransGen σ.Links v v := by
  intro hcycle
  obtain ⟨ws, hws, hlen⟩ := h.of_transGen hcycle
  obtain ⟨rfl, -⟩ := hws.unique h
  exact absurd hlen (Nat.lt_irrefl _)

end Store

/-- In every store that calls of unification which return and going back lead to, no chain of
variables comes back to a variable of it. A walk from any term comes to an end, passes each variable
at most once, and stops at a variable that is not bound or at no variable; that is where the walk
through bindings arrives within the steps that it is allowed. The bindings that unification of
limited depth leads to are among these stores. -/
theorem Store.walk_ends :
    (∀ changes, Reached (Bindings.after changes).toStore) ∧
      ∀ σ, Reached σ → (∀ v, ¬ Relation.TransGen σ.Links v v) ∧
        ∀ t, ∃ vs u, σ.Walks vs t u ∧ vs.Nodup ∧ vs.length ≤ σ.mark ∧ σ.Ends u ∧
          ∀ b : Bindings, b.toStore = σ → b.walk t = u := by
  refine ⟨fun changes => (Bindings.forward_after changes).reached, fun σ h => ?_⟩
  obtain ⟨b, hb, rfl⟩ := Bindings.exists_forward h
  constructor
  · intro v
    obtain ⟨vs, hvs, -⟩ := hb.exists_walks (.var v)
    exact hvs.not_cycle
  · intro t
    obtain ⟨vs, hvs, hlen⟩ := hb.exists_walks t
    refine ⟨vs, b.walk t, hvs, hvs.nodup, by rwa [Bindings.mark_toStore], hvs.ends, fun c hc => ?_⟩
    rw [← Bindings.walk_toStore c, hc, Bindings.walk_toStore]

namespace Store

/-- Three variables in a chain, the last of them bound to a term that holds the first. A call fails
after it has bound a variable, and the last binding is taken back. -/
def knot : List Change :=
  [.unify (.named "Z") (.named "X"), .unify (.named "X") (.named "Y"),
    .unify (.compound "g" [.named "W", .atom "a"]) (.compound "g" [.named "X", .atom "b"]),
    .unify (.compound "f" [.named "Z"]) (.named "Z"), .unify (.named "V") (.named "X"), .undo 3]

theorem walk_ends_knot :
    Reached (Bindings.after knot).toStore ∧ (Bindings.after knot).Involves ⟨"Y", 0⟩ ⟨"Z", 0⟩ ∧
      ∃ vs, (Bindings.after knot).toStore.Walks vs (.named "Z") (.compound "f" [.named "Z"]) ∧
      vs.Nodup ∧ vs.length ≤ 3 := by
  have hreached := walk_ends.1 knot
  have hmark : (Bindings.after knot).mark = 3 := by decide +kernel
  have hwalk : (Bindings.after knot).walk (.named "Z") = .compound "f" [.named "Z"] := by
    decide +kernel
  have hbound : (Bindings.after knot).find? ⟨"Y", 0⟩ = some (.compound "f" [.named "Z"]) := by
    decide +kernel
  obtain ⟨vs, u, hwalks, hnodup, hlen, -, hend⟩ := (walk_ends.2 _ hreached).2 (.named "Z")
  rw [← hend _ rfl, hwalk] at hwalks
  rw [Bindings.mark_toStore, hmark] at hlen
  exact ⟨hreached, ⟨_, hbound, by decide⟩, vs, hwalks, hnodup, hlen⟩

end Store

end GraphRules
