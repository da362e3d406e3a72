import GraphRules.Proofs.Marks

/-! The trail of bindings. A plain store is a map with a list of the variables that were bound;
nothing in it keeps the two together, binding a variable takes the place of what it was bound to
before, and going back deletes the newest variables from the map. Unification walks before it binds,
so it binds no variable twice: plain stores behave as bindings do, and going back to a mark restores
what was there when the mark was taken. Walks and calls of unification are also described without a
limit on their steps or their depth, by what they return if they come to an end. -/
namespace GraphRules

/-- A map and the variables in it in the order in which they were bound, newest first. -/
structure Store where
  map : Std.ExtTreeMap Var Term Var.order
  trail : List Var

namespace Store

def empty : Store := ⟨∅, []⟩

def mark (σ : Store) : Nat := σ.trail.length

def bind (σ : Store) (v : Var) (t : Term) : Store := ⟨σ.map.insert v t, v :: σ.trail⟩

def pop (σ : Store) : Store :=
  match σ.trail with
  | [] => σ
  | v :: trail => ⟨σ.map.erase v, trail⟩

def undoTo (σ : Store) (m : Nat) : Store := (σ.mark - m).repeat pop σ

def weight (σ : Store) : Nat := Term.sizes (σ.trail.filterMap fun v => σ.map[v]?)

def walkSteps (σ : Store) : Nat → Term → Term
  | n + 1, .var v =>
    match σ.map[v]? with
    | some t => σ.walkSteps n t
    | none => .var v
  | _, t => t

def walk (σ : Store) (t : Term) : Term := σ.walkSteps σ.weight t

def unifyAll (step : Store → Term → Term → Bool × Store) :
    Store → List Term → List Term → Bool × Store
  | σ, s :: ss, t :: ts =>
    match step σ s t with
    | (true, σ') => unifyAll step σ' ss ts
    | (false, σ') => (false, σ')
  | σ, _, _ => (true, σ)

/-- Makes two terms equal. The bindings made before a failure are left in the store. -/
def unifyInner : Nat → Store → Term → Term → Bool × Store
  | 0, σ, _, _ => (false, σ)
  | n + 1, σ, s, t =>
    let s := σ.walk s
    let t := σ.walk t
    if s = t then (true, σ)
    else
      match s, t with
      | .var v, t => (true, σ.bind v t)
      | s, .var v => (true, σ.bind v s)
      | .compound f ss, .compound g ts =>
        if f = g ∧ ss.length = ts.length then unifyAll (unifyInner n) σ ss ts else (false, σ)
      | _, _ => (false, σ)

def unify (σ : Store) (s t : Term) : Bool × Store :=
  let (ok, σ') := unifyInner (σ.weight + s.size + t.size) σ s t
  (ok, if ok then σ' else σ'.undoTo σ.mark)

def Ends (σ : Store) (t : Term) : Prop := ∀ v, t = .var v → σ.map[v]? = none

/-- A walk that comes to an end, with the bound variables that it passes. -/
inductive Walks (σ : Store) : List Var → Term → Term → Prop
  | stop {t : Term} : σ.Ends t → Walks σ [] t t
  | step {v : Var} {vs : List Var} {u t : Term} :
    σ.map[v]? = some u → Walks σ vs u t → Walks σ (v :: vs) (.var v) t

/-- Ends of walks that no binding makes equal: they are different, no variables, and not compound
terms with the same functor and equally many arguments. -/
structure Clash (s t : Term) : Prop where
  different : s ≠ t
  left : s.isVar = false
  right : t.isVar = false
  functors : ∀ f ss ts, s = .compound f ss → t = .compound f ts → ss.length ≠ ts.length

mutual

/-- A call of the unifier that returns: the store it is made in, the terms, the answer and the store
that it leaves. -/
inductive Returns : Store → Term → Term → Bool → Store → Prop
  | same {σ : Store} {s t u : Term} {vs ws : List Var} :
    σ.Walks vs s u → σ.Walks ws t u → Returns σ s t true σ
  | left {σ : Store} {s t u : Term} {v : Var} {vs ws : List Var} :
    σ.Walks vs s (.var v) → σ.Walks ws t u → u ≠ .var v → Returns σ s t true (σ.bind v u)
  | right {σ : Store} {s t u : Term} {v : Var} {vs ws : List Var} :
    σ.Walks vs s u → u.isVar = false → σ.Walks ws t (.var v) → Returns σ s t true (σ.bind v u)
  | arguments {σ σ' : Store} {s t : Term} {f : String} {ss ts : List Term} {vs ws : List Var}
    {ok : Bool} :
    σ.Walks vs s (.compound f ss) → σ.Walks ws t (.compound f ts) → ss ≠ ts →
      ss.length = ts.length → ReturnsAll σ ss ts ok σ' → Returns σ s t ok σ'
  | clash {σ : Store} {s t u w : Term} {vs ws : List Var} :
    σ.Walks vs s u → σ.Walks ws t w → Clash u w → Returns σ s t false σ

inductive ReturnsAll : Store → List Term → List Term → Bool → Store → Prop
  | done {σ : Store} : ReturnsAll σ [] [] true σ
  | failed {σ σ' : Store} {s t : Term} {ss ts : List Term} :
    Returns σ s t false σ' → ReturnsAll σ (s :: ss) (t :: ts) false σ'
  | next {σ σ' σ'' : Store} {s t : Term} {ss ts : List Term} {ok : Bool} :
    Returns σ s t true σ' → ReturnsAll σ' ss ts ok σ'' → ReturnsAll σ (s :: ss) (t :: ts) ok σ''

end

/-- A call of unification that returns. What a failed call has bound is taken back. -/
def Unifies (σ : Store) (s t : Term) (ok : Bool) (τ : Store) : Prop :=
  ∃ σ', Returns σ s t ok σ' ∧ τ = if ok then σ' else σ'.undoTo σ.mark

/-- The stores that calls of unification which return, and going back, lead to from the empty one.
-/
inductive Reached : Store → Prop
  | empty : Reached empty
  | unify {σ τ : Store} {s t : Term} {ok : Bool} : Reached σ → Unifies σ s t ok τ → Reached τ
  | undo {σ : Store} (m : Nat) : Reached σ → Reached (σ.undoTo m)

/-- The stores that they lead to from a given one, without going back further than to a mark. -/
inductive Later (mark : Nat) (σ : Store) : Store → Prop
  | now : Later mark σ σ
  | unify {τ τ' : Store} {s t : Term} {ok : Bool} :
    Later mark σ τ → Unifies τ s t ok τ' → Later mark σ τ'
  | undo {τ : Store} {m : Nat} : Later mark σ τ → mark ≤ m → Later mark σ (τ.undoTo m)

section Walks

variable {σ : Store} {vs ws : List Var} {t u u' : Term}

theorem Walks.ends (h : σ.Walks vs t u) : σ.Ends u := by
  induction h with
  | stop hu => exact hu
  | step _ _ ih => exact ih

theorem Walks.unique (h : σ.Walks vs t u) (h' : σ.Walks ws t u') : vs = ws ∧ u = u' := by
  induction h generalizing ws with
  | stop hu =>
    cases h' with
    | stop _ => exact ⟨rfl, rfl⟩
    | step hv _ => rw [hu _ rfl] at hv; cases hv
  | step hv _ ih =>
    cases h' with
    | stop hu => rw [hu _ rfl] at hv; cases hv
    | step hv' hrest =>
      rw [hv] at hv'
      cases hv'
      obtain ⟨hvs, hend⟩ := ih hrest
      exact ⟨congrArg _ hvs, hend⟩

end Walks

end Store

namespace Bindings

def toStore (b : Bindings) : Store := ⟨b.index, b.trail.map Prod.fst⟩

variable {b c : Bindings} {s t u : Term} {v : Var} {l : List (Var × Term)}

@[simp] theorem mark_toStore (b : Bindings) :
    b.toStore.mark = b.mark := by simp [toStore, Store.mark, mark]

theorem map_toStore (b : Bindings) (v : Var) : b.toStore.map[v]? = b.find? v := rfl

theorem filterMap_lookup (hl : (l.map Prod.fst).Nodup) :
    (l.map Prod.fst).filterMap (fun v => l.lookup v) = l.map Prod.snd := by
  have hall : ∀ p ∈ l, l.lookup p.1 = some p.2 := by
    intro p hp
    induction l with
    | nil => cases hp
    | cons q l ih =>
      obtain ⟨hq, hl⟩ := List.nodup_cons.mp hl
      rcases List.mem_cons.mp hp with rfl | hp
      · rw [List.lookup_cons_self]
      · have hne : p.1 ≠ q.1 := fun e => hq (e ▸ List.mem_map_of_mem hp)
        rw [lookup_cons_ne l q.2 hne, ih hl hp]
  rw [List.filterMap_map]
  exact (List.filterMap_congr hall).trans (congrFun List.filterMap_eq_map l)

@[simp] theorem weight_toStore (b : Bindings) : b.toStore.weight = b.weight := by
  have heq : (fun v => b.toStore.map[v]?) = fun v => b.trail.lookup v := funext b.index_eq
  rw [Store.weight, heq, b.weight_eq]
  exact congrArg Term.sizes (filterMap_lookup b.unique)

theorem walkSteps_toStore (b : Bindings) (n : Nat) (t : Term) :
    b.toStore.walkSteps n t = b.walkSteps n t := by
  induction n generalizing t with
  | zero => cases t <;> rfl
  | succ n ih =>
    cases t with
    | var v =>
      simp only [Store.walkSteps, walkSteps, map_toStore]
      cases b.find? v with
      | none => rfl
      | some u => exact ih u
    | atom a => rfl
    | number x => rfl
    | compound f as => rfl

@[simp] theorem walk_toStore (b : Bindings) (t : Term) : b.toStore.walk t = b.walk t := by
  rw [Store.walk, weight_toStore, walkSteps_toStore, walk]

theorem toStore_bind (hv : b.find? v = none) (t : Term) :
    (b.bind v t).toStore = b.toStore.bind v t := by
  simp [toStore, Store.bind, bind, hv]

theorem toStore_pop (b : Bindings) : b.pop.toStore = b.toStore.pop := by
  unfold pop
  split
  · next h => simp [toStore, Store.pop, h]
  · next h => simp [toStore, Store.pop, h]

theorem toStore_undoTo (b : Bindings) (m : Nat) : (b.undoTo m).toStore = b.toStore.undoTo m := by
  rw [undoTo, Store.undoTo, mark_toStore]
  induction b.mark - m with
  | zero => rfl
  | succ n ih => rw [Nat.repeat, Nat.repeat, toStore_pop, ih]

theorem ForwardTrail.of_suffix {l' : List (Var × Term)} (h : ForwardTrail l) (hl : l' <:+ l) :
    ForwardTrail l' := by
  induction l with
  | nil => rw [List.suffix_nil.mp hl]; trivial
  | cons p l ih =>
    rcases List.suffix_cons_iff.mp hl with rfl | hl
    · exact h
    · exact ih h.2 hl

theorem Forward.undoTo (h : b.Forward) (m : Nat) : (b.undoTo m).Forward :=
  h.of_suffix (suffix_undoTo_self b m)

/-- The end of one walk is bound to the end of another: the variable was not bound. -/
theorem Forward.bind_walk (h : b.Forward) (hs : b.walk s = .var v) (ht : b.walk t = u)
    (hne : u ≠ .var v) : (b.bind v u).Forward ∧ (b.bind v u).toStore = b.toStore.bind v u :=
  ⟨h.bind (find?_walk h hs) hne fun _ hw => find?_walk h (ht.trans hw),
    toStore_bind (find?_walk h hs) u⟩

/-! ### Calls with a limited depth -/

def Mirrors (p : Bool × Bindings) (q : Bool × Store) : Prop := p.2.Forward ∧ q = (p.1, p.2.toStore)

theorem mirrors_unifyEach {step : Bindings → Term → Term → Bool × Bindings}
    {step' : Store → Term → Term → Bool × Store}
    (hstep : ∀ {b : Bindings}, b.Forward → ∀ s t, Mirrors (step b s t) (step' b.toStore s t))
    (hb : b.Forward) (ss ts : List Term) :
    Mirrors (unifyEach step b ss ts) (Store.unifyAll step' b.toStore ss ts) := by
  induction ss generalizing b ts with
  | nil => exact ⟨hb, rfl⟩
  | cons s ss ih =>
    cases ts with
    | nil => exact ⟨hb, rfl⟩
    | cons t ts =>
      obtain ⟨hforward, hfirst⟩ := hstep hb s t
      simp only [unifyEach, Store.unifyAll, hfirst]
      cases hr : step b s t with
      | mk ok c =>
        rw [hr] at hforward
        cases ok with
        | true => exact ih hforward ts
        | false => exact ⟨hforward, rfl⟩

theorem mirrors_unifyInner (n : Nat) (hb : b.Forward) (s t : Term) :
    Mirrors (unifyInner n b s t) (Store.unifyInner n b.toStore s t) := by
  induction n generalizing b s t with
  | zero => exact ⟨hb, rfl⟩
  | succ n ih =>
    have hbind : ∀ {s t u : Term} {v : Var}, b.walk s = .var v → b.walk t = u → u ≠ .var v →
        Mirrors (true, b.bind v u) (true, b.toStore.bind v u) := fun hs ht hne =>
      ⟨(hb.bind_walk hs ht hne).1, by rw [← (hb.bind_walk hs ht hne).2]⟩
    simp only [unifyInner, Store.unifyInner, walk_toStore]
    by_cases heq : b.walk s = b.walk t
    · rw [if_pos heq, if_pos heq]
      exact ⟨hb, rfl⟩
    · rw [if_neg heq, if_neg heq]
      cases hs : b.walk s with
      | var v => exact hbind hs rfl fun e => heq (hs.trans e.symm)
      | atom a =>
        cases ht : b.walk t with
        | var v => exact hbind ht hs (by simp)
        | _ => exact ⟨hb, rfl⟩
      | number x =>
        cases ht : b.walk t with
        | var v => exact hbind ht hs (by simp)
        | _ => exact ⟨hb, rfl⟩
      | compound f ss =>
        cases ht : b.walk t with
        | var v => exact hbind ht hs (by simp)
        | compound g ts =>
          dsimp only
          split_ifs
          · exact mirrors_unifyEach (fun hb => ih hb) hb ss ts
          · exact ⟨hb, rfl⟩
        | atom a => exact ⟨hb, rfl⟩
        | number x => exact ⟨hb, rfl⟩

theorem unifyDepth_forward {n : Nat} (hb : b.Forward) (h : unifyDepth n b s t = some c) :
    c.Forward ∧ b.trail <:+ c.trail := by
  have hforward := (mirrors_unifyInner n hb s t).1
  have hsuffix := suffix_unifyInner n b s t
  rw [unifyDepth] at h
  cases hr : unifyInner n b s t with
  | mk ok d =>
    rw [hr] at h hforward hsuffix
    cases ok with
    | true => cases h; exact ⟨hforward, hsuffix⟩
    | false => cases h

theorem unify?_forward (hb : b.Forward) (h : b.unify? s t = some c) :
    c.Forward ∧ b.trail <:+ c.trail :=
  unifyDepth_forward hb (unify?_eq b s t ▸ h)

theorem Forward.unify (hb : b.Forward) (s t : Term) : (b.unify s t).2.Forward := by
  rw [unify_eq]
  cases hu : b.unify? s t with
  | none => exact hb
  | some c => exact (unify?_forward hb hu).1

/-- Unification does to a plain store what it does to bindings. -/
theorem unify_toStore (hb : b.Forward) (s t : Term) :
    b.toStore.unify s t = ((b.unify s t).1, (b.unify s t).2.toStore) := by
  have hinner := (mirrors_unifyInner (b.weight + s.size + t.size) hb s t).2
  rw [Store.unify, weight_toStore, hinner, mark_toStore, Bindings.unify]
  cases unifyInner (b.weight + s.size + t.size) b s t with
  | mk ok c =>
    cases ok with
    | true => rfl
    | false => exact congrArg (Prod.mk false) (toStore_undoTo c b.mark).symm

end Bindings

inductive Change where
  | unify (s t : Term)
  | undo (mark : Nat)

namespace Store

def perform (σ : Store) : Change → Store
  | .unify s t => (σ.unify s t).2
  | .undo m => σ.undoTo m

def after (changes : List Change) : Store := changes.foldl perform empty

end Store

namespace Bindings

variable {b c : Bindings} {s t u : Term} {v : Var} {vs : List Var}

def perform (b : Bindings) : Change → Bindings
  | .unify s t => (b.unify s t).2
  | .undo m => b.undoTo m

def after (changes : List Change) : Bindings := changes.foldl perform empty

theorem toStore_perform (hb : b.Forward) (change : Change) :
    (b.perform change).toStore = b.toStore.perform change := by
  cases change with
  | unify s t => rw [Store.perform, unify_toStore hb]; rfl
  | undo m => exact toStore_undoTo b m

theorem Forward.perform (hb : b.Forward) (change : Change) : (b.perform change).Forward := by
  cases change with
  | unify s t => exact hb.unify s t
  | undo m => exact hb.undoTo m

theorem Forward.performAll (hb : b.Forward) (changes : List Change) :
    (changes.foldl Bindings.perform b).Forward ∧
      (changes.foldl Bindings.perform b).toStore = changes.foldl Store.perform b.toStore := by
  induction changes generalizing b with
  | nil => exact ⟨hb, rfl⟩
  | cons change changes ih =>
    rw [List.foldl_cons, List.foldl_cons, ← toStore_perform hb]
    exact ih (hb.perform change)

theorem forward_after (changes : List Change) : (after changes).Forward :=
  (forward_empty.performAll changes).1

theorem toStore_after (changes : List Change) : (after changes).toStore = .after changes :=
  (forward_empty.performAll changes).2

theorem mem_trail_toStore (b : Bindings) (v : Var) : v ∈ b.toStore.trail ↔ v ∈ b.toStore.map := by
  have hfind : b.index[v]? = none ↔ v ∉ b.trail.map Prod.fst := by
    rw [b.index_eq, lookup_eq_none_iff]
  rw [Std.ExtTreeMap.mem_iff_isSome_getElem?, ← Option.ne_none_iff_isSome, ne_eq]
  exact not_iff_not.mp (by rw [not_not]; exact hfind.symm)

/-! ### Calls that return -/

open Store (Returns ReturnsAll Reached Unifies Later)

theorem walks_of_leads {n : Nat} (h : Leads b.trail n t u) :
    ∃ vs, b.toStore.Walks vs t u ∧ vs.length ≤ n := by
  induction h with
  | @stop n t hs =>
    refine ⟨[], .stop fun v hv => ?_, Nat.zero_le _⟩
    rw [map_toStore, find?_eq_lookup]
    exact hs v hv
  | @step n v u t hv _ ih =>
    obtain ⟨vs, hvs, hlen⟩ := ih
    refine ⟨v :: vs, .step ?_ hvs, Nat.succ_le_succ hlen⟩
    rw [map_toStore, find?_eq_lookup, hv]

/-- Where chains of variables lead from older bindings to newer ones, a walk ends after as many
steps as there are bindings. -/
theorem Forward.exists_walks (hb : b.Forward) (t : Term) :
    ∃ vs, b.toStore.Walks vs t (b.walk t) ∧ vs.length ≤ b.mark := by
  rw [walk_eq_follow hb]
  exact walks_of_leads (leads_follow hb b.unique t)

theorem Forward.walk_eq (hb : b.Forward) (h : b.toStore.Walks vs t u) : b.walk t = u := by
  obtain ⟨ws, hws, -⟩ := hb.exists_walks t
  exact (hws.unique h).2

def Grows (b : Bindings) (σ : Store) : Prop :=
  ∃ c : Bindings, c.Forward ∧ b.trail <:+ c.trail ∧ σ = c.toStore

theorem Forward.grows (hb : b.Forward) : b.Grows b.toStore := ⟨b, hb, List.suffix_rfl, rfl⟩

theorem Forward.grows_bind (hb : b.Forward) (hs : b.walk s = .var v) (ht : b.walk t = u)
    (hne : u ≠ .var v) : b.Grows (b.toStore.bind v u) :=
  ⟨b.bind v u, (hb.bind_walk hs ht hne).1, suffix_bind b v u, (hb.bind_walk hs ht hne).2.symm⟩

mutual

/-- The store that a call leaves behind has further bindings only. -/
theorem grows_of_returns {σ σ' : Store} {s t : Term} {ok : Bool} (h : Returns σ s t ok σ')
    {b : Bindings} (hb : b.Forward) (hσ : σ = b.toStore) : b.Grows σ' := by
  match h with
  | .same _ _ => exact hσ ▸ hb.grows
  | .left hs ht hne =>
    subst hσ
    exact hb.grows_bind (hb.walk_eq hs) (hb.walk_eq ht) hne
  | .right hs hu ht =>
    subst hσ
    exact hb.grows_bind (hb.walk_eq ht) (hb.walk_eq hs) fun e => by simp [e, Term.isVar] at hu
  | .arguments _ _ _ _ hall => exact grows_of_returnsAll hall hb hσ
  | .clash _ _ _ => exact hσ ▸ hb.grows

theorem grows_of_returnsAll {σ σ' : Store} {ss ts : List Term} {ok : Bool}
    (h : ReturnsAll σ ss ts ok σ') {b : Bindings} (hb : b.Forward) (hσ : σ = b.toStore) :
    b.Grows σ' := by
  match h with
  | .done => exact hσ ▸ hb.grows
  | .failed hfirst => exact grows_of_returns hfirst hb hσ
  | .next hfirst hrest =>
    obtain ⟨c, hc, hsuffix, hstore⟩ := grows_of_returns hfirst hb hσ
    obtain ⟨d, hd, hsuffix', hstore'⟩ := grows_of_returnsAll hrest hc hstore
    exact ⟨d, hd, hsuffix.trans hsuffix', hstore'⟩

end

theorem grows_of_unifies {τ : Store} {ok : Bool} (hb : b.Forward) (h : Unifies b.toStore s t ok τ) :
    b.Grows τ := by
  obtain ⟨σ', hcall, rfl⟩ := h
  obtain ⟨c, hc, hsuffix, rfl⟩ := grows_of_returns hcall hb rfl
  cases ok with
  | true => exact ⟨c, hc, hsuffix, rfl⟩
  | false =>
    rw [if_neg Bool.false_ne_true, mark_toStore, ← toStore_undoTo, undoTo_of_suffix hsuffix]
    exact hb.grows

/-- Every store that is reached holds bindings whose chains go forward. -/
theorem exists_forward {σ : Store} (h : σ.Reached) : ∃ b : Bindings, b.Forward ∧ σ = b.toStore := by
  induction h with
  | empty => exact ⟨empty, forward_empty, rfl⟩
  | unify _ hcall ih =>
    obtain ⟨b, hb, rfl⟩ := ih
    obtain ⟨c, hc, -, rfl⟩ := grows_of_unifies hb hcall
    exact ⟨c, hc, rfl⟩
  | undo m _ ih =>
    obtain ⟨b, hb, rfl⟩ := ih
    exact ⟨b.undoTo m, hb.undoTo m, (toStore_undoTo b m).symm⟩

/-- What was bound when a mark was taken stays bound as long as nothing goes back further. -/
theorem grows_of_later {τ : Store} (hb : b.Forward) (h : Later b.mark b.toStore τ) : b.Grows τ := by
  induction h with
  | now => exact hb.grows
  | unify _ hcall ih =>
    obtain ⟨c, hc, hsuffix, rfl⟩ := ih
    obtain ⟨d, hd, hsuffix', rfl⟩ := grows_of_unifies hc hcall
    exact ⟨d, hd, hsuffix.trans hsuffix', rfl⟩
  | @undo _ m _ hm ih =>
    obtain ⟨c, hc, hsuffix, rfl⟩ := ih
    exact ⟨c.undoTo m, hc.undoTo m, suffix_undoTo hsuffix hm, (toStore_undoTo c m).symm⟩

theorem returnsAll_unifyEach {step : Bindings → Term → Term → Bool × Bindings}
    (hstep : ∀ {b c : Bindings} {s t : Term}, b.Forward → step b s t = (true, c) → c.Forward ∧
      Returns b.toStore s t true c.toStore) {ss ts : List Term} (hb : b.Forward)
    (hlen : ss.length = ts.length) (h : unifyEach step b ss ts = (true, c)) :
    ReturnsAll b.toStore ss ts true c.toStore := by
  induction ss generalizing b ts with
  | nil =>
    obtain rfl := List.length_eq_zero_iff.mp hlen.symm
    cases h
    exact .done
  | cons s ss ih =>
    cases ts with
    | nil => cases hlen
    | cons t ts =>
      simp only [unifyEach] at h
      cases hr : step b s t with
      | mk ok d =>
        rw [hr] at h
        cases ok with
        | true =>
          obtain ⟨hforward, hfirst⟩ := hstep hb hr
          exact .next hfirst (ih hforward (Nat.succ.inj hlen) h)
        | false => cases h

/-- A call with a limited depth that succeeds returns without the limit, too. -/
theorem returns_unifyInner (n : Nat) (hb : b.Forward) (h : unifyInner n b s t = (true, c)) :
    Returns b.toStore s t true c.toStore := by
  induction n generalizing b c s t with
  | zero => cases h
  | succ n ih =>
    obtain ⟨vs, hs, -⟩ := hb.exists_walks s
    obtain ⟨ws, ht, -⟩ := hb.exists_walks t
    simp only [unifyInner] at h
    by_cases heq : b.walk s = b.walk t
    · rw [if_pos heq] at h
      cases h
      exact .same hs (heq ▸ ht)
    · rw [if_neg heq] at h
      split at h
      · next hv =>
        cases h
        rw [hv] at hs heq
        rw [toStore_bind (find?_walk hb hv)]
        exact .left hs ht (Ne.symm heq)
      · next hv _ =>
        cases h
        rw [hv] at ht
        rw [toStore_bind (find?_walk hb hv)]
        exact .right hs (by cases hw : b.walk s <;> simp_all [Term.isVar]) ht
      · next f ss g ts hws hwt =>
        by_cases hfg : f = g ∧ ss.length = ts.length
        case neg => rw [if_neg hfg] at h; cases h
        rw [if_pos hfg] at h
        obtain ⟨rfl, hlen⟩ := hfg
        rw [hws] at hs heq
        rw [hwt] at ht heq
        exact .arguments hs ht (fun e => heq (congrArg _ e)) hlen (returnsAll_unifyEach (fun hb h =>
          ⟨(unifyDepth_forward hb (show unifyDepth n _ _ _ = some _ by rw [unifyDepth, h]; rfl)).1,
          ih hb h⟩) hb hlen h)
      · cases h

theorem unifies_of_unify? (hb : b.Forward) (h : b.unify? s t = some c) :
    Unifies b.toStore s t true c.toStore := by
  refine ⟨c.toStore, returns_unifyInner (b.weight + s.size + t.size) hb ?_, rfl⟩
  rw [unify?_eq, unifyDepth] at h
  cases hr : unifyInner (b.weight + s.size + t.size) b s t with
  | mk ok d =>
    rw [hr] at h
    cases ok with
    | true => cases h; rfl
    | false => cases h

/-- Bindings whose chains go forward can be made one after the other, on top of any of the older
ones. -/
theorem later_of_suffix (hc : c.Forward) (h : b.trail <:+ c.trail) :
    Later b.mark b.toStore c.toStore := by
  generalize hn : c.mark - b.mark = n
  induction n generalizing c with
  | zero =>
    have hlen : b.mark ≤ c.mark := h.length_le
    have heq : c = b := by rw [← undoTo_of_suffix h, show b.mark = c.mark by omega, undoTo_mark]
    exact heq ▸ .now
  | succ n ih =>
    have hpop : c.pop.trail = c.trail.tail := trail_pop c
    cases ht : c.trail with
    | nil => simp [mark, ht] at hn
    | cons p older =>
      obtain ⟨v, u⟩ := p
      rw [ht, List.tail_cons] at hpop
      have hforward : ForwardTrail ((v, u) :: older) := ht ▸ hc
      have hunique := c.unique
      rw [ht, List.map_cons, List.nodup_cons] at hunique
      have hv : c.pop.find? v = none := by
        rw [find?_eq_lookup, hpop, lookup_eq_none_iff]; exact hunique.1
      have hbind : c = c.pop.bind v u := by ext1; rw [trail_bind hv, hpop, ht]
      have hsuffix : b.trail <:+ c.pop.trail := by
        rw [hpop]
        rcases List.suffix_cons_iff.mp (ht ▸ h) with heq | hs
        · simp [mark, ht, heq] at hn
        · exact hs
      have hpopped : c.pop.Forward := by rw [Forward, hpop]; exact hforward.2
      have hlater :=
        ih hpopped hsuffix (by simp only [mark, ht, hpop, List.length_cons] at hn ⊢; omega)
      have hends : ∀ t : Term, Stops older t → c.pop.toStore.Ends t := fun t hstops w hw => by
        rw [map_toStore, find?_eq_lookup, hpop]
        exact hstops w hw
      have hvar : c.pop.toStore.Ends (.var v) := fun w hw => by cases hw; exact hv
      rw [hbind, toStore_bind hv]
      exact .unify hlater ⟨_, .left (.stop hvar) (.stop (hends u hforward.1.2)) hforward.1.1, rfl⟩

theorem Forward.reached (hb : b.Forward) : Reached b.toStore := by
  have hall : ∀ {τ : Store}, Later 0 (empty : Bindings).toStore τ → Reached τ := by
    intro τ h
    induction h with
    | now => exact .empty
    | unify _ hcall ih => exact .unify ih hcall
    | undo _ _ ih => exact .undo _ ih
  exact hall (later_of_suffix (b := empty) hb List.nil_suffix)

theorem suffix_perform (h : b.trail <:+ c.trail) {change : Change}
    (hundo : ∀ m, change = .undo m → b.mark ≤ m) : b.trail <:+ (c.perform change).trail := by
  cases change with
  | unify s t =>
    rw [perform, unify_eq]
    cases hu : c.unify? s t with
    | none => exact h
    | some d => exact h.trans (suffix_of_unify? hu)
  | undo m => exact suffix_undoTo h (hundo m rfl)

theorem suffix_performAll (h : b.trail <:+ c.trail) {changes : List Change}
    (hundo : ∀ m, .undo m ∈ changes → b.mark ≤ m) :
    b.trail <:+ (changes.foldl perform c).trail := by
  induction changes generalizing c with
  | nil => exact h
  | cons change changes ih =>
    have hfirst := suffix_perform h (fun m (hm : change = .undo m) => hundo m (by simp [hm]))
    exact ih hfirst fun m hm => hundo m (by simp [hm])

end Bindings

/-- In every plain store that calls of unification which return and going back lead to, the trail
holds the variables of the map, each of them once. However the store is changed after a mark was
taken, as long as it does not go back further, going back to the mark restores the map and the trail
of then. Bindings changed by unification of limited depth are such stores, and are restored in the
same way. -/
theorem Store.trail_restores :
    (∀ σ, Reached σ → σ.trail.Nodup ∧ (∀ v, v ∈ σ.trail ↔ v ∈ σ.map) ∧
      ∀ τ, Later σ.mark σ τ → τ.undoTo σ.mark = σ) ∧
    ∀ changes, Reached (after changes) ∧ (Bindings.after changes).toStore = after changes ∧
      ∀ later : List Change, (∀ m, .undo m ∈ later → (after changes).mark ≤ m) →
        Later (after changes).mark (after changes) (later.foldl perform (after changes)) ∧
        (later.foldl Bindings.perform (Bindings.after changes)).undoTo
          (Bindings.after changes).mark = Bindings.after changes := by
  constructor
  · intro σ h
    obtain ⟨b, hb, rfl⟩ := Bindings.exists_forward h
    refine ⟨b.unique, b.mem_trail_toStore, fun τ hτ => ?_⟩
    rw [Bindings.mark_toStore] at hτ
    obtain ⟨c, -, hsuffix, rfl⟩ := Bindings.grows_of_later hb hτ
    rw [Bindings.mark_toStore, ← Bindings.toStore_undoTo, Bindings.undoTo_of_suffix hsuffix]
  · intro changes
    have hforward := Bindings.forward_after changes
    rw [← Bindings.toStore_after, Bindings.mark_toStore]
    refine ⟨hforward.reached, rfl, fun later hlater => ?_⟩
    have hsuffix := Bindings.suffix_performAll List.suffix_rfl hlater
    obtain ⟨hforward', hstore⟩ := hforward.performAll later
    rw [← hstore]
    exact ⟨Bindings.later_of_suffix hforward' hsuffix, Bindings.undoTo_of_suffix hsuffix⟩

namespace Store

def setup : List Change :=
  [.unify (.named "X") (.named "Y"),
    .unify (.compound "f" [.named "Y"]) (.compound "f" [.compound "g" [.named "Z"]])]

def detour : List Change :=
  [.unify (.compound "h" [.named "Z", .named "X"]) (.compound "h" [.atom "a", .atom "b"]),
    .unify (.named "W") (.named "X"), .unify (.named "V") (.named "Z"), .undo 3,
    .unify (.compound "g" [.int 1]) (.named "W")]

theorem trail_restores_detour :
    Reached (after setup) ∧ (after setup).mark = 2 ∧ (detour.foldl perform (after setup)).mark = 4 ∧
      Later 2 (after setup) (detour.foldl perform (after setup)) ∧
      (detour.foldl perform (after setup)).undoTo 2 = after setup := by
  have hmark : (after setup).mark = 2 := by decide +kernel
  have hundo : ∀ m, .undo m ∈ detour → (after setup).mark ≤ m := by
    intro m hm
    have hm : m = 3 := by simpa [detour] using hm
    omega
  obtain ⟨hreached, -, hbindings⟩ := trail_restores.2 setup
  have hlater := (hbindings detour hundo).1
  have hback := (trail_restores.1 _ hreached).2.2 _ hlater
  rw [hmark] at hlater hback
  exact ⟨hreached, hmark, by decide +kernel, hlater, hback⟩

end Store

end GraphRules
