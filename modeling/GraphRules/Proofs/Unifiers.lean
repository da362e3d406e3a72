import GraphRules.Proofs.Operations
import Mathlib.Data.List.Count
import Mathlib.Logic.Relation

/-! Bindings as equations between finite terms. A substitution solves bindings when every bound
variable becomes the same term as what it is bound to. Unification adds to the bindings what every
substitution must satisfy that makes the two terms equal, and fails only if there is none: the depth
that it is allowed is enough, since below a compound term a solution has smaller terms, and there
are only so many of these. -/
namespace GraphRules

abbrev Substitution := Var → Term

namespace Term

variable {σ ρ : Substitution}

mutual

def subst (σ : Substitution) : Term → Term
  | .var v => σ v
  | .compound f as => .compound f (substAll σ as)
  | .atom a => .atom a
  | .number x => .number x

def substAll (σ : Substitution) : List Term → List Term
  | [] => []
  | a :: as => a.subst σ :: substAll σ as

end

theorem substAll_eq_map (as : List Term) : substAll σ as = as.map (subst σ) := by
  induction as with
  | nil => rfl
  | cons a as ih => rw [substAll, ih, List.map_cons]

mutual

theorem subst_congr : ∀ {t : Term}, (∀ v ∈ t.occurrences, σ v = ρ v) → t.subst σ = t.subst ρ
  | .atom _, _ => rfl
  | .number _, _ => rfl
  | .var v, h => h v (by simp [occurrences])
  | .compound f _, h => congrArg (Term.compound f) (substAll_congr h)

theorem substAll_congr :
    ∀ {as : List Term}, (∀ v ∈ occurrencesList as, σ v = ρ v) → substAll σ as = substAll ρ as
  | [], _ => rfl
  | _ :: _, h =>
    congrArg₂ List.cons (subst_congr fun v hv => h v (List.mem_append_left _ hv))
      (substAll_congr fun v hv => h v (List.mem_append_right _ hv))

end

theorem size_subst_lt {f : String} {as : List Term} {a : Term} (ha : a ∈ as) :
    (a.subst σ).size < ((Term.compound f as).subst σ).size := by
  have hmem : a.subst σ ∈ substAll σ as := by
    rw [substAll_eq_map]
    exact List.mem_map_of_mem ha
  have hle := size_le_sizes hmem
  rw [subst, size]
  omega

end Term

namespace Bindings

variable {b b' : Bindings} {s t : Term} {σ : Substitution}

/-- Every bound variable becomes the same term as what it is bound to. -/
def SolvedBy (b : Bindings) (σ : Substitution) : Prop := ∀ v t, b.find? v = some t → σ v = t.subst σ

/-- What passes from bound variables to what they are bound to holds at the end of a walk. -/
theorem walkSteps_induct {P : Term → Prop} (hstep : ∀ v u, b.find? v = some u → P (.var v) → P u)
    (n : Nat) (ht : P t) : P (b.walkSteps n t) := by
  induction n generalizing t with
  | zero => cases t <;> exact ht
  | succ n ih =>
    cases t with
    | var v =>
      simp only [walkSteps]
      cases hv : b.find? v with
      | none => exact ht
      | some u => exact ih (hstep v u hv ht)
    | atom a => exact ht
    | number x => exact ht
    | compound f as => exact ht

theorem SolvedBy.walk (h : b.SolvedBy σ) (t : Term) : (b.walk t).subst σ = t.subst σ :=
  walkSteps_induct (P := fun u => u.subst σ = t.subst σ)
    (fun v u hv hu => (h v u hv).symm.trans hu) _ rfl

theorem solvedBy_bind {v : Var} (hv : b.find? v = none) (u : Term) :
    (b.bind v u).SolvedBy σ ↔ b.SolvedBy σ ∧ σ v = u.subst σ := by
  constructor
  · intro h
    refine ⟨fun w t hw => ?_, h v u (by rw [find?_bind hv, if_pos rfl])⟩
    have hne : w ≠ v := fun e => by rw [e, hv] at hw; cases hw
    exact h w t (by rw [find?_bind hv, if_neg hne, hw])
  · rintro ⟨h, hu⟩ w t hw
    rw [find?_bind hv] at hw
    split at hw
    · next e => cases hw; rw [e]; exact hu
    · exact h w t hw

/-- What the unification of two terms comes to, by the ends of their walks. -/
theorem unifyDepth_cases (n : Nat) (b : Bindings) (s t : Term) :
    (b.walk s = b.walk t ∧ unifyDepth (n + 1) b s t = some b) ∨
      (∃ v u, (b.walk s = .var v ∧ b.walk t = u ∨ b.walk t = .var v ∧ b.walk s = u) ∧ u ≠ .var v ∧
        unifyDepth (n + 1) b s t = some (b.bind v u)) ∨
      (∃ f ss ts, b.walk s = .compound f ss ∧ b.walk t = .compound f ts ∧
        unifyDepth (n + 1) b s t = unifyAll (unifyDepth n) b ss ts) ∨
      (∀ σ, (b.walk s).subst σ ≠ (b.walk t).subst σ) ∧ unifyDepth (n + 1) b s t = none := by
  rw [unifyDepth_succ]
  generalize b.walk s = u
  generalize b.walk t = w
  by_cases heq : u = w
  · exact .inl ⟨heq, if_pos heq⟩
  · rw [if_neg heq]
    cases u with
    | var v => exact .inr (.inl ⟨v, w, .inl ⟨rfl, rfl⟩, fun e => heq e.symm, rfl⟩)
    | atom a =>
      cases w with
      | var v => exact .inr (.inl ⟨v, _, .inr ⟨rfl, rfl⟩, heq, rfl⟩)
      | atom c => exact .inr (.inr (.inr ⟨fun σ => heq, rfl⟩))
      | number x => exact .inr (.inr (.inr ⟨fun σ => heq, rfl⟩))
      | compound g ts => exact .inr (.inr (.inr ⟨fun σ => by simp [Term.subst], rfl⟩))
    | number x =>
      cases w with
      | var v => exact .inr (.inl ⟨v, _, .inr ⟨rfl, rfl⟩, heq, rfl⟩)
      | atom c => exact .inr (.inr (.inr ⟨fun σ => heq, rfl⟩))
      | number y => exact .inr (.inr (.inr ⟨fun σ => heq, rfl⟩))
      | compound g ts => exact .inr (.inr (.inr ⟨fun σ => by simp [Term.subst], rfl⟩))
    | compound f ss =>
      cases w with
      | var v => exact .inr (.inl ⟨v, _, .inr ⟨rfl, rfl⟩, heq, rfl⟩)
      | atom c => exact .inr (.inr (.inr ⟨fun σ => by simp [Term.subst], rfl⟩))
      | number y => exact .inr (.inr (.inr ⟨fun σ => by simp [Term.subst], rfl⟩))
      | compound g ts =>
        by_cases hfg : f = g
        · subst hfg
          exact .inr (.inr (.inl ⟨f, ss, ts, rfl, rfl, if_pos rfl⟩))
        · refine .inr (.inr (.inr ⟨fun σ e => hfg ?_, if_neg hfg⟩))
          exact (Term.compound.inj e).1

/-- Bindings after a list of unifications have the solutions of those before that make the terms
equal in pairs. -/
theorem solvedBy_unifyAll {step : Bindings → Term → Term → Option Bindings}
    (hstep : ∀ b b' s t, b.Forward → step b s t = some b' →
      b'.Forward ∧ (b'.SolvedBy σ ↔ b.SolvedBy σ ∧ s.subst σ = t.subst σ))
    {ss ts : List Term} (hb : b.Forward) (h : unifyAll step b ss ts = some b') :
    b'.SolvedBy σ ↔ b.SolvedBy σ ∧ Term.substAll σ ss = Term.substAll σ ts := by
  induction ss generalizing b ts with
  | nil =>
    cases ts with
    | nil => cases h; simp
    | cons t ts => cases h
  | cons s ss ih =>
    cases ts with
    | nil => cases h
    | cons t ts =>
      rw [unifyAll] at h
      cases hc : step b s t with
      | none => simp [hc] at h
      | some c =>
        obtain ⟨hforward, hiff⟩ := hstep b c s t hb hc
        rw [hc] at h
        rw [ih hforward h, hiff, Term.substAll, Term.substAll, List.cons.injEq, and_assoc]

theorem solvedBy_unifyDepth (n : Nat) (hb : b.Forward) (h : unifyDepth n b s t = some b') :
    b'.SolvedBy σ ↔ b.SolvedBy σ ∧ s.subst σ = t.subst σ := by
  induction n generalizing b b' s t with
  | zero => cases h
  | succ n ih =>
    -- in each case it is enough to look at the ends of the two walks
    have hwalks : b.SolvedBy σ →
        (s.subst σ = t.subst σ ↔ (b.walk s).subst σ = (b.walk t).subst σ) := fun hσ => by
      rw [hσ.walk, hσ.walk]
    rw [and_congr_right hwalks]
    obtain ⟨hwalk, hu⟩ | ⟨v, u, hends, -, hu⟩ | ⟨f, ss, ts, hs, ht, hu⟩ | ⟨-, hu⟩ :=
      unifyDepth_cases n b s t
    · rw [hu] at h
      cases h
      rw [hwalk, and_iff_left rfl]
    · rw [hu] at h
      cases h
      obtain ⟨hv, rfl⟩ | ⟨hv, rfl⟩ := hends
      · rw [solvedBy_bind (find?_walk hb hv), hv, Term.subst]
      · rw [solvedBy_bind (find?_walk hb hv), hv, Term.subst, eq_comm]
    · rw [hu] at h
      rw [solvedBy_unifyAll (fun _ _ _ _ hb h => ⟨(unifyDepth_forward hb h).1, ih hb h⟩) hb h,
        hs, ht, Term.subst, Term.subst, Term.compound.injEq, eq_self, true_and]
    · rw [hu] at h
      cases h

end Bindings

/-! ### Depth -/

theorem countP_lt {α : Type} {p q : α → Bool} {l : List α} (hpq : ∀ x, p x → q x) {a : α}
    (ha : a ∈ l) (hq : q a) (hp : ¬ p a) : l.countP p < l.countP q := by
  obtain ⟨l₁, l₂, rfl⟩ := List.append_of_mem ha
  have h₁ : l₁.countP p ≤ l₁.countP q := List.countP_mono_left fun x _ => hpq x
  have h₂ : l₂.countP p ≤ l₂.countP q := List.countP_mono_left fun x _ => hpq x
  rw [List.countP_append, List.countP_append, List.countP_cons_of_pos hq,
    List.countP_cons_of_neg hp]
  omega

namespace Term

mutual

def parts : Term → List Term
  | .compound f as => .compound f as :: partsAll as
  | t => [t]

def partsAll : List Term → List Term
  | [] => []
  | a :: as => a.parts ++ partsAll as

end

mutual

theorem length_parts : ∀ t : Term, t.parts.length = t.size
  | .atom _ => rfl
  | .number _ => rfl
  | .var _ => rfl
  | .compound _ as => by rw [parts, size, List.length_cons, length_partsAll as, Nat.add_comm]

theorem length_partsAll : ∀ as : List Term, (partsAll as).length = sizes as
  | [] => rfl
  | a :: as => by rw [partsAll, sizes, List.length_append, length_parts a, length_partsAll as]

end

theorem mem_parts_self (t : Term) : t ∈ t.parts := by
  cases t <;> simp [parts]

theorem mem_partsAll {t : Term} {ts : List Term} : t ∈ partsAll ts ↔ ∃ a ∈ ts, t ∈ a.parts := by
  induction ts with
  | nil => simp [partsAll]
  | cons a ts ih => simp [partsAll, ih]

theorem sizes_append (ss ts : List Term) : sizes (ss ++ ts) = sizes ss + sizes ts := by
  induction ss with
  | nil => simp [sizes]
  | cons s ss ih => rw [List.cons_append, sizes, sizes, ih, Nat.add_assoc]

def ArgClosed (pool : List Term) : Prop := ∀ f as, .compound f as ∈ pool → ∀ a ∈ as, a ∈ pool

mutual

theorem argClosed_parts : ∀ t : Term, ArgClosed t.parts
  | .atom _ => fun f as h => by simp [parts] at h
  | .number _ => fun f as h => by simp [parts] at h
  | .var _ => fun f as h => by simp [parts] at h
  | .compound g cs => fun f as h a ha => by
    rw [parts, List.mem_cons] at h ⊢
    obtain h | h := h
    · cases h
      exact .inr (mem_partsAll.mpr ⟨a, ha, mem_parts_self a⟩)
    · exact .inr (argClosed_partsAll cs f as h a ha)

theorem argClosed_partsAll : ∀ ts : List Term, ArgClosed (partsAll ts)
  | [] => fun f as h => by simp [partsAll] at h
  | t :: ts => fun f as h a ha => by
    rw [partsAll, List.mem_append] at h ⊢
    exact h.imp (argClosed_parts t f as · a ha) (argClosed_partsAll ts f as · a ha)

end

def rank (σ : Substitution) (pool : List Term) (t : Term) : Nat :=
  pool.countP fun u => (u.subst σ).size ≤ (t.subst σ).size

variable {pool : List Term} {σ : Substitution}

theorem rank_pos {t : Term} (ht : t ∈ pool) : 0 < rank σ pool t :=
  List.countP_pos_iff.mpr ⟨t, ht, by simp⟩

theorem rank_lt {f : String} {as : List Term} (hf : .compound f as ∈ pool) {a : Term}
    (ha : a ∈ as) : rank σ pool a < rank σ pool (.compound f as) := by
  have hsize : (a.subst σ).size < ((Term.compound f as).subst σ).size := size_subst_lt ha
  exact countP_lt (fun u hu => by simp only [decide_eq_true_eq] at hu ⊢; omega) hf
    (by simp) (by simpa using hsize)

end Term

namespace Bindings

variable {b : Bindings} {s t : Term} {σ : Substitution} {pool ts : List Term} {v : Var}

def BoundIn (b : Bindings) (pool : List Term) : Prop := ∀ v t, b.find? v = some t → t ∈ pool

theorem BoundIn.walk (h : b.BoundIn pool) (ht : t ∈ pool) : b.walk t ∈ pool :=
  walkSteps_induct (fun v u hv _ => h v u hv) _ ht

theorem BoundIn.bind (h : b.BoundIn pool) (hv : b.find? v = none) (ht : t ∈ pool) :
    (b.bind v t).BoundIn pool := by
  intro w u hw
  rw [find?_bind hv] at hw
  split at hw
  · cases hw; exact ht
  · exact h w u hw

def allParts (b : Bindings) (ts : List Term) : List Term :=
  Term.partsAll (ts ++ b.trail.map Prod.snd)

theorem mem_allParts (ht : t ∈ ts) : t ∈ b.allParts ts :=
  Term.mem_partsAll.mpr ⟨t, List.mem_append_left _ ht, t.mem_parts_self⟩

theorem mem_trail_of_find? (h : b.find? v = some t) : (v, t) ∈ b.trail := by
  rw [find?_eq_lookup] at h
  obtain ⟨l, l', e, -⟩ := List.lookup_eq_some_iff.mp h
  simp [e]

theorem boundIn_allParts (b : Bindings) (ts : List Term) : b.BoundIn (b.allParts ts) := by
  intro v t hv
  have hmem : t ∈ b.trail.map Prod.snd := List.mem_map_of_mem (mem_trail_of_find? hv)
  exact Term.mem_partsAll.mpr ⟨t, List.mem_append_right _ hmem, t.mem_parts_self⟩

theorem rank_allParts_le (σ : Substitution) (b : Bindings) (ts : List Term) (t : Term) :
    Term.rank σ (b.allParts ts) t ≤ b.weight + Term.sizes ts := by
  calc Term.rank σ (b.allParts ts) t ≤ (b.allParts ts).length := List.countP_le_length
    _ = b.weight + Term.sizes ts := by
      rw [allParts, Term.length_partsAll, Term.sizes_append, b.weight_eq, Nat.add_comm]

theorem SolvedBy.rank_walk (h : b.SolvedBy σ) (t : Term) :
    Term.rank σ pool (b.walk t) = Term.rank σ pool t := by
  rw [Term.rank, h.walk, ← Term.rank]

theorem exists_unifyAll {step : Bindings → Term → Term → Option Bindings} {P : Bindings → Prop}
    {ss : List Term}
    (hstep : ∀ b, P b → ∀ s ∈ ss, ∀ t ∈ ts, s.subst σ = t.subst σ → ∃ b', step b s t = some b' ∧
      P b') (hb : P b) (h : Term.substAll σ ss = Term.substAll σ ts) :
    ∃ b', unifyAll step b ss ts = some b' ∧ P b' := by
  induction ss generalizing b ts with
  | nil =>
    cases ts with
    | nil => exact ⟨b, rfl, hb⟩
    | cons t ts => cases h
  | cons s ss ih =>
    cases ts with
    | nil => cases h
    | cons t ts =>
      simp only [Term.substAll, List.cons.injEq] at h
      obtain ⟨c, hc, hPc⟩ := hstep b hb s (by simp) t (by simp) h.1
      obtain ⟨b', hb', hPb'⟩ :=
        ih (fun b hb s hs t ht => hstep b hb s (by simp [hs]) t (by simp [ht])) hPc h.2
      exact ⟨b', by rw [unifyAll, hc]; exact hb', hPb'⟩

/-- Two terms that a solution makes equal are unified: the depth is the rank of what they become,
and the arguments of a compound term have a smaller one. -/
theorem exists_unifyDepth (hclosed : Term.ArgClosed pool) (n : Nat) (hb : b.Forward)
    (hin : b.BoundIn pool) (hσ : b.SolvedBy σ) (hs : s ∈ pool) (ht : t ∈ pool)
    (h : s.subst σ = t.subst σ) (hn : Term.rank σ pool s ≤ n) :
    ∃ b', unifyDepth n b s t = some b' ∧ b'.Forward ∧ b'.BoundIn pool ∧ b'.SolvedBy σ := by
  induction n generalizing b s t with
  | zero =>
    have hpos : 0 < Term.rank σ pool s := Term.rank_pos hs
    omega
  | succ n ih =>
    have hends : (b.walk s).subst σ = (b.walk t).subst σ := by rw [hσ.walk, hσ.walk, h]
    -- what is found has the solution as soon as something is found
    have hfound : ∀ b', unifyDepth (n + 1) b s t = some b' → b'.BoundIn pool →
        ∃ b', unifyDepth (n + 1) b s t = some b' ∧ b'.Forward ∧ b'.BoundIn pool ∧
          b'.SolvedBy σ := fun b' hu hin' =>
      ⟨b', hu, (unifyDepth_forward hb hu).1, hin', (solvedBy_unifyDepth _ hb hu).mpr ⟨hσ, h⟩⟩
    obtain ⟨-, hu⟩ | ⟨v, u, hbind, -, hu⟩ | ⟨f, ss, ts, hws, hwt, hu⟩ | ⟨hne, -⟩ :=
      unifyDepth_cases n b s t
    · exact hfound b hu hin
    · obtain ⟨hv, rfl⟩ | ⟨hv, rfl⟩ := hbind
      · exact hfound _ hu (hin.bind (find?_walk hb hv) (hin.walk ht))
      · exact hfound _ hu (hin.bind (find?_walk hb hv) (hin.walk hs))
    · have hfs : .compound f ss ∈ pool := hws ▸ hin.walk hs
      have hft : .compound f ts ∈ pool := hwt ▸ hin.walk ht
      have hrank : Term.rank σ pool (.compound f ss) ≤ n + 1 := by rwa [← hws, hσ.rank_walk]
      rw [hws, hwt, Term.subst, Term.subst, Term.compound.injEq] at hends
      rw [hu]
      refine exists_unifyAll (P := fun b => b.Forward ∧ b.BoundIn pool ∧
        b.SolvedBy σ) ?_ ⟨hb, hin, hσ⟩ hends.2
      intro c hc a ha d hd had
      have hlt : Term.rank σ pool a < _ := Term.rank_lt hfs ha
      exact ih hc.1 hc.2.1 hc.2.2 (hclosed f ss hfs a ha) (hclosed f ts hft d hd) had (by omega)
    · exact absurd hends (hne σ)

theorem exists_unify? (hb : b.Forward) (hσ : b.SolvedBy σ) (h : s.subst σ = t.subst σ) :
    ∃ b', b.unify? s t = some b' := by
  have hrank := rank_allParts_le σ b [s, t] s
  rw [Term.sizes, Term.sizes, Term.sizes, Nat.add_zero, ← Nat.add_assoc] at hrank
  obtain ⟨b', hb', -⟩ :=
    exists_unifyDepth (Term.argClosed_partsAll _) _ hb (b.boundIn_allParts [s, t]) hσ
    (mem_allParts (by simp)) (mem_allParts (by simp)) h hrank
  exact ⟨b', (unify?_eq b s t).trans hb'⟩

/-! ### Resolved terms -/

/-- A solution that leaves what is not bound as it is replaces variables as resolving does. -/
theorem resolveDepth_eq_subst (hclosed : Term.ArgClosed pool) (n : Nat) (hb : b.Forward)
    (hin : b.BoundIn pool) (hσ : b.SolvedBy σ) (hfree : ∀ v, b.find? v = none → σ v = .var v)
    (ht : t ∈ pool) (hn : Term.rank σ pool t ≤ n) : b.resolveDepth n t = t.subst σ := by
  induction n generalizing t with
  | zero =>
    have hpos : 0 < Term.rank σ pool t := Term.rank_pos ht
    omega
  | succ n ih =>
    rw [resolveDepth, ← hσ.walk t]
    cases hw : b.walk t with
    | atom a => rfl
    | number x => rfl
    | var v => exact (hfree v (find?_walk hb hw)).symm
    | compound f as =>
      have hf : .compound f as ∈ pool := hw ▸ hin.walk ht
      have hrank : Term.rank σ pool (.compound f as) ≤ n + 1 := by rwa [← hw, hσ.rank_walk]
      simp only [Term.subst, Term.substAll_eq_map, Term.compound.injEq, true_and]
      refine List.map_congr_left fun a ha => ih (hclosed f as hf a ha) ?_
      have hlt : Term.rank σ pool a < _ := Term.rank_lt hf ha
      omega

theorem resolve_eq_subst (hb : b.Forward) (hσ : b.SolvedBy σ)
    (hfree : ∀ v, b.find? v = none → σ v = .var v) (t : Term) : b.resolve t = t.subst σ := by
  have hrank := rank_allParts_le σ b [t] t
  rw [Term.sizes, Term.sizes, Nat.add_zero] at hrank
  exact resolveDepth_eq_subst (Term.argClosed_partsAll _) _ hb (b.boundIn_allParts [t]) hσ hfree
    (mem_allParts (by simp)) hrank

def Involves (b : Bindings) (v w : Var) : Prop := ∃ t, b.find? v = some t ∧ w ∈ t.occurrences

/-- No variable is bound, over whatever other ones, to a term with itself in it. -/
def Acyclic (b : Bindings) : Prop := ∀ v, ¬ Relation.TransGen b.Involves v v

/-- Numbers that get smaller from a variable to those in what it is bound to leave no room for a
cycle. -/
theorem acyclic_of_lt (height : Var → Nat)
    (h : ∀ p ∈ b.trail, ∀ w ∈ p.2.occurrences, height w < height p.1) : b.Acyclic := by
  have hstep : ∀ v w, b.Involves v w → height w < height v := by
    rintro v w ⟨t, hv, hw⟩
    exact h (v, t) (mem_trail_of_find? hv) w hw
  intro v hv
  have hlt : ∀ w, Relation.TransGen b.Involves v w → height w < height v := by
    intro w hw
    induction hw with
    | single hw => exact hstep _ _ hw
    | tail _ hw ih => exact (hstep _ _ hw).trans ih
  exact absurd (hlt v hv) (Nat.lt_irrefl _)

open Classical in
noncomputable def height (b : Bindings) (v : Var) : Nat :=
  (b.trail.map Prod.fst).countP fun w => Relation.ReflTransGen b.Involves v w

theorem Acyclic.height_lt (h : b.Acyclic) {w : Var} (hvw : b.Involves v w) :
    b.height w < b.height v := by
  refine countP_lt (a := v) ?_ ?_ ?_ ?_
  · intro u hu
    simp only [decide_eq_true_eq] at hu ⊢
    exact .head hvw hu
  · obtain ⟨t, ht, -⟩ := hvw
    exact List.mem_map_of_mem (mem_trail_of_find? ht)
  · simpa using .refl
  · simp only [decide_eq_true_eq]
    intro hwv
    exact h v (.head' hvw hwv)

def unfolded (b : Bindings) : Nat → Substitution
  | 0, v => .var v
  | n + 1, v => ((b.find? v).map (Term.subst (b.unfolded n))).getD (.var v)

/-- Replacing more often than the height of a variable changes nothing. -/
theorem Acyclic.unfolded_eq (h : b.Acyclic) {n m : Nat} (hn : b.height v < n)
    (hm : b.height v < m) : b.unfolded n v = b.unfolded m v := by
  induction n generalizing m v with
  | zero => omega
  | succ n ih =>
    obtain ⟨m, rfl⟩ : ∃ k, m = k + 1 := ⟨m - 1, by omega⟩
    rw [unfolded, unfolded]
    cases hv : b.find? v with
    | none => rfl
    | some t =>
      refine Term.subst_congr fun w hw => ?_
      have hlt := h.height_lt ⟨t, hv, hw⟩
      exact ih (by omega) (by omega)

theorem Acyclic.exists_solution (h : b.Acyclic) :
    ∃ σ, b.SolvedBy σ ∧ ∀ v, b.find? v = none → σ v = .var v := by
  refine ⟨fun v => b.unfolded (b.height v + 1) v, fun v t hv => ?_,
    fun v hv => by simp [unfolded, hv]⟩
  simp only [unfolded, hv]
  refine Term.subst_congr fun w hw => ?_
  exact h.unfolded_eq (h.height_lt ⟨t, hv, hw⟩) (Nat.lt_succ_self _)

/-- Terms that every solution makes equal are resolved to the same term. -/
theorem Acyclic.resolve_eq (h : b.Acyclic) (hb : b.Forward)
    (hst : ∀ σ, b.SolvedBy σ → s.subst σ = t.subst σ) : b.resolve s = b.resolve t := by
  obtain ⟨σ, hσ, hfree⟩ := h.exists_solution
  rw [resolve_eq_subst hb hσ hfree, resolve_eq_subst hb hσ hfree, hst σ hσ]

theorem extends_of_suffix {b' : Bindings} (h : b.trail <:+ b'.trail) : b.Extends b' := by
  obtain ⟨newer, hnewer⟩ := h
  intro v t hv
  have hmem : v ∈ b.trail.map Prod.fst := List.mem_map_of_mem (mem_trail_of_find? hv)
  rw [find?_eq_lookup] at hv ⊢
  have hunique := b'.unique
  rw [← hnewer, List.map_append, List.nodup_append] at hunique
  have hnone : newer.lookup v = none := (lookup_eq_none_iff newer v).mpr fun hnew =>
    hunique.2.2 v hnew v hmem rfl
  rw [← hnewer, List.lookup_append, hnone, hv, Option.none_or]

end Bindings

/-- Unification in a store that unification and going back have led to. Where it succeeds, it keeps
the bindings that were there, and the solutions of the bindings now are those of the bindings before
that make the two terms equal; without a cycle, the two terms are resolved to the same one. Where it
fails, no solution of the bindings makes the terms equal, and the store has the map and the trail
that it had. -/
theorem Store.unify_most_general (changes : List Change) (s t : Term) :
    (∀ b, (Bindings.after changes).unify? s t = some b →
        (after changes).unify s t = (true, b.toStore) ∧ (Bindings.after changes).Extends b ∧
          (∀ σ, b.SolvedBy σ ↔ (Bindings.after changes).SolvedBy σ ∧ s.subst σ = t.subst σ) ∧
          (b.Acyclic → b.resolve s = b.resolve t)) ∧
      ((Bindings.after changes).unify? s t = none →
        (after changes).unify s t = (false, after changes) ∧
          ∀ σ, (Bindings.after changes).SolvedBy σ → s.subst σ ≠ t.subst σ) := by
  have hforward := Bindings.forward_after changes
  have hunify := Bindings.unify_toStore hforward s t
  rw [Bindings.toStore_after, Bindings.unify_eq] at hunify
  constructor
  · intro b hb
    obtain ⟨hb', hsuffix⟩ := Bindings.unify?_forward hforward hb
    have hsolved : ∀ σ, b.SolvedBy σ ↔ (Bindings.after changes).SolvedBy σ ∧
        s.subst σ = t.subst σ := fun _ =>
      Bindings.solvedBy_unifyDepth _ hforward (Bindings.unify?_eq _ s t ▸ hb)
    rw [hb] at hunify
    exact ⟨hunify, Bindings.extends_of_suffix hsuffix, hsolved,
      fun hacyclic => hacyclic.resolve_eq hb' fun σ hσ => ((hsolved σ).mp hσ).2⟩
  · intro hnone
    rw [hnone] at hunify
    refine ⟨hunify.trans (congrArg _ (Bindings.toStore_after changes)), fun σ hσ heq => ?_⟩
    obtain ⟨b, hb⟩ := Bindings.exists_unify? hforward hσ heq
    rw [hnone] at hb
    cases hb

namespace Store

def linked : List Change :=
  [.unify (.named "X") (.named "Y"), .unify (.named "Z") (.atom "a"), .undo 1]

def shared : Term := .compound "p" [.named "X", .compound "g" [.named "Y"], .named "V"]

def repeated : Term :=
  .compound "p" [.compound "f" [.named "Z"], .named "W", .compound "h" [.named "W", .named "Z"]]

def clashing : Term :=
  .compound "p" [.compound "f" [.named "Z"], .compound "g" [.atom "b"], .named "X"]

def sharedBindings : Bindings :=
  ((Bindings.after linked).unify? shared repeated).get (by decide +kernel)

theorem unify_most_general_shared :
    sharedBindings.mark = 4 ∧
      (after linked).unify shared repeated = (true, sharedBindings.toStore) ∧
      (∀ σ, sharedBindings.SolvedBy σ ↔ (Bindings.after linked).SolvedBy σ ∧
        shared.subst σ = repeated.subst σ) ∧
      sharedBindings.resolve shared = sharedBindings.resolve repeated ∧
      (after linked).unify shared clashing = (false, after linked) ∧
      ∀ σ, (Bindings.after linked).SolvedBy σ → shared.subst σ ≠ clashing.subst σ := by
  have hunify : (Bindings.after linked).unify? shared repeated = some sharedBindings :=
    (Option.some_get _).symm
  have hacyclic : sharedBindings.Acyclic :=
    Bindings.acyclic_of_lt (fun v => ["Z", "Y", "X", "W", "V"].idxOf v.name) (by decide +kernel)
  have hclash : (Bindings.after linked).unify? shared clashing = none := by
    rw [← Option.isNone_iff_eq_none]
    decide +kernel
  obtain ⟨hstore, -, hsolved, hresolve⟩ :=
    (unify_most_general linked shared repeated).1 sharedBindings hunify
  obtain ⟨hback, hnone⟩ := (unify_most_general linked shared clashing).2 hclash
  exact ⟨by decide +kernel, hstore, hsolved, hresolve hacyclic, hback, hnone⟩

end Store

end GraphRules
