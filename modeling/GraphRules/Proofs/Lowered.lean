import GraphRules.Program.Lowering
import GraphRules.Proofs.Variants
import Mathlib.Data.List.Nodup
import Mathlib.Data.List.Perm.Subperm

/-! What lowering makes of literals and formulas. A lowered literal is the literal with a name for
each of its wildcards, from left to right. Names given to wildcards differ from each other and from
the variables of the clause. -/
namespace GraphRules.Lowering

theorem wildcardName_injective {m n : Nat} (h : wildcardName m = wildcardName n) : m = n := by
  have hrepr : m.repr = n.repr := (String.append_right_inj "_G").mp h
  rw [Nat.repr_eq_ofList_toDigits, Nat.repr_eq_ofList_toDigits] at hrepr
  have hdigits := congrArg (fun s => Nat.ofDigitChars 10 s.toList 0) hrepr
  simpa [Nat.ofDigitChars_toDigits] using hdigits

theorem nextFree_spec (taken : List String) (fuel n : Nat) :
    n ≤ nextFree taken fuel n ∧
      (wildcardName (nextFree taken fuel n) ∉ taken ∨
        nextFree taken fuel n = n + fuel ∧ ∀ k, n ≤ k → k < n + fuel → wildcardName k ∈ taken) := by
  induction fuel generalizing n with
  | zero => exact ⟨Nat.le_refl n, .inr ⟨rfl, fun k h h' => by omega⟩⟩
  | succ fuel ih =>
    unfold nextFree
    split
    · next hn =>
      obtain ⟨hle, hfree⟩ := ih (n + 1)
      refine ⟨by omega, hfree.imp_right fun ⟨heq, hall⟩ => ⟨by omega, fun k hk hk' => ?_⟩⟩
      rcases Nat.eq_or_lt_of_le hk with rfl | hk
      · exact hn
      · exact hall k hk (by omega)
    · next hn => exact ⟨Nat.le_refl n, .inl hn⟩

theorem nextFree_not_mem (taken : List String) (n : Nat) :
    wildcardName (nextFree taken taken.length n) ∉ taken := by
  rcases (nextFree_spec taken taken.length n).2 with h | ⟨heq, hall⟩
  · exact h
  · rw [heq]
    intro hmem
    have hsub : (List.range' n (taken.length + 1)).map wildcardName ⊆ taken := by
      intro w hw
      obtain ⟨k, hk, rfl⟩ := List.mem_map.mp hw
      rw [List.mem_range'_1] at hk
      rcases Nat.lt_or_ge k (n + taken.length) with hlt | hge
      · exact hall k hk.1 hlt
      · rwa [show k = n + taken.length by omega]
    have hnodup : ((List.range' n (taken.length + 1)).map wildcardName).Nodup :=
      List.Nodup.map (fun _ _ => wildcardName_injective) List.nodup_range'
    have hlen := (hnodup.subperm hsub).length_le
    rw [List.length_map, List.length_range'] at hlen
    omega

/-- Names for wildcards that were given out while the count went from `n` to `n'`. -/
structure Numbered (taken : List String) (n n' : Nat) (ws : List String) : Prop where
  le : n ≤ n'
  nodup : ws.Nodup
  free : ∀ w ∈ ws, w ∉ taken
  range : ∀ w ∈ ws, ∃ k, n < k ∧ k ≤ n' ∧ w = wildcardName k

variable {taken : List String} {n m k : Nat} {ws ws' : List String}

theorem numbered_nil (n : Nat) : Numbered taken n n [] := ⟨Nat.le_refl n, .nil, nofun, nofun⟩

theorem Numbered.append (h : Numbered taken n m ws) (h' : Numbered taken m k ws') :
    Numbered taken n k (ws ++ ws') where
  le := Nat.le_trans h.le h'.le
  nodup := by
    refine List.Nodup.append h.nodup h'.nodup fun w hw hw' => ?_
    obtain ⟨i, _, hi, rfl⟩ := h.range w hw
    obtain ⟨j, hj, _, hij⟩ := h'.range _ hw'
    have := wildcardName_injective hij
    omega
  free w hw := (List.mem_append.mp hw).elim (h.free w) (h'.free w)
  range w hw := by
    rcases List.mem_append.mp hw with hw | hw
    · obtain ⟨i, hi, hi', rfl⟩ := h.range w hw
      exact ⟨i, hi, Nat.le_trans hi' h'.le, rfl⟩
    · obtain ⟨i, hi, hi', rfl⟩ := h'.range w hw
      exact ⟨i, Nat.lt_of_le_of_lt h.le hi, hi', rfl⟩

end GraphRules.Lowering

namespace GraphRules

open Lowering

def Arg.Lowers (a : Arg) (ws : List String) (t : Term) : Prop :=
  match a.kind with
  | .var x => ws = [] ∧ t = .named x
  | .wildcard => ∃ w, ws = [w] ∧ t = .named w
  | .symbol s => ws = [] ∧ t = .atom s
  | .quoted s => ws = [] ∧ t = .atom s
  | .int x => ws = [] ∧ t = .int x
  | .float x => ws = [] ∧ t = .number (.float x)

inductive Arg.LowersAll : List Arg → List String → List Term → Prop
  | nil : LowersAll [] [] []
  | cons {a : Arg} {as : List Arg} {ws ws' : List String} {t : Term} {ts : List Term}
    (h : a.Lowers ws t) (hs : LowersAll as ws' ts) : LowersAll (a :: as) (ws ++ ws') (t :: ts)

mutual

def Literal.Lowers : Literal → List String → Term → Prop
  | .call c, ws, t => ∃ ts, Arg.LowersAll c.args ws ts ∧ t = .apply c.name ts
  | .negated f _, ws, t => ∃ u, f.Lowers ws u ∧ t = .compound "not" [u]
  | .compare c, ws, t => ∃ l r, Arg.LowersAll [c.left, c.right] ws [l, r] ∧
    t = .compound c.op.symbol [l, r]
  | .group f, ws, t => f.Lowers ws t

def Formula.Lowers : Formula → List String → Term → Prop
  | .mk ds _, ws, t => ∃ ts, Formula.LowersAny ds ws ts ∧ t = .disjunction ts

def Formula.LowersAny : List (List Literal) → List String → List Term → Prop
  | [], ws, ts => ws = [] ∧ ts = []
  | c :: cs, ws, ts => ∃ ws₁ ws₂ us rest, Literal.LowersAll c ws₁ us ∧
    Formula.LowersAny cs ws₂ rest ∧
    ws = ws₁ ++ ws₂ ∧ ts = .conjunction us :: rest

def Literal.LowersAll : List Literal → List String → List Term → Prop
  | [], ws, ts => ws = [] ∧ ts = []
  | l :: ls, ws, ts => ∃ ws₁ ws₂ t rest, l.Lowers ws₁ t ∧ Literal.LowersAll ls ws₂ rest ∧
    ws = ws₁ ++ ws₂ ∧ ts = t :: rest

end

namespace Lowering

theorem lowerArg_spec (taken : List String) (a : Arg) (n : Nat) :
    ∃ ws, a.Lowers ws (lowerArg taken a n).1 ∧ Numbered taken n (lowerArg taken a n).2 ws := by
  unfold Arg.Lowers lowerArg
  cases a.kind with
  | wildcard =>
    have hle := (nextFree_spec taken taken.length (n + 1)).1
    have hfree := nextFree_not_mem taken (n + 1)
    refine ⟨[wildcardName (nextFree taken taken.length (n + 1))], ⟨_, rfl, rfl⟩, ?_⟩
    refine ⟨Nat.le_of_succ_le hle, List.nodup_singleton _, ?_, ?_⟩
    · simpa using hfree
    · intro w hw
      exact ⟨_, hle, Nat.le_refl _, List.mem_singleton.mp hw⟩
  | var x => exact ⟨[], ⟨rfl, rfl⟩, numbered_nil n⟩
  | symbol s => exact ⟨[], ⟨rfl, rfl⟩, numbered_nil n⟩
  | quoted s => exact ⟨[], ⟨rfl, rfl⟩, numbered_nil n⟩
  | int x => exact ⟨[], ⟨rfl, rfl⟩, numbered_nil n⟩
  | float x => exact ⟨[], ⟨rfl, rfl⟩, numbered_nil n⟩

theorem lowerArgs_spec (taken : List String) (as : List Arg) (n : Nat) :
    ∃ ws, Arg.LowersAll as ws (lowerArgs taken as n).1 ∧
      Numbered taken n (lowerArgs taken as n).2 ws := by
  induction as generalizing n with
  | nil => exact ⟨[], .nil, numbered_nil n⟩
  | cons a as ih =>
    obtain ⟨ws, ha, hn⟩ := lowerArg_spec taken a n
    obtain ⟨ws', has, hn'⟩ := ih (lowerArg taken a n).2
    exact ⟨ws ++ ws', .cons ha has, hn.append hn'⟩

theorem lowerCall_spec (taken : List String) (c : Call) (n : Nat) :
    ∃ ws ts, Arg.LowersAll c.args ws ts ∧ (lowerCall taken c n).1 = .apply c.name ts ∧
      Numbered taken n (lowerCall taken c n).2 ws := by
  obtain ⟨ws, has, hn⟩ := lowerArgs_spec taken c.args n
  exact ⟨ws, _, has, rfl, hn⟩

mutual

theorem lowerLiteral_spec (taken : List String) : ∀ (l : Literal) (n : Nat),
    ∃ ws, l.Lowers ws (lowerLiteral taken l n).1 ∧ Numbered taken n (lowerLiteral taken l n).2 ws
  | .call c, n => by
    obtain ⟨ws, ts, has, hc, hn⟩ := lowerCall_spec taken c n
    exact ⟨ws, ⟨ts, has, hc⟩, hn⟩
  | .negated f _, n => by
    obtain ⟨ws, hf, hn⟩ := lowerFormula_spec taken f n
    exact ⟨ws, ⟨_, hf, rfl⟩, hn⟩
  | .compare c, n => by
    obtain ⟨ws, hl, hn⟩ := lowerArg_spec taken c.left n
    obtain ⟨ws', hr, hn'⟩ := lowerArg_spec taken c.right (lowerArg taken c.left n).2
    refine ⟨ws ++ (ws' ++ []), ⟨_, _, .cons hl (.cons hr .nil), rfl⟩, ?_⟩
    rw [List.append_nil]
    exact hn.append hn'
  | .group f, n => lowerFormula_spec taken f n

theorem lowerFormula_spec (taken : List String) : ∀ (f : Formula) (n : Nat),
    ∃ ws, f.Lowers ws (lowerFormula taken f n).1 ∧ Numbered taken n (lowerFormula taken f n).2 ws
  | .mk ds _, n => by
    obtain ⟨ws, hds, hn⟩ := lowerDisjuncts_spec taken ds n
    exact ⟨ws, ⟨_, hds, rfl⟩, hn⟩

theorem lowerDisjuncts_spec (taken : List String) :
    ∀ (ds : List (List Literal)) (n : Nat), ∃ ws,
      Formula.LowersAny ds ws (lowerDisjuncts taken ds n).1 ∧
      Numbered taken n (lowerDisjuncts taken ds n).2 ws
  | [], n => ⟨[], ⟨rfl, rfl⟩, numbered_nil n⟩
  | c :: cs, n => by
    obtain ⟨ws, hc, hn⟩ := lowerLiterals_spec taken c n
    obtain ⟨ws', hcs, hn'⟩ := lowerDisjuncts_spec taken cs (lowerLiterals taken c n).2
    exact ⟨ws ++ ws', ⟨_, _, _, _, hc, hcs, rfl, rfl⟩, hn.append hn'⟩

theorem lowerLiterals_spec (taken : List String) :
    ∀ (ls : List Literal) (n : Nat), ∃ ws, Literal.LowersAll ls ws (lowerLiterals taken ls n).1 ∧
      Numbered taken n (lowerLiterals taken ls n).2 ws
  | [], n => ⟨[], ⟨rfl, rfl⟩, numbered_nil n⟩
  | l :: ls, n => by
    obtain ⟨ws, hl, hn⟩ := lowerLiteral_spec taken l n
    obtain ⟨ws', hls, hn'⟩ := lowerLiterals_spec taken ls (lowerLiteral taken l n).2
    exact ⟨ws ++ ws', ⟨_, _, _, _, hl, hls, rfl, rfl⟩, hn.append hn'⟩

end

end Lowering

/-- Goals joined to one by a connective. No goals are joined to a constant. -/
structure Term.Joins (op unit : String) (join : List Term → Term) : Prop where
  nil : join [] = .atom unit
  one : ∀ t, join [t] = t
  cons : ∀ t u ts, join (t :: u :: ts) = .compound op [t, join (u :: ts)]

namespace Term.Joins

theorem conjunction : Joins "," "true" conjunction := ⟨rfl, fun _ => rfl, fun _ _ _ => rfl⟩

theorem disjunction : Joins ";" "fail" disjunction := ⟨rfl, fun _ => rfl, fun _ _ _ => rfl⟩

variable {op unit : String} {join : List Term → Term} (h : Joins op unit join)
include h

theorem occurrences (ts : List Term) : (join ts).occurrences = occurrencesList ts := by
  induction ts with
  | nil => rw [h.nil]; rfl
  | cons t ts ih =>
    cases ts with
    | nil => rw [h.one]; exact (List.append_nil _).symm
    | cons u ts => rw [h.cons]; simp only [Term.occurrences, occurrencesList, ih, List.append_nil]

theorem induct {P : Term → Prop} (hunit : P (.atom unit))
    (hpair : ∀ {s t}, P s → P t → P (.compound op [s, t])) {ts : List Term}
    (hts : ∀ t ∈ ts, P t) : P (join ts) := by
  induction ts with
  | nil => rwa [h.nil]
  | cons t ts ih =>
    obtain ⟨ht, hts⟩ := List.forall_mem_cons.mp hts
    cases ts with
    | nil => rwa [h.one]
    | cons u ts => rw [h.cons]; exact hpair ht (ih hts)

end Term.Joins

variable {ws : List String} {as : List Arg} {ts : List Term}

theorem Arg.Lowers.isFlat {a : Arg} {t : Term} (h : a.Lowers ws t) : t.isFlat := by
  unfold Arg.Lowers at h
  split at h
  case h_2 => obtain ⟨w, _, rfl⟩ := h; rfl
  all_goals obtain ⟨_, rfl⟩ := h; rfl

theorem Arg.LowersAll.all_isFlat (h : Arg.LowersAll as ws ts) : ts.all Term.isFlat := by
  induction h with
  | nil => rfl
  | cons h _ ih => rw [List.all_cons, h.isFlat, ih]; rfl

theorem Arg.Lowers.mem_occurrences {a : Arg} {t : Term} (h : a.Lowers ws t) (v : Var) :
    v ∈ t.occurrences ↔ v.scope = 0 ∧ (v.name ∈ a.varName? ∨ v.name ∈ ws) := by
  obtain ⟨x, m⟩ := v
  unfold Arg.Lowers at h
  unfold Arg.varName?
  cases hk : a.kind with
  | var y =>
    rw [hk] at h; obtain ⟨rfl, rfl⟩ := h; simp [Term.named, Term.occurrences, and_comm, eq_comm]
  | wildcard =>
    rw [hk] at h; obtain ⟨w, rfl, rfl⟩ := h; simp [Term.named, Term.occurrences, and_comm]
  | symbol s => rw [hk] at h; obtain ⟨rfl, rfl⟩ := h; simp [Term.occurrences]
  | quoted s => rw [hk] at h; obtain ⟨rfl, rfl⟩ := h; simp [Term.occurrences]
  | int n => rw [hk] at h; obtain ⟨rfl, rfl⟩ := h; simp [Term.int, Term.occurrences]
  | float n => rw [hk] at h; obtain ⟨rfl, rfl⟩ := h; simp [Term.occurrences]

theorem Arg.LowersAll.mem_occurrences (h : Arg.LowersAll as ws ts) (v : Var) :
    v ∈ Term.occurrencesList ts ↔ v.scope = 0 ∧
      (v.name ∈ as.filterMap Arg.varName? ∨ v.name ∈ ws) := by
  induction h with
  | nil => simp [Term.occurrencesList]
  | @cons a as ws ws' t ts h _ ih =>
    rw [Term.occurrencesList, List.mem_append, h.mem_occurrences v, ih, List.mem_append]
    cases hv : a.varName? with
    | none =>
      rw [List.filterMap_cons_none hv]
      simp only [Option.not_mem_none]
      tauto
    | some x =>
      rw [List.filterMap_cons_some hv, List.mem_cons, Option.mem_some_iff, eq_comm (a := x)]
      tauto

theorem Comparison.filterMap_varName (c : Comparison) :
    [c.left, c.right].filterMap Arg.varName? = c.vars := by
  unfold Comparison.vars
  cases hl : c.left.varName? <;> cases hr : c.right.varName? <;> simp [hl, hr]

mutual

theorem Literal.Lowers.tame : ∀ {l : Literal} {ws : List String} {t : Term}, l.Lowers ws t → t.Tame
  | .call c, _, _, h => by
    obtain ⟨ts, hts, rfl⟩ := h
    exact .call _ hts.all_isFlat
  | .negated f _, _, _, h => by
    obtain ⟨u, hu, rfl⟩ := h
    exact .negation hu.tame
  | .compare c, _, _, h => by
    obtain ⟨l, r, hlr, rfl⟩ := h
    exact .call c.op.symbol hlr.all_isFlat
  | .group f, _, _, h => Formula.Lowers.tame (f := f) h

theorem Formula.Lowers.tame : ∀ {f : Formula} {ws : List String} {t : Term}, f.Lowers ws t → t.Tame
  | .mk ds _, _, _, h => by
    obtain ⟨ts, hts, rfl⟩ := h
    exact Term.Joins.disjunction.induct (.flat rfl) .either (Formula.LowersAny.tame hts)

theorem Formula.LowersAny.tame : ∀ {ds : List (List Literal)} {ws : List String} {ts : List Term},
    Formula.LowersAny ds ws ts → ∀ t ∈ ts, t.Tame
  | [], _, _, h => by obtain ⟨_, rfl⟩ := h; exact nofun
  | c :: cs, _, _, h => by
    obtain ⟨ws₁, ws₂, us, rest, hc, hcs, rfl, rfl⟩ := h
    have htame := Term.Joins.conjunction.induct (.flat rfl) .both (Literal.LowersAll.tame hc)
    exact List.forall_mem_cons.mpr ⟨htame, Formula.LowersAny.tame hcs⟩

theorem Literal.LowersAll.tame : ∀ {ls : List Literal} {ws : List String} {ts : List Term},
    Literal.LowersAll ls ws ts → ∀ t ∈ ts, t.Tame
  | [], _, _, h => by obtain ⟨_, rfl⟩ := h; exact nofun
  | l :: ls, _, _, h => by
    obtain ⟨ws₁, ws₂, t, rest, hl, hls, rfl, rfl⟩ := h
    exact List.forall_mem_cons.mpr ⟨Literal.Lowers.tame hl, Literal.LowersAll.tame hls⟩

end

mutual

/-- The variables of a lowered literal are its own and the names of its wildcards. -/
theorem Literal.Lowers.mem_occurrences :
    ∀ {l : Literal} {ws : List String} {t : Term}, l.Lowers ws t →
    ∀ v, v ∈ t.occurrences ↔ v.scope = 0 ∧ (v.name ∈ l.vars ∨ v.name ∈ ws)
  | .call c, _, _, h, v => by
    obtain ⟨ts, hts, rfl⟩ := h
    rw [Term.occurrences_apply]
    exact hts.mem_occurrences v
  | .negated f _, _, _, h, v => by
    obtain ⟨u, hu, rfl⟩ := h
    rw [Term.occurrences, Term.occurrencesList, Term.occurrencesList, List.append_nil]
    exact Formula.Lowers.mem_occurrences hu v
  | .compare c, _, _, h, v => by
    obtain ⟨l, r, hlr, rfl⟩ := h
    rw [Term.occurrences, hlr.mem_occurrences v, c.filterMap_varName]
    rfl
  | .group f, _, _, h, v => Formula.Lowers.mem_occurrences (f := f) h v

theorem Formula.Lowers.mem_occurrences :
    ∀ {f : Formula} {ws : List String} {t : Term}, f.Lowers ws t →
    ∀ v, v ∈ t.occurrences ↔ v.scope = 0 ∧ (v.name ∈ f.vars ∨ v.name ∈ ws)
  | .mk ds _, _, _, h, v => by
    obtain ⟨ts, hts, rfl⟩ := h
    rw [Term.Joins.disjunction.occurrences]
    exact Formula.LowersAny.mem_occurrences hts v

theorem Formula.LowersAny.mem_occurrences :
    ∀ {ds : List (List Literal)} {ws : List String} {ts : List Term}, Formula.LowersAny ds ws ts →
      ∀ v, v ∈ Term.occurrencesList ts ↔ v.scope = 0 ∧ (v.name ∈ Formula.varsAll ds ∨ v.name ∈ ws)
  | [], _, _, h, v => by obtain ⟨rfl, rfl⟩ := h; simp [Term.occurrencesList, Formula.varsAll]
  | c :: cs, _, _, h, v => by
    obtain ⟨ws₁, ws₂, us, rest, hc, hcs, rfl, rfl⟩ := h
    rw [Term.occurrencesList, List.mem_append, Term.Joins.conjunction.occurrences,
      Literal.LowersAll.mem_occurrences hc v, Formula.LowersAny.mem_occurrences hcs v,
      Formula.varsAll, List.mem_append, List.mem_append]
    tauto

theorem Literal.LowersAll.mem_occurrences :
    ∀ {ls : List Literal} {ws : List String} {ts : List Term}, Literal.LowersAll ls ws ts →
      ∀ v, v ∈ Term.occurrencesList ts ↔ v.scope = 0 ∧ (v.name ∈ Literal.varsAll ls ∨ v.name ∈ ws)
  | [], _, _, h, v => by obtain ⟨rfl, rfl⟩ := h; simp [Term.occurrencesList, Literal.varsAll]
  | l :: ls, _, _, h, v => by
    obtain ⟨ws₁, ws₂, t, rest, hl, hls, rfl, rfl⟩ := h
    rw [Term.occurrencesList, List.mem_append, Literal.Lowers.mem_occurrences hl v,
      Literal.LowersAll.mem_occurrences hls v, Literal.varsAll, List.mem_append, List.mem_append]
    tauto

end

end GraphRules
