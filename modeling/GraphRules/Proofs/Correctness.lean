import GraphRules.Proofs.Branches
import GraphRules.Proofs.Meaning

/-! Resolution is sound and complete for safe programs. The answers to a list of goals admit
valuations under which the goals hold, and every valuation under which they hold is admitted by an
answer, if the search comes to its end and nothing was cut. -/
namespace GraphRules.Reference

open Search

def callVars (ts : List Term) : Set Var :=
  {v | ∃ t ∈ ts, (∃ s, task t = .call s) ∧ v ∈ t.occurrences}

variable {v : Var} {b' : Bindings} {ts' : List Term}

theorem callVars_rename {ts : List Term} (hv : v ∈ callVars ts) (m : Nat) :
    { v with scope := m } ∈ callVars (Term.renameList m ts) := by
  obtain ⟨t, ht, ⟨s, hs⟩, hv⟩ := hv
  refine ⟨t.rename m, ?_, ⟨s, ?_⟩, ?_⟩
  · rw [Term.renameList_eq_map]
    exact List.mem_map_of_mem ht
  · rw [task_rename, hs]
    rfl
  · rw [Term.occurrences_rename]
    exact List.mem_map_of_mem hv

/-- Programs whose predicates in `P` are defined by safe clauses, with an interpretation that agrees
with them. -/
structure Sane (e : Engine) (P : String → Prop) (negations : Bool) (I : Interpretation) : Prop where
  task : ∀ p args, P p → task (.apply p args) = .call ⟨p, args.length⟩
  foreign : ∀ p n, P p → e.library.isForeign ⟨p, n⟩ = false
  clauses : ∀ p n, P p → ∀ c ∈ e.clausesOf ⟨p, n⟩, ∃ args : List Term, c.head = .apply p args ∧
    args.all Term.isFlat ∧
    Safe P negations {x | ∃ v ∈ Term.occurrencesList args, v.name = x} ∅ c.body ∧
    ∀ m, ∀ v ∈ Term.occurrencesList (Term.renameList m args),
      v ∈ callVars (Term.renameList m c.body)
  meaning : ∀ p cs, P p → (I p cs ↔ ∃ c ∈ e.clausesOf ⟨p, cs.length⟩, ∃ ρ : Assignment,
    c.head.args.map (Term.constant ρ.toValuation) = cs ∧ I.Holds ρ ∅ c.body)

/-- Bindings from which goals in scope `m` are worked on. Nothing is said about scopes past `n`, the
variables in `bound` have fixed values, and nothing is said about the other variables of the scope
but those in `seen`. -/
structure Ready (m n : Nat) (seen bound : Set String) (b : Bindings) : Prop where
  tidy : b.Tidy
  le : m ≤ n
  fresh : b.Ignores {v | n < v.scope}
  fixed : ∀ x ∈ bound, b.Fixes ⟨x, m⟩
  free : b.Ignores {v | v.scope = m ∧ v.name ∉ seen ∧ v.name ∉ bound}

def inScope (m : Nat) (θ : Valuation) : Assignment := fun x => θ ⟨x, m⟩

structure Reached (I : Interpretation) (m n : Nat) (b : Bindings) (bound : Set String)
    (ts : List Term) (n' : Nat) (b' : Bindings) : Prop where
  le : n ≤ n'
  tidy : b'.Tidy
  fresh : b'.Ignores {v | n' < v.scope}
  admits : ∀ θ, b'.Admits θ → b.Admits θ
  frame : ∀ S : Set Var, (∀ v ∈ S, v.scope ≤ n ∧ v ∉ Term.occurrencesList ts) →
    b.Ignores S → b'.Ignores S
  holds : ∀ θ, b'.Admits θ → I.Holds (inScope m θ) bound ts
  fixes : ∀ v ∈ callVars ts, b'.Fixes v

def Agreeing (n : Nat) (θ : Valuation) (_ : Nat) (b' : Bindings) : Prop :=
  ∃ θ', b'.Admits θ' ∧ ∀ v : Var, v.scope ≤ n → θ' v = θ v

structure Correct (I : Interpretation) (strict : Bool) (m n : Nat) (b : Bindings)
    (bound : Set String) (ts : List Term) (t : Trace Unit) : Prop where
  sound : t.Each strict (Reached I m n b bound ts)
  complete : ∀ θ, b.Admits θ → I.Holds (inScope m θ) bound ts → t.Finds (Agreeing n θ)

def CallsCorrect (e : Engine) (P : String → Prop) (I : Interpretation) (strict : Bool) (k : Nat) :
    Prop :=
  ∀ (m n : Nat) (seen bound : Set String) (b : Bindings) (p : String)
    (args : List Term) (depth : Nat), P p →
    args.all Term.isFlat → (∀ v ∈ Term.occurrencesList args, v.scope = m) → Ready m n seen bound b →
    Correct I strict m n b bound [.apply p args] (branches e k n b [⟨.apply p args, depth⟩])

variable {e : Engine} {P : String → Prop} {I : Interpretation} {strict : Bool} {m n : Nat}
  {seen bound : Set String} {b : Bindings} {ts : List Term}

theorem Bindings.Fixes.mono (h : ∀ θ, b'.Admits θ → b.Admits θ) (hv : b.Fixes v) : b'.Fixes v := by
  obtain ⟨c, hc⟩ := hv
  exact ⟨c, fun θ hθ => hc θ (h θ hθ)⟩

theorem correct_interrupted : Correct I strict m n b bound ts .interrupted :=
  ⟨trivial, fun _ _ _ he => by cases he⟩

theorem Reached.refl (h : Ready m n seen bound b) : Reached I m n b bound [] n b where
  le := Nat.le_refl _
  tidy := h.tidy
  fresh := h.fresh
  admits _ := id
  frame _ _ := id
  holds _ _ := by simp
  fixes v hv := by obtain ⟨t, ht, _⟩ := hv; cases ht

theorem Reached.of_goals {n' : Nat} (h : Reached I m n b bound ts' n' b')
    (hocc : ∀ v ∈ Term.occurrencesList ts', v ∈ Term.occurrencesList ts)
    (hholds : ∀ ρ, I.Holds ρ bound ts' → I.Holds ρ bound ts)
    (hcalls : ∀ v ∈ callVars ts, v ∈ callVars ts') : Reached I m n b bound ts n' b' where
  le := h.le
  tidy := h.tidy
  fresh := h.fresh
  admits := h.admits
  frame S hS := h.frame S fun v hv => ⟨(hS v hv).1, fun hv' => (hS v hv).2 (hocc v hv')⟩
  holds θ hθ := hholds _ (h.holds θ hθ)
  fixes v hv := h.fixes v (hcalls v hv)

theorem callVars_cons {t : Term} (h : ∀ s, task t ≠ .call s) (hts : ∀ u ∈ ts, u ∈ ts') :
    ∀ v ∈ callVars (t :: ts), v ∈ callVars ts' := by
  rintro v ⟨u, hu, ⟨s, hs⟩, hv⟩
  rcases List.mem_cons.mp hu with rfl | hu
  · exact (h s hs).elim
  · exact ⟨u, hts u hu, ⟨s, hs⟩, hv⟩

theorem Correct.of_goals {t : Trace Unit} (h : Correct I strict m n b bound ts' t)
    (hocc : ∀ v ∈ Term.occurrencesList ts', v ∈ Term.occurrencesList ts)
    (hholds : ∀ ρ, I.Holds ρ bound ts' ↔ I.Holds ρ bound ts)
    (hcalls : ∀ v ∈ callVars ts, v ∈ callVars ts') : Correct I strict m n b bound ts (.step t) :=
  ⟨Trace.Each.imp h.sound fun _ _ hr => hr.of_goals hocc (fun ρ => (hholds ρ).mp) hcalls,
    fun θ hθ hh => h.complete θ hθ ((hholds _).mpr hh)⟩

/-- A search for one goal of several and for the others after it. -/
theorem Correct.cons {p : String} {args : List Term} {t : Trace Unit}
    {f : Nat → Bindings → Trace Unit} (htask : task (.apply p args) = .call ⟨p, args.length⟩)
    (hscope : ∀ v ∈ Term.occurrencesList (.apply p args :: ts), v.scope = m)
    (hready : Ready m n seen bound b) (h : Correct I strict m n b bound [.apply p args] t)
    (hf : ∀ n' b', Ready m n' seen (bound ∪ (Term.apply p args).names) b' →
      Correct I strict m n' b' (bound ∪ (Term.apply p args).names) ts (f n' b')) :
    Correct I strict m n b bound (.apply p args :: ts) (t.bind f) := by
  have hnames : ∀ x ∈ (Term.apply p args).names, ⟨x, m⟩ ∈ (Term.apply p args).occurrences := by
    rintro x ⟨v, hv, rfl⟩
    rw [← hscope v (List.mem_append_left _ hv)]
    exact hv
  have hgo : ∀ n' b', Reached I m n b bound [.apply p args] n' b' →
      Ready m n' seen (bound ∪ (Term.apply p args).names) b' := by
    intro n' b' hr
    refine ⟨hr.tidy, Nat.le_trans hready.le hr.le, hr.fresh, ?_, ?_⟩
    · rintro x (hx | hx)
      · exact Bindings.Fixes.mono hr.admits (hready.fixed x hx)
      · exact hr.fixes _ ⟨_, List.mem_singleton_self _, ⟨_, htask⟩, hnames x hx⟩
    · refine hr.frame _ ?_ (hready.free.mono ?_)
      · rintro v ⟨hv, _, hb⟩
        refine ⟨hv ▸ hready.le, fun hv' =>
          hb (.inr ⟨v, by simpa [Term.occurrencesList] using hv', rfl⟩)⟩
      · rintro v ⟨hv, hs, hb⟩
        exact ⟨hv, hs, fun hb' => hb (.inl hb')⟩
  constructor
  · refine Trace.Each.bind h.sound fun n' b' hr => ?_
    refine (hf n' b' (hgo n' b' hr)).sound.imp fun n'' b'' hr' => ?_
    refine ⟨Nat.le_trans hr.le hr'.le, hr'.tidy, hr'.fresh,
      fun θ hθ => hr.admits θ (hr'.admits θ hθ), ?_, ?_, ?_⟩
    · intro S hS hb
      refine hr'.frame S (fun v hv => ⟨Nat.le_trans (hS v hv).1 hr.le, fun hv' => (hS v hv).2 ?_⟩)
        (hr.frame S (fun v hv => ⟨(hS v hv).1, fun hv' => (hS v hv).2 ?_⟩) hb)
      · exact List.mem_append_right _ hv'
      · exact List.mem_append_left _ (by simpa [Term.occurrencesList] using hv')
    · intro θ hθ
      have hcall := (Interpretation.holds_call htask).mp (hr.holds θ (hr'.admits θ hθ))
      exact (Interpretation.holds_call htask).mpr ⟨hcall.1, hr'.holds θ hθ⟩
    · rintro v ⟨u, hu, hs, hv⟩
      rcases List.mem_cons.mp hu with rfl | hu
      · exact Bindings.Fixes.mono hr'.admits (hr.fixes v ⟨_, List.mem_singleton_self _, hs, hv⟩)
      · exact hr'.fixes v ⟨u, hu, hs, hv⟩
  · intro θ hθ hh
    obtain ⟨hcall, hrest⟩ := (Interpretation.holds_call htask).mp hh
    have hfirst := h.complete θ hθ ((Interpretation.holds_call htask).mpr ⟨hcall, by simp⟩)
    refine Trace.Finds.bind (hfirst.and_each h.sound) ?_
    rintro n' b' ⟨⟨θ', hθ', hagree⟩, hr⟩
    have hrest' : I.Holds (inScope m θ') (bound ∪ (Term.apply p args).names) ts := by
      refine (Interpretation.holds_congr (fun v hv => ?_) fun _ _ => Iff.rfl).mp hrest
      exact (hagree ⟨v.name, m⟩ hready.le).symm
    refine ((hf n' b' (hgo n' b' hr)).complete θ' hθ' hrest').imp ?_
    rintro n'' b'' ⟨θ'', hθ'', hagree'⟩
    exact ⟨θ'', hθ'', fun v hv => (hagree' v (Nat.le_trans hv hr.le)).trans (hagree v hv)⟩

/-- A search for a goal by itself, and for the others if it has no answer. -/
theorem Correct.negation {t a : Term} (h : task t = .negation a) (hstrict : strict)
    (hv : ∀ v ∈ a.occurrences, v.name ∈ seen → v.name ∈ bound)
    (hscope : ∀ v ∈ Term.occurrencesList (t :: ts), v.scope = m) (hready : Ready m n seen bound b)
    {s u : Trace Unit} (hs : Correct I strict m n b bound [a] s)
    (hu : Correct I strict m n b bound ts u) :
    Correct I strict m n b bound (t :: ts) (.step (s.ifFails (fun _ => u) fun _ => ())) := by
  subst hstrict
  obtain rfl := eq_of_task_negation h
  have ha : ∀ v ∈ a.occurrences, v.scope = m := fun v hv =>
    hscope v (by simp [Term.occurrencesList, Term.occurrences, hv])
  have hcalls := callVars_cons (t := .compound "not" [a]) (by simp [h]) (fun u (hu : u ∈ ts) => hu)
  constructor
  · refine Trace.Each.ifFails fun hends hcut hnone => hu.sound.imp fun n' b' hr => ?_
    refine ⟨hr.le, hr.tidy, hr.fresh, hr.admits, ?_, fun θ hθ => ?_, fun v hv =>
      hr.fixes v (hcalls v hv)⟩
    · exact fun S hS => hr.frame S fun v hv =>
        ⟨(hS v hv).1, fun hv' => (hS v hv).2 (List.mem_append_right _ hv')⟩
    refine (Interpretation.holds_negation h).mpr ⟨?_, hr.holds θ hθ⟩
    -- values under which the negated goal holds are admitted, as they differ only where nothing is
    -- known
    rintro ⟨ρ, hρ, hhold⟩
    let θ₁ : Valuation := fun v => open Classical in if v ∈ a.occurrences then ρ v.name else θ v
    have hθ₁ : b.Admits θ₁ := by
      refine hready.free θ θ₁ (fun v hvS => ?_) (hr.admits θ hθ)
      by_cases hocc : v ∈ a.occurrences
      · have hbound : v.name ∈ bound := by
          by_contra hb
          exact hvS ⟨ha v hocc, fun hseen => hb (hv v hocc hseen), hb⟩
        simp only [θ₁, if_pos hocc]
        rw [hρ v hocc hbound, inScope, ← ha v hocc]
      · simp only [θ₁, if_neg hocc]
    have hhold₁ : I.Holds (inScope m θ₁) bound [a] := by
      refine (Interpretation.holds_congr (fun v hv => ?_) fun _ _ => Iff.rfl).mp hhold
      have hocc : v ∈ a.occurrences := by simpa [Term.occurrencesList] using hv
      simp only [inScope, θ₁, ← ha v hocc, if_pos hocc]
    obtain ⟨p, hp, _⟩ := hs.complete θ₁ hθ₁ hhold₁ hends hcut
    rw [hnone] at hp
    cases hp
  · intro θ hθ hh
    obtain ⟨hno, hrest⟩ := (Interpretation.holds_negation h).mp hh
    refine Trace.Finds.ifFails (hs.sound.imp fun n' b' hr => ?_) (hu.complete θ hθ hrest)
    have hθ₁ := Bindings.admits_complete hr.tidy θ
    refine hno ⟨_, fun v hv hb => ?_, hr.holds _ hθ₁⟩
    obtain ⟨c, hc⟩ := hready.fixed v.name hb
    exact (hc _ (hr.admits _ hθ₁)).trans (hc θ hθ).symm

theorem branches_cons (k n : Nat) (b : Bindings) {t : Term} (depth : Nat) (rest : List Goal)
    (hv : ∀ v, t ≠ .var v) :
    branches e (k + 1) n b (⟨t, depth⟩ :: rest) = .step (match task t with
      | .done => branches e k n b rest
      | .failing => .done ()
      | .both x y => branches e k n b (⟨x, depth⟩ :: ⟨y, depth⟩ :: rest)
      | .either x y =>
        (branches e k n b (⟨x, depth⟩ :: rest)).andThen fun _ =>
          branches e k n b (⟨y, depth⟩ :: rest)
      | .negation x =>
        (branches e k n b [⟨x, depth⟩]).ifFails (fun _ => branches e k n b rest) fun _ => ()
      | .comparison op x y =>
        if compares op (b.resolve x) (b.resolve y) then branches e k n b rest else .done ()
      | .call s => called .perBranch e (branches e k) n b t s depth rest) := by
  simp only [branches, solve, work]
  rw [Bindings.walk_nonvar b hv]
  rfl

/-- Searches for safe goals find what they should if searches for calls do. -/
theorem body_correct (hsane : Sane e P strict I) {k : Nat}
    (hcalls : ∀ k' ≤ k, CallsCorrect e P I strict k') (hsafe : Safe P strict seen bound ts)
    (hscope : ∀ v ∈ Term.occurrencesList ts, v.scope = m) (hready : Ready m n seen bound b)
    (depth : Nat) : Correct I strict m n b bound ts (branches e k n b (ts.map (⟨·, depth⟩))) := by
  induction hsafe generalizing k n b with
  | nil bound =>
    cases k with
    | zero => exact correct_interrupted
    | succ k =>
      exact ⟨⟨.refl hready, trivial⟩, fun θ hθ _ _ _ =>
        ⟨(n, b), List.mem_singleton_self _, θ, hθ, fun _ _ => rfl⟩⟩
  | @call bound p args ts hp hargs _ ih =>
    have hcons := Correct.cons (hsane.task p args hp) hscope hready
      (hcalls k (Nat.le_refl _) m n seen bound b p args depth hp hargs
        (fun v hv => hscope v (List.mem_append_left _ (by rwa [Term.occurrences_apply]))) hready)
      (fun n' b' hr => ih hcalls (fun v hv => hscope v (List.mem_append_right _ hv)) hr)
    have hle := branches_append_le (e := e) k n b [⟨.apply p args, depth⟩] (ts.map (⟨·, depth⟩))
    exact ⟨hcons.sound.of_le hle, fun θ hθ hh => (hcons.complete θ hθ hh).of_le hle⟩
  | @done bound t ts h _ ih =>
    have hts : ∀ v ∈ Term.occurrencesList ts, v ∈ Term.occurrencesList (t :: ts) := fun v hv =>
      List.mem_append_right _ hv
    cases k with
    | zero => exact correct_interrupted
    | succ k =>
      rw [List.map_cons, branches_cons k n b depth _ (by rintro v rfl; cases h), h]
      exact (ih (fun k' hk => hcalls k' (by omega)) (fun v hv => hscope v (hts v hv))
        hready).of_goals hts
        (fun ρ => (Interpretation.holds_done h).symm) (callVars_cons (by simp [h]) fun _ => id)
  | @failing t bound ts h hv =>
    cases k with
    | zero => exact correct_interrupted
    | succ k =>
      rw [List.map_cons, branches_cons k n b depth _ hv, h]
      exact ⟨trivial, fun θ _ hh => (Interpretation.holds_failing h hh).elim⟩
  | @both bound t a c ts h _ ih =>
    obtain rfl := eq_of_task_both h
    have hts : ∀ v ∈ Term.occurrencesList (a :: c :: ts),
        v ∈ Term.occurrencesList (.compound "," [a, c] :: ts) := fun v hv => by
      simpa [Term.occurrencesList, Term.occurrences, or_assoc] using hv
    cases k with
    | zero => exact correct_interrupted
    | succ k =>
      rw [List.map_cons, branches_cons k n b depth _ (by simp), h]
      exact (ih (fun k' hk => hcalls k' (by omega)) (fun v hv => hscope v (hts v hv))
        hready).of_goals hts
        (fun ρ => (Interpretation.holds_both h).symm)
        (callVars_cons (by simp [h]) fun u hu => List.mem_cons_of_mem _ (List.mem_cons_of_mem _ hu))
  | @either bound t a c ts h _ _ iha ihc =>
    obtain rfl := eq_of_task_either h
    have hleft : ∀ v ∈ Term.occurrencesList (a :: ts),
        v ∈ Term.occurrencesList (.compound ";" [a, c] :: ts) := fun v hv => by
      simp only [Term.occurrencesList, Term.occurrences, List.mem_append] at hv ⊢
      tauto
    have hright : ∀ v ∈ Term.occurrencesList (c :: ts),
        v ∈ Term.occurrencesList (.compound ";" [a, c] :: ts) := fun v hv => by
      simp only [Term.occurrencesList, Term.occurrences, List.mem_append] at hv ⊢
      tauto
    have hcallVars : ∀ u : Term, ∀ v ∈ callVars (.compound ";" [a, c] :: ts),
        v ∈ callVars (u :: ts) := fun u =>
      callVars_cons (by simp [h]) fun _ => List.mem_cons_of_mem _
    cases k with
    | zero => exact correct_interrupted
    | succ k =>
      rw [List.map_cons, branches_cons k n b depth _ (by simp), h]
      have ha :=
        iha (k := k) (fun k' hk => hcalls k' (by omega)) (fun v hv => hscope v (hleft v hv)) hready
      have hc :=
        ihc (k := k) (fun k' hk => hcalls k' (by omega)) (fun v hv => hscope v (hright v hv)) hready
      constructor
      · refine Trace.Each.andThen (s := branches e k n b _) ?_ ?_
        · exact ha.sound.imp fun _ _ hr =>
            hr.of_goals hleft (fun ρ hh =>
              (Interpretation.holds_either h).mpr (.inl hh)) (hcallVars a)
        · exact hc.sound.imp fun _ _ hr =>
            hr.of_goals hright (fun ρ hh =>
              (Interpretation.holds_either h).mpr (.inr hh)) (hcallVars c)
      · intro θ hθ hh
        refine Trace.Finds.andThen (s := branches e k n b _) ?_
        exact ((Interpretation.holds_either h).mp hh).imp (ha.complete θ hθ) (hc.complete θ hθ)
  | @negation bound t a ts h hn hv _ _ iha ihts =>
    obtain rfl := eq_of_task_negation h
    have ha : ∀ v ∈ Term.occurrencesList [a],
        v ∈ Term.occurrencesList (.compound "not" [a] :: ts) := fun v hv => by
      simp only [Term.occurrencesList, Term.occurrences, List.mem_append] at hv ⊢
      tauto
    cases k with
    | zero => exact correct_interrupted
    | succ k =>
      rw [List.map_cons, branches_cons k n b depth _ (by simp), h]
      exact Correct.negation h hn hv hscope hready
        (iha (fun k' hk => hcalls k' (by omega)) (fun v hv => hscope v (ha v hv)) hready)
        (ihts (fun k' hk => hcalls k' (by omega))
          (fun v hv => hscope v (List.mem_append_right _ hv)) hready)

theorem var_mem_of_flat (h : ts.all Term.isFlat) (hv : v ∈ Term.occurrencesList ts) :
    .var v ∈ ts := by
  induction ts with
  | nil => cases hv
  | cons t ts ih =>
    simp only [List.all_cons, Bool.and_eq_true] at h
    rcases List.mem_append.mp hv with hv | hv
    · cases t with
      | var w => simp [Term.occurrences] at hv; simp [hv]
      | atom a => cases hv
      | number x => cases hv
      | compound f as => cases h.1
    · exact List.mem_cons_of_mem _ (ih h.2 hv)

theorem map_constant_inScope (m : Nat) (θ : Valuation) (ts : List Term)
    (hflat : ts.all Term.isFlat) :
    (Term.renameList m ts).map (Term.constant θ) =
      ts.map (Term.constant (inScope m θ).toValuation) := by
  rw [Term.renameList_eq_map, List.map_map]
  refine List.map_congr_left fun t ht => ?_
  cases t with
  | var v => rfl
  | atom a => rfl
  | number x => rfl
  | compound f as => cases List.all_eq_true.mp hflat _ ht

theorem scope_of_rename (hv : v ∈ Term.occurrencesList (Term.renameList m ts)) : v.scope = m := by
  rw [Term.occurrencesList_rename] at hv
  obtain ⟨w, _, rfl⟩ := List.mem_map.mp hv
  rfl

section Clauses

variable {p : String} {args hargs : List Term} {b₁ : Bindings}

/-- Bindings made by a call and the head of a clause say nothing about variables that are in
neither. -/
theorem ignores_of_head (hscope : ∀ v ∈ Term.occurrencesList args, v.scope ≤ n)
    (hb₁ : ∀ θ, b₁.Admits θ ↔ b.Admits θ ∧
      args.map (Term.constant θ) = (Term.renameList (n + 1) hargs).map (Term.constant θ))
    {S : Set Var} (hS : b.Ignores S) (hle : ∀ v ∈ S, v.scope ≤ n → v ∉ Term.occurrencesList args)
    (hgt : ∀ v ∈ S, v.scope = n + 1 → v ∉ Term.occurrencesList (Term.renameList (n + 1) hargs)) :
    b₁.Ignores S :=
  hS.of_admits hb₁ fun v hv =>
    ⟨fun h => hle v hv (hscope v h) h, fun h => hgt v hv (scope_of_rename h) h⟩

theorem ready_body (hscope : ∀ v ∈ Term.occurrencesList args, v.scope ≤ n)
    (hfresh : b.Ignores {v | n < v.scope}) (htidy : b₁.Tidy)
    (hb₁ : ∀ θ, b₁.Admits θ ↔ b.Admits θ ∧
      args.map (Term.constant θ) = (Term.renameList (n + 1) hargs).map (Term.constant θ)) :
    Ready (n + 1) (n + 1) {x | ∃ v ∈ Term.occurrencesList hargs, v.name = x} ∅ b₁ where
  tidy := htidy
  le := Nat.le_refl _
  fresh := by
    refine ignores_of_head hscope hb₁
      (hfresh.mono fun v (hv : n + 1 < v.scope) => Nat.lt_of_succ_lt hv) ?_ ?_
    · intro v (hv : n + 1 < v.scope) hle
      omega
    · intro v (hv : n + 1 < v.scope) heq
      omega
  fixed x hx := by cases hx
  free := by
    refine ignores_of_head hscope hb₁
      (hfresh.mono fun v hv => Nat.lt_of_lt_of_eq (Nat.lt_succ_self n) hv.1.symm) ?_ ?_
    · rintro v ⟨hv, _⟩ hle
      omega
    · rintro v ⟨_, hv, _⟩ _ hocc
      rw [Term.occurrencesList_rename] at hocc
      obtain ⟨w, hw, rfl⟩ := List.mem_map.mp hocc
      exact hv ⟨w, hw, rfl⟩

/-- What is known of an answer from a clause, when the head was made equal to the call. -/
theorem Reached.of_clause (hsane : Sane e P strict I) {c : Clause} (hp : P p)
    (hc : c ∈ e.clausesOf ⟨p, args.length⟩) (hhead : c.head = .apply p hargs)
    (hflat : hargs.all Term.isFlat) (hargs' : args.all Term.isFlat)
    (hscope : ∀ v ∈ Term.occurrencesList args, v.scope = m) (hle : m ≤ n)
    (hb₁ : ∀ θ, b₁.Admits θ ↔ b.Admits θ ∧
      args.map (Term.constant θ) = (Term.renameList (n + 1) hargs).map (Term.constant θ))
    (hvars : ∀ v ∈ Term.occurrencesList (Term.renameList (n + 1) hargs),
    v ∈ callVars (Term.renameList (n + 1) c.body)) {n' : Nat} {b' : Bindings}
    (hr : Reached I (n + 1) (n + 1) b₁ ∅ (Term.renameList (n + 1) c.body) n' b') :
    Reached I m n b bound [.apply p args] n' b' := by
  have hscope' : ∀ v ∈ Term.occurrencesList args, v.scope ≤ n := fun v hv => (hscope v hv) ▸ hle
  have hbody : ∀ v ∈ Term.occurrencesList (Term.renameList (n + 1) c.body),
      v.scope = n + 1 := fun v =>
    scope_of_rename
  refine ⟨Nat.le_of_succ_le hr.le, hr.tidy, hr.fresh, fun θ hθ => ((hb₁ θ).mp (hr.admits θ hθ)).1,
    ?_, ?_, ?_⟩
  · intro S hS hb
    have hS' : ∀ v ∈ S, v ∉ Term.occurrencesList args := fun v hv h =>
      (hS v hv).2 (by simpa [Term.occurrencesList, Term.occurrences_apply] using h)
    refine hr.frame S (fun v hv => ⟨Nat.le_succ_of_le (hS v hv).1, fun h => ?_⟩)
      (ignores_of_head hscope' hb₁ hb (fun v hv _ => hS' v hv) fun v hv h => ?_)
    · have := hbody v h
      have := (hS v hv).1
      omega
    · have := (hS v hv).1
      omega
  · intro θ hθ
    have heq := ((hb₁ θ).mp (hr.admits θ hθ)).2
    have hholds := (Interpretation.holds_rename (n + 1)).mp (hr.holds θ hθ)
    have hvalues : args.map (Term.constant (inScope m θ).toValuation) =
        hargs.map (Term.constant (inScope (n + 1) θ).toValuation) := by
      rw [← map_constant_inScope (n + 1) θ hargs hflat, ← heq]
      exact Term.map_constant_congr fun v hv => by
        rw [Assignment.toValuation, inScope, ← hscope v hv]
    refine (Interpretation.holds_call (hsane.task p args hp)).mpr ⟨?_, by simp⟩
    rw [Term.args_apply, hsane.meaning p _ hp]
    refine ⟨c, by rwa [List.length_map], inScope (n + 1) θ, ?_, hholds⟩
    rw [hhead, Term.args_apply, hvalues]
  · -- the head has fixed values, and the call has the same ones
    rintro v ⟨u, hu, _, hv⟩
    obtain rfl := List.mem_singleton.mp hu
    rw [Term.occurrences_apply] at hv
    refine ⟨b'.complete (fun _ => default) v, fun θ hθ => ?_⟩
    have hθ₀ := Bindings.admits_complete hr.tidy fun _ => default
    have hhead' : (Term.renameList (n + 1) hargs).map (Term.constant θ) =
        (Term.renameList (n + 1) hargs).map (Term.constant (b'.complete fun _ => default)) :=
      Term.map_constant_congr fun w hw => by
        obtain ⟨c', hc'⟩ := hr.fixes w (hvars w hw)
        rw [hc' θ hθ, hc' _ hθ₀]
    have hcall := (((hb₁ θ).mp (hr.admits θ hθ)).2.trans hhead').trans
      ((hb₁ _).mp (hr.admits _ hθ₀)).2.symm
    exact List.map_inj_left.mp hcall _ (var_mem_of_flat hargs' hv)

/-- Trying a clause on a call finds what the clause says. -/
theorem attempt_correct (hsane : Sane e P strict I) {k : Nat}
    (hcalls : ∀ k' ≤ k, CallsCorrect e P I strict k') (hp : P p) (hargs : args.all Term.isFlat)
    (hscope : ∀ v ∈ Term.occurrencesList args, v.scope = m) (hready : Ready m n seen bound b)
    (depth : Nat) {c : Clause} (hc : c ∈ e.clausesOf ⟨p, args.length⟩) :
    (attempt .perBranch (branches e k) n b (.apply p args) depth [] c).Each strict
        (Reached I m n b bound [.apply p args]) ∧
      ∀ (θ : Valuation) (ρ : Assignment), b.Admits θ →
        c.head.args.map (Term.constant ρ.toValuation) = args.map (Term.constant θ) →
          I.Holds ρ ∅ c.body →
        (attempt .perBranch (branches e k) n b (.apply p args) depth [] c).Finds
          (Agreeing n θ) := by
  obtain ⟨hs, hhead, hflat, hsafe, hvars⟩ := hsane.clauses p _ hp c hc
  have hflat' := (Term.all_isFlat_renameList (n + 1) hs).trans hflat
  have hscope' : ∀ v ∈ Term.occurrencesList args, v.scope ≤ n :=
    fun v hv => (hscope v hv) ▸ hready.le
  -- a valuation that gives the variables of the clause the values of an assignment
  have hmake : ∀ (θ : Valuation) (ρ : Assignment), b.Admits θ →
      hs.map (Term.constant ρ.toValuation) = args.map (Term.constant θ) →
      ∃ θ₁ : Valuation, b.Admits θ₁ ∧ inScope (n + 1) θ₁ = ρ ∧
        (∀ v : Var, v.scope ≤ n → θ₁ v = θ v) ∧
        args.map (Term.constant θ₁) = (Term.renameList (n + 1) hs).map (Term.constant θ₁) := by
    intro θ ρ hθ heq
    let θ₁ : Valuation := fun v => if v.scope = n + 1 then ρ v.name else θ v
    have hlow : ∀ v : Var, v.scope ≤ n → θ₁ v = θ v := fun v hv => if_neg (by omega)
    have hρ : inScope (n + 1) θ₁ = ρ := funext fun x => if_pos rfl
    refine ⟨θ₁, hready.fresh θ θ₁ (fun v hv => hlow v (Nat.le_of_not_lt hv)) hθ, hρ, hlow, ?_⟩
    rw [map_constant_inScope (n + 1) θ₁ hs hflat, hρ, heq]
    exact Term.map_constant_congr fun v hv => hlow v (hscope' v hv)
  rw [attempt_plain Counting.plain_perBranch,
    show (c.rename (n + 1)).head = .apply p (Term.renameList (n + 1) hs) by
    rw [Clause.rename, hhead, Term.apply_rename],
    Bindings.unify?_apply hready.tidy p p hargs hflat', if_pos rfl]
  cases hb : Bindings.unifyAll Bindings.matchFlat b args (Term.renameList (n + 1) hs) with
  | none =>
    refine ⟨trivial, fun θ ρ hθ heq _ => ?_⟩
    rw [hhead, Term.args_apply] at heq
    obtain ⟨θ₁, hθ₁, _, _, heq₁⟩ := hmake θ ρ hθ heq
    exact (Bindings.not_equal_of_unifyAll hready.tidy hargs hflat' hb hθ₁ heq₁).elim
  | some b₁ =>
    have htidy := (hready.tidy.unifyAll hargs hflat' hb).1
    have hb₁ := fun θ => Bindings.admits_unifyAll (θ := θ) hready.tidy hargs hflat' hb
    have hcorrect := body_correct hsane hcalls (hsafe.rename (n + 1)) (fun v => scope_of_rename)
      (ready_body hscope' hready.fresh htidy hb₁) (depth + 1)
    dsimp only [Clause.rename]
    rw [List.append_nil]
    refine ⟨hcorrect.sound.imp fun n' b' hr =>
      hr.of_clause hsane hp hc hhead hflat hargs hscope hready.le hb₁ (hvars (n + 1)),
      fun θ ρ hθ heq hholds => ?_⟩
    rw [hhead, Term.args_apply] at heq
    obtain ⟨θ₁, hθ₁, rfl, hlow, heq₁⟩ := hmake θ ρ hθ heq
    refine (hcorrect.complete θ₁ ((hb₁ θ₁).mpr ⟨hθ₁, heq₁⟩)
      ((Interpretation.holds_rename _).mpr hholds)).imp ?_
    rintro _ b' ⟨θ', hθ', hagree⟩
    exact ⟨θ', hθ', fun v hv => (hagree v (Nat.le_succ_of_le hv)).trans (hlow v hv)⟩

end Clauses

/-- Searches for calls find what they should, to any depth of recursion. -/
theorem calls_correct (hsane : Sane e P strict I) (k : Nat) : CallsCorrect e P I strict k := by
  induction k using Nat.strongRecOn with
  | ind k ih =>
    intro m n seen bound b p args depth hp hargs hscope hready
    cases k with
    | zero => exact correct_interrupted
    | succ k =>
      have htask := hsane.task p args hp
      have hattempt {c : Clause} :=
        attempt_correct hsane (fun k' hk => ih k' (by omega : k' < k + 1)) hp hargs
        hscope hready depth (k := k) (c := c)
      rw [branches_cons k n b depth [] (by rintro v e; rw [e] at htask; cases htask), htask]
      dsimp only [called]
      rw [hsane.foreign p _ hp, if_neg (by simp)]
      split
      · exact ⟨.inr trivial, fun θ _ _ _ hc => by cases hc⟩
      constructor
      · have hall : ∀ cs : List Clause, (∀ c ∈ cs, c ∈ e.clausesOf ⟨p, args.length⟩) →
            (attempts .perBranch (branches e k) b (.apply p args) depth [] cs n).Each strict
              (Reached I m n b bound [.apply p args]) := by
          intro cs
          induction cs with
          | nil => intro _; trivial
          | cons c cs ihcs =>
            intro hcs
            exact (hattempt (hcs c (by simp))).1.andThen (ihcs fun c' hc' => hcs c' (by simp [hc']))
        exact hall _ fun _ => id
      · intro θ hθ hh
        have hI := ((Interpretation.holds_call htask).mp hh).1
        rw [Term.args_apply, hsane.meaning p _ hp, List.length_map] at hI
        obtain ⟨c, hc, ρ, heq, hholds⟩ := hI
        have hvalues : args.map (Term.constant (inScope m θ).toValuation) =
            args.map (Term.constant θ) :=
          Term.map_constant_congr fun v hv => by rw [Assignment.toValuation, inScope, ← hscope v hv]
        rw [hvalues] at heq
        have hfinds := (hattempt hc).2 θ ρ hθ heq hholds
        have hall : ∀ cs : List Clause, c ∈ cs →
            (attempts .perBranch (branches e k) b (.apply p args) depth [] cs n).Finds
              (Agreeing n θ) := by
          intro cs
          induction cs with
          | nil => intro hmem; cases hmem
          | cons c' cs ihcs =>
            intro hmem
            refine Trace.Finds.andThen ?_
            rcases List.mem_cons.mp hmem with rfl | hmem
            · exact .inl hfinds
            · exact .inr (ihcs hmem)
        exact hall _ hc

end GraphRules.Reference
