import GraphRules.Proofs.LabelAnswers
import GraphRules.Proofs.Lockstep
import GraphRules.Proofs.Unifiers
import GraphRules.Proofs.Valuation

/-! Goals that call a predicate of the standard library. A foreign predicate tests constants, or
gives a constant to its last argument; so a goal has one answer at most, and asking for it twice is
asking for it once. The one exception is an attribute that is no text: a variable takes it as text,
which the test then refuses. -/
namespace GraphRules

open Search
open Reference (foreign?)

namespace Bindings

variable {b : Bindings} {t u : Term} {v : Var}

/-- Without cycles, a walk takes no more steps than there are variables to be passed. -/
theorem Acyclic.exists_leads (h : b.Acyclic) {n : Nat} (hv : b.height v ≤ n) :
    ∃ u, Leads b.trail n (.var v) u := by
  induction n generalizing v with
  | zero =>
    refine ⟨.var v, .stop ?_⟩
    rintro w ⟨⟩
    by_contra hbound
    obtain ⟨t, ht⟩ := Option.ne_none_iff_exists'.mp hbound
    have hmem : v ∈ b.trail.map Prod.fst := by
      by_contra hv
      rw [(lookup_eq_none_iff b.trail v).mpr hv] at ht
      cases ht
    have hpos : 0 < b.height v := List.countP_pos_iff.mpr ⟨v, hmem, by simpa using .refl⟩
    omega
  | succ n ih =>
    cases hf : b.trail.lookup v with
    | none => exact ⟨.var v, .stop (by rintro w ⟨⟩; exact hf)⟩
    | some t =>
      cases t with
      | var w =>
        have hinvolves : b.Involves v w :=
          ⟨.var w, (b.find?_eq_lookup v).trans hf, by simp [Term.occurrences]⟩
        have hlt := h.height_lt hinvolves
        obtain ⟨u, hu⟩ := ih (v := w) (by omega)
        exact ⟨u, .step hf hu⟩
      | atom a => exact ⟨_, .step hf (.stop (by simp [Stops]))⟩
      | number x => exact ⟨_, .step hf (.stop (by simp [Stops]))⟩
      | compound f as => exact ⟨_, .step hf (.stop (by simp [Stops]))⟩

theorem Acyclic.leads_walk (h : b.Acyclic) (t : Term) :
    Leads b.trail b.trail.length t (b.walk t) := by
  cases t with
  | var v =>
    have hheight : b.height v ≤ b.trail.length := by
      unfold height
      exact List.countP_le_length.trans_eq (List.length_map _)
    obtain ⟨u, hu⟩ := h.exists_leads hheight
    have hwalk : b.walk (.var v) = u := walkSteps_of_leads (hu.mono b.length_le_weight)
    rwa [hwalk]
  | atom a => rw [b.walk_nonvar (by simp)]; exact .stop (by simp [Stops])
  | number x => rw [b.walk_nonvar (by simp)]; exact .stop (by simp [Stops])
  | compound f as => rw [b.walk_nonvar (by simp)]; exact .stop (by simp [Stops])

theorem Leads.stops {l : List (Var × Term)} {n : Nat} (h : Leads l n t u) : Stops l u := by
  induction h with
  | stop hs => exact hs
  | step _ _ ih => exact ih

theorem Acyclic.find?_walk (h : b.Acyclic) (hw : b.walk t = .var v) : b.find? v = none := by
  rw [find?_eq_lookup]
  exact (h.leads_walk t).stops v hw

/-- A variable that gets a constant passes it on to all that was walked to it. -/
theorem Acyclic.walk_bind (h : b.Acyclic) (hv : b.find? v = none) (k : Constant) (t : Term) :
    (b.bind v k.toTerm).walk t = if b.walk t = .var v then k.toTerm else b.walk t := by
  have hk : ∀ w, k.toTerm ≠ .var w := by cases k <;> simp [Constant.toTerm]
  have hleads : Leads (b.bind v k.toTerm).trail (b.trail.length + 1) t
      (if b.walk t = .var v then k.toTerm else b.walk t) := by
    rw [trail_bind hv]
    rw [find?_eq_lookup] at hv
    exact (h.leads_walk t).cons hv (hk v) fun w hw => absurd hw (hk w)
  have hlength : b.trail.length + 1 = (b.bind v k.toTerm).trail.length := by
    rw [trail_bind hv, List.length_cons]
  rw [hlength] at hleads
  exact walkSteps_of_leads (hleads.mono (length_le_weight _))

theorem resolve_cases (b : Bindings) (t : Term) :
    b.resolve t = b.walk t ∨ (b.resolve t).isFlat = false ∧ (b.walk t).isFlat = false := by
  have hpos := t.size_pos
  unfold resolve
  rw [show b.weight + t.size = b.weight + t.size - 1 + 1 by omega, resolveDepth]
  cases b.walk t with
  | compound f as => exact .inr ⟨rfl, rfl⟩
  | atom a => exact .inl rfl
  | number x => exact .inl rfl
  | var w => exact .inl rfl

theorem resolve_eq_walk (h : (b.walk t).isFlat) : b.resolve t = b.walk t :=
  (b.resolve_cases t).resolve_right fun hc => by simp [h] at hc

theorem walk_eq_resolve (h : (b.resolve t).isFlat) : b.walk t = b.resolve t :=
  ((b.resolve_cases t).resolve_right fun hc => by simp [h] at hc).symm

theorem Acyclic.resolve_bind (h : b.Acyclic) (hv : b.find? v = none) (k : Constant)
    (ht : (b.resolve t).isFlat) :
    (b.bind v k.toTerm).resolve t = if b.resolve t = .var v then k.toTerm else b.resolve t := by
  have hk : k.toTerm.isFlat := by cases k <;> rfl
  have hwalk := h.walk_bind hv k t
  rw [walk_eq_resolve ht] at hwalk
  rw [← hwalk]
  refine resolve_eq_walk ?_
  rw [hwalk]
  split
  · exact hk
  · exact ht

theorem unify?_constant (hv : b.find? v = none) (k : Constant) :
    b.unify? (.var v) k.toTerm = some (b.bind v k.toTerm) := by
  have hk : ∀ w, k.toTerm ≠ .var w := by cases k <;> simp [Constant.toTerm]
  rw [unify?_eq, show b.weight + (Term.var v).size + k.toTerm.size = b.weight + k.toTerm.size + 1 by
    simp only [Term.size]; omega, unifyDepth_succ]
  simp only [b.walk_unbound hv, b.walk_nonvar hk, if_neg (hk v).symm]

end Bindings

def Predicate.goal (p : Predicate) (args : List Term) : Term := .compound p.signature.name args

namespace Standard

variable {g : Graph} {e : Engine} {p : Predicate} {args : List Term} {b b' : Bindings}

theorem predicate?_eq (g : Graph) (hp : p ∈ declarations.predicates) :
    (library g).predicate? p.signature = some p := by
  have hforeign : (library g).isForeign p.signature :=
    (isForeign_iff g _).mpr (List.mem_map_of_mem hp)
  obtain ⟨q, hq⟩ := Option.isSome_iff_exists.mp hforeign
  have hmem : q ∈ declarations.predicates := List.mem_reverse.mp (List.mem_of_find?_eq_some hq)
  have hsame : q.signature = p.signature := by simpa using List.find?_some hq
  have hnodup : (declarations.predicates.map Predicate.signature).Nodup := by decide
  rw [hq, List.inj_on_of_nodup_map hnodup hmem hp hsame]

theorem task_predicate (hp : p ∈ declarations.predicates)
    (hargs : args.length = p.signature.arity) : task (p.goal args) = .call p.signature := by
  have hnames : ∀ s ∈ declarations.predicates.map Predicate.signature,
      s.name ∉ ["not", ",", ";"] ++ comparisonNames := by
    decide
  have hname := hnames p.signature (List.mem_map_of_mem hp)
  simp only [List.cons_append, List.nil_append, List.mem_cons, not_or] at hname
  have hsig : p.signature = ⟨p.signature.name, args.length⟩ := by rw [hargs]
  by_cases h₁ : args.length = 1
  · obtain ⟨a, rfl⟩ := List.length_eq_one_iff.mp h₁
    rw [Predicate.goal, task_one, if_neg hname.1, hsig]
    rfl
  by_cases h₂ : args.length = 2
  · obtain ⟨a, b, rfl⟩ := List.length_eq_two.mp h₂
    rw [Predicate.goal, task_two, if_neg hname.2.1, if_neg hname.2.2.1, if_neg hname.2.2.2, hsig]
    rfl
  · rw [Predicate.goal, task_other _ h₁ h₂, ← hsig]

theorem foreign?_eq (he : e.library = library g) (hp : p ∈ declarations.predicates) (b : Bindings)
    (args : List Term) : foreign? e b (p.goal args) p.signature =
      (p.answer g (args.map b.resolve)).equations?.bind (equate? b) := by
  rw [foreign?, he, Library.call_eq, predicate?_eq g hp]
  rfl

theorem map_resolve_bind (hb : b.Acyclic) {ks : List Constant} {v : Var}
    (hargs : args.map b.resolve = ks.map Constant.toTerm ++ [.var v]) (k : Constant) :
    equate? b [(.var v, k.toTerm)] = some (b.bind v k.toTerm) ∧
      args.map (b.bind v k.toTerm).resolve = ks.map Constant.toTerm ++ [k.toTerm] := by
  have hflat : ∀ t ∈ args, (b.resolve t).isFlat := by
    intro t ht
    have hmem := List.mem_map_of_mem (f := b.resolve) ht
    rw [hargs, List.mem_append, List.mem_singleton, List.mem_map] at hmem
    rcases hmem with ⟨k, _, hk⟩ | hv
    · rw [← hk]
      cases k <;> rfl
    · rw [hv]
      rfl
  have hfree : b.find? v = none := by
    have hmem : .var v ∈ args.map b.resolve := by simp [hargs]
    obtain ⟨t, ht, htv⟩ := List.mem_map.mp hmem
    exact hb.find?_walk ((Bindings.walk_eq_resolve (hflat t ht)).trans htv)
  refine ⟨by simp [equate?_cons, Bindings.unify?_constant hfree], ?_⟩
  calc args.map (b.bind v k.toTerm).resolve
      = args.map fun t => if b.resolve t = .var v then k.toTerm else b.resolve t :=
        List.map_congr_left fun t ht => hb.resolve_bind hfree k (hflat t ht)
    _ = (args.map b.resolve).map fun u => if u = .var v then k.toTerm else u := by
        rw [List.map_map]
        rfl
    _ = ks.map Constant.toTerm ++ [k.toTerm] := by
        have hne : ∀ k : Constant, k.toTerm ≠ .var v := by
          intro k
          cases k <;> simp [Constant.toTerm]
        simp [hargs, hne, Function.comp_def]

/-- The arguments of a goal that holds have become constants, and the goal then holds under the same
bindings. -/
theorem foreign?_again (he : e.library = library g) (hp : p ∈ declarations.predicates)
    (hb : b.Acyclic) (hcall : foreign? e b (p.goal args) p.signature = some b') :
    (∃ ks : List Constant, args.map b'.resolve = ks.map Constant.toTerm) ∧
      (p.signature = ⟨"attribute", 3⟩ ∧ Predicate.AsksToRender g (args.map b.resolve) ∨
        foreign? e b' (p.goal args) p.signature = some b') := by
  rw [foreign?_eq he hp] at hcall ⊢
  obtain ⟨es, hes, hequate⟩ := Option.bind_eq_some_iff.mp hcall
  rcases (measured p hp).told hes with ⟨ks, hks, rfl⟩ | ⟨ks, v, k, hks, rfl, hagain⟩
  · cases hequate
    exact ⟨⟨ks, hks⟩, .inr hcall⟩
  · obtain ⟨hbind, hconstant⟩ := map_resolve_bind hb hks k
    rw [hbind] at hequate
    cases hequate
    refine ⟨⟨ks ++ [k], by simpa using hconstant⟩, hagain.imp_right fun hagain => ?_⟩
    rw [hconstant, hagain]
    rfl

theorem foreign?_render (he : e.library = library g) (hp : p ∈ declarations.predicates)
    (hb : b.Acyclic) (hsig : p.signature = ⟨"attribute", 3⟩)
    (hrender : Predicate.AsksToRender g (args.map b.resolve)) :
    ∃ b', foreign? e b (p.goal args) p.signature = some b' ∧
      foreign? e b' (p.goal args) p.signature = none := by
  have hattributes : p = .ofAttributes := by
    have hnodup : (declarations.predicates.map Predicate.signature).Nodup := by decide
    have hmem : Predicate.ofAttributes ∈ declarations.predicates := List.mem_cons_self
    exact List.inj_on_of_nodup_map hnodup hp hmem hsig
  subst hattributes
  obtain ⟨ks, v, k, hks, hes, hnone⟩ := hrender.refused
  obtain ⟨hbind, hconstant⟩ := map_resolve_bind hb hks k
  refine ⟨b.bind v k.toTerm, ?_, ?_⟩
  · rw [foreign?_eq he hp, hes]
    exact hbind
  · rw [foreign?_eq he hp, hconstant, hnone]
    rfl

end Standard

namespace Search

variable {e : Engine} {n depth : Nat} {r : Run} {goal : Term} {s : Signature}
  {rest : List Goal} {o : Option Bindings}

/-- How a search without choices ends: at an answer with bindings, or without one. -/
def Settles (e : Engine) (n : Nat) (r : Run) : Option Bindings → Prop
  | some b => ∃ r', search e n r = (.found, r') ∧ r'.bindings = b ∧ r'.choices = []
  | none => (search e n r).1 = .exhausted

theorem settles_done (hgoals : r.goals = []) (hchoices : r.choices = []) :
    Settles e (n + 1) r (some r.bindings) :=
  ⟨r, by simp [search, hgoals], rfl, hchoices⟩

theorem settles_both {a b : Term} (hgoals : r.goals = ⟨.compound "," [a, b], depth⟩ :: rest)
    (h : Settles e n { r with goals := ⟨a, depth⟩ :: ⟨b, depth⟩ :: rest } o) :
    Settles e (n + 1) r o := by
  have hwalk : r.bindings.walk (.compound "," [a, b]) = .compound "," [a, b] :=
    r.bindings.walk_nonvar (by simp)
  have hsearch : search e (n + 1) r =
      search e n { r with goals := ⟨a, depth⟩ :: ⟨b, depth⟩ :: rest } := by
    simp [search, hgoals, step, hwalk, task]
  cases o <;> simpa only [Settles, hsearch] using h

theorem settles_foreign (hgoals : r.goals = ⟨goal, depth⟩ :: rest) (hchoices : r.choices = [])
    (htask : task goal = .call s) (hforeign : e.library.isForeign s)
    {next : Bindings → Option Bindings}
    (h : ∀ b, foreign? e r.bindings goal s = some b →
      Settles e n { r with bindings := b, goals := rest } (next b)) :
    Settles e (n + 1) r ((foreign? e r.bindings goal s).bind next) := by
  have hwalk : r.bindings.walk goal = goal :=
    r.bindings.walk_nonvar fun v hv => by simp [hv, task] at htask
  have hstep : ∀ prove, step e prove ⟨goal, depth⟩ rest r =
      match foreign? e r.bindings goal s with
      | some bindings => .onward { r with bindings, goals := rest }
      | none => .back r := by
    intro prove
    simp only [step, hwalk, htask]
    exact call_foreign hforeign goal depth rest r
  cases hb : foreign? e r.bindings goal s with
  | some b =>
    have hsearch : search e (n + 1) r = search e n { r with bindings := b, goals := rest } := by
      simp only [search, hgoals, hstep, hb]
    have hnext := h b hb
    rw [Option.bind_some]
    cases ho : next b <;> simpa only [Settles, hsearch, ho] using hnext
  | none => simp [Settles, search, hgoals, hstep, hb, backtrack, hchoices, backtrackFrom]

end Search

namespace Solutions

variable {e : Engine} {budget : Nat} {s s' : Solutions} {o : Option Bindings} {a : Solution}

def asked (b : Bindings) (vs : List Var) (depth : Nat) (goal : Term) : Solutions :=
  { run := { bindings := b, goals := [⟨goal, depth⟩] }, vars := vs }

def settled (e : Engine) (s : Solutions) (o : Option Bindings) : List Solution :=
  if s.isLimited e then [] else (o.map (.ofVariables s.vars)).toList

theorem completes_of_settles (hs : s.stage = .fresh) (h : Settles e budget s.run o) :
    ∃ t, s.Completes e budget (s.settled e o) t := by
  have hresumed : s.resumed? = some s.run := by simp [resumed?, hs]
  have hnext : s.next e budget = advance e budget s := next_of_resumed hresumed
  by_cases hl : s.isLimited e
  · rw [advance_limited hl] at hnext
    exact ⟨_, by rw [settled, if_pos hl]; exact .last (.inl hl) hnext⟩
  · rw [advance_unlimited (by simpa using hl)] at hnext
    rw [settled, if_neg hl]
    cases o with
    | none =>
      cases hsearch : search e budget s.run with
      | mk v r =>
        obtain rfl : v = .exhausted := by simpa [Settles, hsearch] using h
        rw [hsearch] at hnext
        exact ⟨_, .last (.inr (by simp [givesUp, hresumed, hsearch])) hnext⟩
    | some b =>
      obtain ⟨r, hsearch, rfl, hchoices⟩ := h
      rw [hsearch] at hnext
      -- nothing is left to go back to after the answer
      have hdone : resumed? { s with run := r, stage := .yielded, emitted := s.emitted + 1 } =
          none := by
        simp [resumed?, backtrack, hchoices, backtrackFrom]
      obtain ⟨t, ht⟩ := next_of_not_resumed hdone
      exact ⟨t, .more (.inr (by simp [givesUp, hresumed, hsearch])) hnext
        (.last (.inr (by simp [givesUp, hdone])) (ht e budget))⟩

theorem bindings_of_next (hs : s.stage = .fresh) (h : Settles e budget s.run o)
    (hnext : s.next e budget = (some a, s')) : o = some s'.run.bindings := by
  have hresumed : s.resumed? = some s.run := by simp [resumed?, hs]
  rw [next_of_resumed hresumed] at hnext
  by_cases hl : s.isLimited e
  · rw [advance_limited hl] at hnext
    cases hnext
  · rw [advance_unlimited (by simpa using hl)] at hnext
    cases o with
    | none =>
      cases hsearch : search e budget s.run with
      | mk v r =>
        obtain rfl : v = .exhausted := by simpa [Settles, hsearch] using h
        rw [hsearch] at hnext
        cases hnext
    | some b =>
      obtain ⟨r, hsearch, rfl, hchoices⟩ := h
      rw [hsearch] at hnext
      cases hnext
      rfl

theorem Completes.eq_of_collect {n : Nat} {as as' : List Solution} (h : s.Completes e budget as s')
    (hc : (collect? e budget n s).map Prod.fst = some as') : as = as' := by
  obtain ⟨⟨_, t⟩, hcollect, rfl⟩ := Option.map_eq_some_iff.mp hc
  exact (h.unique (completes_of_collect hcollect)).1.symm

end Solutions

namespace Standard

open Solutions

/-- A goal that calls a predicate of the library has at most one answer, after which its arguments
are constants; and to ask for it twice gives the same answers. This is so under all bindings without
cycles and for all arguments, with one exception: the value of an attribute that is no text is taken
as text, and is not found again. -/
theorem foreign_goals_idempotent (g : Graph) (e : Engine)
    (he : e.library = library g) (p : Predicate) (hp : p ∈ declarations.predicates)
    (args : List Term) (hargs : args.length = p.signature.arity) (b : Bindings) (hb : b.Acyclic)
    (vs : List Var) (depth budget : Nat) (hbudget : 4 ≤ budget) :
    ∃ answers : List Solution, answers.length ≤ 1 ∧
      (∃ s, (asked b vs depth (p.goal args)).Completes e budget answers s) ∧
      (∀ a s, (asked b vs depth (p.goal args)).next e budget = (some a, s) →
        ∀ t ∈ args, ∃ k : Constant, s.run.bindings.resolve t = k.toTerm) ∧
      (¬ (p.signature = ⟨"attribute", 3⟩ ∧ Predicate.AsksToRender g (args.map b.resolve)) →
        ∃ s, (asked b vs depth (.compound "," [p.goal args, p.goal args])).Completes
          e budget answers s) ∧
      (p.signature = ⟨"attribute", 3⟩ ∧ Predicate.AsksToRender g (args.map b.resolve) →
        ∃ s, (asked b vs depth (.compound "," [p.goal args, p.goal args])).Completes
          e budget [] s) := by
  obtain ⟨n, rfl⟩ : ∃ n, budget = n + 4 := ⟨budget - 4, by omega⟩
  have hforeign : e.library.isForeign p.signature := by
    rw [he, isForeign_iff]
    exact List.mem_map_of_mem hp
  have htask : task (p.goal args) = .call p.signature := task_predicate hp hargs
  -- the goal by itself, and the goal after another goal of the same kind
  have honce : ∀ {m : Nat} {r : Run}, r.goals = [⟨p.goal args, depth⟩] → r.choices = [] →
      Settles e (m + 2) r (foreign? e r.bindings (p.goal args) p.signature) := by
    intro m r hgoals hchoices
    have h := settles_foreign (n := m + 1) hgoals hchoices htask hforeign fun b' _ =>
      settles_done rfl hchoices
    rwa [Option.bind_fun_some] at h
  have htwice : Settles e (n + 4) (asked b vs depth (.compound "," [p.goal args, p.goal args])).run
      ((foreign? e b (p.goal args) p.signature).bind fun b' => foreign? e b'
        (p.goal args) p.signature) :=
    settles_both rfl (settles_foreign rfl rfl htask hforeign fun b' _ => honce rfl rfl)
  refine ⟨_, ?_, completes_of_settles rfl (honce (m := n + 2) rfl rfl), ?_, ?_, ?_⟩
  · unfold settled
    split
    · exact Nat.zero_le 1
    · cases foreign? e b (p.goal args) p.signature <;> simp
  · intro a s hnext t ht
    have hcall := bindings_of_next rfl (honce (m := n + 2) rfl rfl) hnext
    obtain ⟨ks, hks⟩ := (foreign?_again he hp hb hcall).1
    have hmem := List.mem_map_of_mem (f := s.run.bindings.resolve) ht
    rw [hks, List.mem_map] at hmem
    obtain ⟨k, -, hk⟩ := hmem
    exact ⟨k, hk.symm⟩
  · intro hplain
    have hsame : ((foreign? e b (p.goal args) p.signature).bind fun b' => foreign? e b'
        (p.goal args) p.signature) =
        foreign? e b (p.goal args) p.signature := by
      cases hcall : foreign? e b (p.goal args) p.signature with
      | none => rfl
      | some b' => exact (foreign?_again he hp hb hcall).2.resolve_left hplain
    rw [hsame] at htwice
    exact completes_of_settles rfl htwice
  · rintro ⟨hsig, hrender⟩
    obtain ⟨b', hcall, hnone⟩ := foreign?_render he hp hb hsig hrender
    rw [hcall, Option.bind_some, hnone] at htwice
    obtain ⟨s, hs⟩ := completes_of_settles rfl htwice
    exact ⟨s, by simpa [settled] using hs⟩

def weighed : Graph :=
  Graph.run {} [.addNode ⟨"a", [("weight", .int 3)]⟩, .addEdge ⟨"loop", "a", "a", []⟩]

def chained : Bindings := (Bindings.empty.bind ⟨"X", 0⟩ (.named "Y")).bind ⟨"Y", 0⟩ (.atom "a")

theorem foreign_goals_idempotent_weighed :
    chained.Acyclic ∧ numeric .ofNodes .degree ∈ declarations.predicates ∧
      .ofAttributes ∈ declarations.predicates ∧
    (∃ s, (asked chained [⟨"V", 0⟩] 0 (.compound "," [.compound "degree" [.named "X", .named "V"],
      .compound "degree" [.named "X", .named "V"]])).Completes { library := library weighed }
        4 [⟨[("V", .int 2)]⟩] s) ∧
    (∃ s, (asked chained [⟨"V", 0⟩] 0 (.compound "attribute" [.named "X",
      .atom "weight", .named "V"])).Completes
      { library := library weighed } 4 [⟨[("V", .atom "3")]⟩] s) ∧
    ∃ s, (asked chained [⟨"V", 0⟩] 0
      (.compound "," [.compound "attribute" [.named "X", .atom "weight", .named "V"],
        .compound "attribute" [.named "X", .atom "weight", .named "V"]])).Completes
        { library := library weighed } 4 [] s := by
  have hacyclic : chained.Acyclic :=
    Bindings.acyclic_of_lt (fun v => ["Y", "X"].idxOf v.name) (by decide +kernel)
  have hdegree : numeric .ofNodes .degree ∈ declarations.predicates :=
    List.mem_cons_of_mem _ List.mem_cons_self
  have hattributes : .ofAttributes ∈ declarations.predicates := List.mem_cons_self
  have hrender : Predicate.AsksToRender weighed
      ([.named "X", .atom "weight", .named "V"].map chained.resolve) :=
    ⟨"a", "weight", ⟨"V", 0⟩, .node ⟨"a", [("weight", .int 3)]⟩,
      .int 3, by decide +kernel, by decide +kernel, by decide +kernel, rfl⟩
  obtain ⟨degrees, -, ⟨s, hs⟩, -, htwice, -⟩ :=
    foreign_goals_idempotent weighed { library := library weighed } rfl
    (numeric .ofNodes .degree) hdegree [.named "X",
      .named "V"] rfl chained hacyclic [⟨"V", 0⟩] 0 4 (by omega)
  obtain ⟨weights, -, ⟨t, ht⟩, -, -, hnever⟩ :=
    foreign_goals_idempotent weighed { library := library weighed } rfl
    .ofAttributes hattributes [.named "X", .atom "weight",
      .named "V"] rfl chained hacyclic [⟨"V", 0⟩] 0 4 (by omega)
  have hdegrees : degrees = [⟨[("V", .int 2)]⟩] := hs.eq_of_collect (n := 2) (by decide +kernel)
  have hweights : weights = [⟨[("V", .atom "3")]⟩] := ht.eq_of_collect (n := 2) (by decide +kernel)
  subst hdegrees hweights
  exact ⟨hacyclic, hdegree, hattributes, htwice fun h => absurd h.1 (by decide),
    ⟨t, ht⟩, hnever ⟨rfl, hrender⟩⟩

end Standard

end GraphRules
