import GraphRules.Script.Alternatives
import Mathlib.Data.List.Lex

/-! The alternatives of a formula as its disjunctive normal form. A selection takes one disjunct of
a formula and one of every group that it meets there; what it leaves are occurrences of literals
that are no groups. The alternatives are the selections in the order of their choices, and one of
them is true exactly if the formula is. -/
namespace GraphRules

/-- At the first number in which they differ, the first list has the smaller one. No list precedes
its continuations, so this is kept when the lists are continued. -/
def Precedes (xs ys : List Nat) : Prop :=
  ∃ zs x y xs' ys', xs = zs ++ x :: xs' ∧ ys = zs ++ y :: ys' ∧ x < y

namespace Precedes

variable {xs ys : List Nat}

theorem cons_of_lt {x y : Nat} (h : x < y) (xs ys : List Nat) : Precedes (x :: xs) (y :: ys) :=
  ⟨[], x, y, xs, ys, rfl, rfl, h⟩

theorem append_left (h : Precedes xs ys) (zs : List Nat) : Precedes (zs ++ xs) (zs ++ ys) := by
  obtain ⟨zs', x, y, xs', ys', rfl, rfl, hxy⟩ := h
  exact ⟨zs ++ zs', x, y, xs', ys', by simp, by simp, hxy⟩

theorem append (h : Precedes xs ys) (us vs : List Nat) : Precedes (xs ++ us) (ys ++ vs) := by
  obtain ⟨zs, x, y, xs', ys', rfl, rfl, hxy⟩ := h
  exact ⟨zs, x, y, xs' ++ us, ys' ++ vs, by simp, by simp, hxy⟩

theorem lt (h : Precedes xs ys) : xs < ys := by
  obtain ⟨zs, x, y, xs', ys', rfl, rfl, hxy⟩ := h
  exact List.Lex.append_left (· < ·) (.rel hxy) zs

end Precedes

/-- A literal and where it stands: by turns the number of a disjunct and the number of a literal in
the disjunct, from the whole formula inwards. The lexicographic order of places is the source order.
-/
structure Occurrence where
  place : List Nat
  literal : Literal

/-- The numbers of the disjuncts that are taken, in source order, and the occurrences that are left.
-/
structure Selection where
  choices : List Nat
  occurrences : List Occurrence

namespace Selection

def empty : Selection := ⟨[], []⟩

def single (place : List Nat) (l : Literal) : Selection := ⟨[], [⟨place, l⟩]⟩

def within (i : Nat) (s : Selection) : Selection := ⟨i :: s.choices, s.occurrences⟩

def append (s t : Selection) : Selection := ⟨s.choices ++ t.choices, s.occurrences ++ t.occurrences⟩

def literals (s : Selection) : List Literal := s.occurrences.map Occurrence.literal

def places (s : Selection) : List (List Nat) := s.occurrences.map Occurrence.place

def Holds (v : List Nat → Bool) (s : Selection) : Prop := ∀ o ∈ s.occurrences, v o.place = true

@[simp] theorem literals_append (s t : Selection) :
    (s.append t).literals = s.literals ++ t.literals := by
  simp [literals, append]

@[simp] theorem literals_within (i : Nat) (s : Selection) :
    (s.within i).literals = s.literals := rfl

@[simp] theorem holds_empty (v : List Nat → Bool) : empty.Holds v := by simp [Holds, empty]

@[simp] theorem holds_single (v : List Nat → Bool) (place : List Nat) (l : Literal) :
    (single place l).Holds v ↔ v place = true := by
  simp [Holds, single]

@[simp] theorem holds_append (v : List Nat → Bool) (s t : Selection) :
    (s.append t).Holds v ↔ s.Holds v ∧ t.Holds v := by
  simp [Holds, append, or_imp, forall_and]

@[simp] theorem holds_within (v : List Nat → Bool) (i : Nat) (s : Selection) :
    (s.within i).Holds v ↔ s.Holds v :=
  Iff.rfl

end Selection

mutual

/-- From a literal at a place: the literal itself, or a selection from its group. -/
inductive Literal.Selects : List Nat → Literal → Selection → Prop
  | alone {place : List Nat} {l : Literal} (hl : ∀ f, l ≠ .group f) :
    Literal.Selects place l (.single place l)
  | group {place : List Nat} {f : Formula} {s : Selection} (hs : Formula.Selects place f s) :
      Literal.Selects place (.group f) s

/-- From a formula at a place: one of its disjuncts is taken, and a selection from it. -/
inductive Formula.Selects : List Nat → Formula → Selection → Prop
  | disjunct {place : List Nat} {f : Formula} {i : Nat} {c : List Literal} {s : Selection}
      (hc : f.disjuncts[i]? = some c) (hs : Literal.SelectsAll (place ++ [i]) 0 c s) :
      Formula.Selects place f (s.within i)

/-- From the literals of a disjunct, of which the first has the number given: a selection from each,
from left to right. -/
inductive Literal.SelectsAll : List Nat → Nat → List Literal → Selection → Prop
  | nil {place : List Nat} {n : Nat} : Literal.SelectsAll place n [] .empty
  | cons {place : List Nat} {n : Nat} {l : Literal} {ls : List Literal} {s t : Selection}
      (hs : Literal.Selects (place ++ [n]) l s) (ht : Literal.SelectsAll place (n + 1) ls t) :
      Literal.SelectsAll place n (l :: ls) (s.append t)

end

mutual

def Literal.truth (v : List Nat → Bool) (place : List Nat) : Literal → Bool
  | .group f => f.truth v place
  | .call _ => v place
  | .negated _ _ => v place
  | .compare _ => v place

def Formula.truth (v : List Nat → Bool) (place : List Nat) : Formula → Bool
  | .mk ds _ => Formula.truthAny v place 0 ds

def Formula.truthAny (v : List Nat → Bool) (place : List Nat) (n : Nat) : List (List Literal) → Bool
  | [] => false
  | c :: cs => Literal.truthAll v (place ++ [n]) 0 c || Formula.truthAny v place (n + 1) cs

def Literal.truthAll (v : List Nat → Bool) (place : List Nat) (n : Nat) : List Literal → Bool
  | [] => true
  | l :: ls => l.truth v (place ++ [n]) && Literal.truthAll v place (n + 1) ls

end

inductive Literal.HasAt : Literal → List Nat → Literal → Prop
  | here (l : Literal) : Literal.HasAt l [] l
  | inside {f : Formula} {i j : Nat} {ls : List Literal} {l m : Literal} {place : List Nat}
      (hc : f.disjuncts[i]? = some ls) (hl : ls[j]? = some l) (h : Literal.HasAt l place m) :
      Literal.HasAt (.group f) (i :: j :: place) m

mutual

/-- Literals are groups of literals. Negations are not entered. -/
@[elab_as_elim] theorem Literal.induction {P : Literal → Prop}
    (alone : ∀ l, (∀ f, l ≠ .group f) → P l)
    (group : ∀ f : Formula, (∀ c ∈ f.disjuncts, ∀ l ∈ c, P l) → P (.group f)) : ∀ l, P l
  | .call _ => alone _ (by simp)
  | .negated _ _ => alone _ (by simp)
  | .compare _ => alone _ (by simp)
  | .group (.mk ds _) => group _ (Formula.induction alone group ds)

theorem Formula.induction {P : Literal → Prop} (alone : ∀ l, (∀ f, l ≠ .group f) → P l)
    (group : ∀ f : Formula, (∀ c ∈ f.disjuncts, ∀ l ∈ c, P l) → P (.group f)) :
    ∀ ds : List (List Literal), ∀ c ∈ ds, ∀ l ∈ c, P l
  | [] => List.forall_mem_nil _
  | c :: cs =>
    List.forall_mem_cons.mpr ⟨Literal.inductionAll alone group c, Formula.induction alone group cs⟩

theorem Literal.inductionAll {P : Literal → Prop} (alone : ∀ l, (∀ f, l ≠ .group f) → P l)
    (group : ∀ f : Formula, (∀ c ∈ f.disjuncts, ∀ l ∈ c, P l) → P (.group f)) :
    ∀ ls : List Literal, ∀ l ∈ ls, P l
  | [] => List.forall_mem_nil _
  | l :: ls =>
    List.forall_mem_cons.mpr ⟨Literal.induction alone group l, Literal.inductionAll alone group ls⟩

end

section Rules

variable {place : List Nat} {n : Nat} {s u : Selection} {l : Literal} {f : Formula}

theorem Literal.selects_of_alone (hl : ∀ f, l ≠ .group f) :
    l.Selects place s ↔ s = .single place l := by
  constructor
  · intro hs
    cases hs with
    | alone => rfl
    | group => exact absurd rfl (hl _)
  · rintro rfl
    exact .alone hl

theorem Literal.selects_group : (Literal.group f).Selects place s ↔ f.Selects place s := by
  constructor
  · intro hs
    cases hs with
    | alone hl => exact absurd rfl (hl f)
    | group hs => exact hs
  · exact .group

theorem Literal.selectsAll_nil : Literal.SelectsAll place n [] s ↔ s = .empty := by
  constructor
  · intro hs
    cases hs
    rfl
  · rintro rfl
    exact .nil

theorem Literal.selectsAll_cons {ls : List Literal} :
    Literal.SelectsAll place n (l :: ls) u ↔
    ∃ s t, l.Selects (place ++ [n]) s ∧ Literal.SelectsAll place (n + 1) ls t ∧ u = s.append t := by
  constructor
  · intro hu
    cases hu with
    | cons hs ht => exact ⟨_, _, hs, ht, rfl⟩
  · rintro ⟨s, t, hs, ht, rfl⟩
    exact .cons hs ht

def Formula.SelectsAny (place : List Nat) (n : Nat) (ds : List (List Literal)) (u : Selection) :
    Prop :=
  ∃ i c s, ds[i]? = some c ∧ Literal.SelectsAll (place ++ [n + i]) 0 c s ∧ u = s.within (n + i)

theorem Formula.selects_iff : f.Selects place u ↔ Formula.SelectsAny place 0 f.disjuncts u := by
  constructor
  · intro hu
    cases hu with
    | disjunct hc hs => exact ⟨_, _, _, hc, by rwa [Nat.zero_add], by rw [Nat.zero_add]⟩
  · rintro ⟨i, c, s, hc, hs, rfl⟩
    rw [Nat.zero_add] at hs ⊢
    exact .disjunct hc hs

theorem Formula.not_selectsAny_nil :
    ¬ Formula.SelectsAny place n [] u := by simp [Formula.SelectsAny]

theorem Formula.selectsAny_cons {c : List Literal} {cs : List (List Literal)} :
    Formula.SelectsAny place n (c :: cs) u ↔
      (∃ s, Literal.SelectsAll (place ++ [n]) 0 c s ∧ u = s.within n) ∨
      Formula.SelectsAny place (n + 1) cs u := by
  constructor
  · rintro ⟨i, d, s, hd, hs, rfl⟩
    cases i with
    | zero =>
      obtain rfl : c = d := Option.some.inj hd
      exact .inl ⟨s, hs, rfl⟩
    | succ i =>
      rw [← Nat.succ_add_eq_add_succ] at hs ⊢
      exact .inr ⟨i, d, s, hd, hs, rfl⟩
  · rintro (⟨s, hs, rfl⟩ | ⟨i, d, s, hd, hs, rfl⟩)
    · exact ⟨0, c, s, rfl, hs, rfl⟩
    · rw [Nat.succ_add_eq_add_succ] at hs ⊢
      exact ⟨i + 1, d, s, hd, hs, rfl⟩

end Rules

/-- A list has the selections from a part of a formula, each once and in the order of their choices,
and what they leave are the alternatives of the part. -/
structure Enumerates (P : Selection → Prop) (as : List (List Literal)) (ss : List Selection) :
    Prop where
  mem_iff : ∀ s, s ∈ ss ↔ P s
  literals : ss.map Selection.literals = as
  ordered : ss.Pairwise fun s t => Precedes s.choices t.choices

namespace Enumerates

variable {P Q : Selection → Prop} {as bs : List (List Literal)} {ss ts : List Selection}

theorem congr (h : Enumerates P as ss) (hPQ : ∀ s, P s ↔ Q s) : Enumerates Q as ss :=
  ⟨fun s => (h.mem_iff s).trans (hPQ s), h.literals, h.ordered⟩

theorem singleton (s : Selection) : Enumerates (· = s) [s.literals] [s] :=
  ⟨fun _ => List.mem_singleton, rfl, List.pairwise_singleton _ _⟩

/-- The choices of the first part count more than those of the second. -/
theorem product (hs : Enumerates P as ss) (ht : Enumerates Q bs ts) :
    Enumerates (fun u => ∃ s t, P s ∧ Q t ∧ u = s.append t) (as.flatMap fun a =>
      bs.map fun b => a ++ b) (ss.flatMap fun s => ts.map s.append) where
  mem_iff u := by
    simp only [List.mem_flatMap, List.mem_map, hs.mem_iff, ht.mem_iff]
    exact exists_congr fun s => by simp only [← exists_and_left, eq_comm]
  literals := by
    rw [← hs.literals, ← ht.literals]
    simp [List.map_flatMap, List.flatMap_map, Function.comp_def]
  ordered := by
    refine List.pairwise_flatMap.mpr ⟨fun s _ => ?_, hs.ordered.imp fun {s s'} hss => ?_⟩
    · exact List.pairwise_map.mpr (ht.ordered.imp fun htt => htt.append_left s.choices)
    · intro u hu u' hu'
      obtain ⟨t, _, rfl⟩ := List.mem_map.mp hu
      obtain ⟨t', _, rfl⟩ := List.mem_map.mp hu'
      exact hss.append t.choices t'.choices

/-- The selections from a disjunct stand before those from disjuncts with a greater number. -/
theorem disjunct {n : Nat} (hs : Enumerates P as ss) (ht : Enumerates Q bs ts)
    (hQ : ∀ t, Q t → ∃ i ks, n < i ∧ t.choices = i :: ks) :
    Enumerates (fun u => (∃ s, P s ∧ u = s.within n) ∨
      Q u) (as ++ bs) (ss.map (Selection.within n) ++ ts) where
  mem_iff u := by
    simp only [List.mem_append, List.mem_map, hs.mem_iff, ht.mem_iff, eq_comm]
  literals := by
    rw [← hs.literals, ← ht.literals]
    simp [Function.comp_def]
  ordered := by
    refine List.pairwise_append.mpr ⟨?_, ht.ordered, fun u hu t htmem => ?_⟩
    · exact List.pairwise_map.mpr (hs.ordered.imp fun hss => hss.append_left [n])
    · obtain ⟨s, _, rfl⟩ := List.mem_map.mp hu
      obtain ⟨i, ks, hi, hks⟩ := hQ t ((ht.mem_iff t).mp htmem)
      rw [hks]
      exact .cons_of_lt hi s.choices ks

end Enumerates

variable {l : Literal} {ls : List Literal} {ds : List (List Literal)} {v : List Nat → Bool}

theorem Literal.alternatives_of_alone (hl : ∀ f, l ≠ .group f) : l.alternatives = [[l]] := by
  cases l with
  | group f => exact absurd rfl (hl f)
  | _ => rfl

theorem Literal.exists_enumerates_all
    (h : ∀ l ∈ ls, ∀ place, ∃ ss, Enumerates (l.Selects place) l.alternatives ss) (place : List Nat)
    (n : Nat) :
    ∃ ss, Enumerates (Literal.SelectsAll place n ls) (Literal.alternativesAll ls) ss := by
  induction ls generalizing n with
  | nil => exact ⟨_, (Enumerates.singleton .empty).congr fun _ => Literal.selectsAll_nil.symm⟩
  | cons l ls ih =>
    obtain ⟨hl, hls⟩ := List.forall_mem_cons.mp h
    obtain ⟨ss, hss⟩ := hl (place ++ [n])
    obtain ⟨ts, hts⟩ := ih hls (n + 1)
    exact ⟨_, (hss.product hts).congr fun _ => Literal.selectsAll_cons.symm⟩

theorem Formula.exists_enumerates_any
    (h : ∀ c ∈ ds, ∀ l ∈ c, ∀ place, ∃ ss, Enumerates (l.Selects place) l.alternatives ss)
    (place : List Nat) (n : Nat) :
    ∃ ss, Enumerates (Formula.SelectsAny place n ds) (Formula.alternativesAny ds) ss := by
  induction ds generalizing n with
  | nil => exact ⟨[], by simp [Formula.not_selectsAny_nil], rfl, .nil⟩
  | cons c cs ih =>
    obtain ⟨hc, hcs⟩ := List.forall_mem_cons.mp h
    obtain ⟨ss, hss⟩ := Literal.exists_enumerates_all hc (place ++ [n]) 0
    obtain ⟨ts, hts⟩ := ih hcs (n + 1)
    refine ⟨_, (hss.disjunct hts ?_).congr fun _ => Formula.selectsAny_cons.symm⟩
    rintro _ ⟨i, _, s, _, _, rfl⟩
    exact ⟨n + 1 + i, s.choices, by omega, rfl⟩

theorem Literal.exists_enumerates (l : Literal) :
    ∀ place, ∃ ss, Enumerates (l.Selects place) l.alternatives ss := by
  induction l using Literal.induction with
  | alone l hl =>
    intro place
    rw [Literal.alternatives_of_alone hl]
    exact ⟨_, (Enumerates.singleton (.single place l)).congr fun _ =>
      (Literal.selects_of_alone hl).symm⟩
  | group f ih =>
    intro place
    obtain ⟨ss, hss⟩ := Formula.exists_enumerates_any ih place 0
    cases f
    exact ⟨ss, hss.congr fun _ => (Literal.selects_group.trans Formula.selects_iff).symm⟩

/-! A formula is true if and only if one of its selections is. -/

theorem Literal.truth_of_alone (hl : ∀ f, l ≠ .group f) (v : List Nat → Bool) (place : List Nat) :
    l.truth v place = v place := by
  cases l with
  | group f => exact absurd rfl (hl f)
  | _ => rfl

theorem Literal.truthAll_iff
    (h : ∀ l ∈ ls, ∀ place, l.truth v place = true ↔ ∃ s, l.Selects place s ∧ s.Holds v)
    (place : List Nat) (n : Nat) :
    Literal.truthAll v place n ls = true ↔ ∃ s, Literal.SelectsAll place n ls s ∧ s.Holds v := by
  induction ls generalizing n with
  | nil => simp [Literal.truthAll, Literal.selectsAll_nil]
  | cons l ls ih =>
    obtain ⟨hl, hls⟩ := List.forall_mem_cons.mp h
    rw [Literal.truthAll, Bool.and_eq_true, hl, ih hls]
    constructor
    · rintro ⟨⟨s, hs, hsv⟩, t, ht, htv⟩
      exact ⟨s.append t, .cons hs ht, (Selection.holds_append v s t).mpr ⟨hsv, htv⟩⟩
    · rintro ⟨u, hu, huv⟩
      obtain ⟨s, t, hs, ht, rfl⟩ := Literal.selectsAll_cons.mp hu
      obtain ⟨hsv, htv⟩ := (Selection.holds_append v s t).mp huv
      exact ⟨⟨s, hs, hsv⟩, t, ht, htv⟩

theorem Formula.truthAny_iff
    (h : ∀ c ∈ ds, ∀ l ∈ c, ∀ place, l.truth v place = true ↔ ∃ s, l.Selects place s ∧ s.Holds v)
    (place : List Nat) (n : Nat) :
    Formula.truthAny v place n ds = true ↔ ∃ s, Formula.SelectsAny place n ds s ∧ s.Holds v := by
  induction ds generalizing n with
  | nil => simp [Formula.truthAny, Formula.not_selectsAny_nil]
  | cons c cs ih =>
    obtain ⟨hc, hcs⟩ := List.forall_mem_cons.mp h
    rw [Formula.truthAny, Bool.or_eq_true, Literal.truthAll_iff hc, ih hcs]
    simp only [Formula.selectsAny_cons, or_and_right, exists_or]
    refine or_congr_left ⟨?_, ?_⟩
    · rintro ⟨s, hs, hsv⟩
      exact ⟨s.within n, ⟨s, hs, rfl⟩, (Selection.holds_within v n s).mpr hsv⟩
    · rintro ⟨_, ⟨s, hs, rfl⟩, hsv⟩
      exact ⟨s, hs, (Selection.holds_within v n s).mp hsv⟩

theorem Literal.truth_iff (v : List Nat → Bool) (l : Literal) :
    ∀ place, l.truth v place = true ↔ ∃ s, l.Selects place s ∧ s.Holds v := by
  induction l using Literal.induction with
  | alone l hl => simp [Literal.truth_of_alone hl, Literal.selects_of_alone hl]
  | group f ih =>
    intro place
    simp only [Literal.selects_group, Formula.selects_iff, ← Formula.truthAny_iff ih]
    cases f
    rfl

/-! What a selection leaves stands in the formula, in source order. -/

structure Selection.Located (place : List Nat) (Has : List Nat → Literal → Prop) (s : Selection) :
    Prop where
  ordered : s.places.Pairwise Precedes
  alone : ∀ o ∈ s.occurrences, ∀ f, o.literal ≠ .group f
  located : ∀ o ∈ s.occurrences, ∃ rest, o.place = place ++ rest ∧ Has rest o.literal

def Literal.HasAtAll (n : Nat) (ls : List Literal) (place : List Nat) (m : Literal) : Prop :=
  ∃ j l rest, ls[j]? = some l ∧ place = (n + j) :: rest ∧ l.HasAt rest m

theorem Literal.located_all (h : ∀ l ∈ ls, ∀ place s, l.Selects place s → s.Located place l.HasAt)
    (place : List Nat) (n : Nat) (u : Selection) (hu : Literal.SelectsAll place n ls u) :
    u.Located place (Literal.HasAtAll n ls) := by
  induction ls generalizing n u with
  | nil =>
    obtain rfl := Literal.selectsAll_nil.mp hu
    exact ⟨.nil, by simp [Selection.empty], by simp [Selection.empty]⟩
  | cons l ls ih =>
    obtain ⟨hl, hls⟩ := List.forall_mem_cons.mp h
    obtain ⟨s, t, hs, ht, rfl⟩ := Literal.selectsAll_cons.mp hu
    have hs := hl _ s hs
    have ht := ih hls (n + 1) t ht
    refine ⟨?_, List.forall_mem_append.mpr ⟨hs.alone, ht.alone⟩,
      List.forall_mem_append.mpr ⟨?_, ?_⟩⟩
    · -- the literals to the right have greater numbers
      rw [Selection.places, Selection.append, List.map_append, List.pairwise_append]
      refine ⟨hs.ordered, ht.ordered, fun p hp q hq => ?_⟩
      obtain ⟨o, ho, rfl⟩ := List.mem_map.mp hp
      obtain ⟨o', ho', rfl⟩ := List.mem_map.mp hq
      obtain ⟨rest, hplace, _⟩ := hs.located o ho
      obtain ⟨_, hplace', j, _, rest', _, rfl, _⟩ := ht.located o' ho'
      rw [hplace, hplace', List.append_assoc]
      exact (Precedes.cons_of_lt (by omega) rest rest').append_left place
    · intro o ho
      obtain ⟨rest, hplace, hhas⟩ := hs.located o ho
      exact ⟨n :: rest, by rw [hplace, List.append_assoc]; rfl, 0, l, rest, rfl, rfl, hhas⟩
    · intro o ho
      obtain ⟨_, hplace, j, m, rest, hm, rfl, hhas⟩ := ht.located o ho
      exact ⟨_, hplace, j + 1, m, rest, hm, by rw [Nat.succ_add_eq_add_succ], hhas⟩

theorem Literal.located (l : Literal) : ∀ place s, l.Selects place s → s.Located place l.HasAt := by
  induction l using Literal.induction with
  | alone l hl =>
    intro place s hs
    obtain rfl := (Literal.selects_of_alone hl).mp hs
    exact ⟨List.pairwise_singleton _ _, by simpa [Selection.single] using hl,
      by simpa [Selection.single] using Literal.HasAt.here l⟩
  | group f ih =>
    intro place u hu
    cases Literal.selects_group.mp hu with
    | @disjunct _ _ i c s hc hs =>
      have hs := Literal.located_all (ih c (List.mem_of_getElem? hc)) _ 0 s hs
      refine ⟨hs.ordered, hs.alone, fun o ho => ?_⟩
      obtain ⟨_, hplace, j, l, rest, hl, rfl, hhas⟩ := hs.located o ho
      rw [Nat.zero_add, List.append_assoc] at hplace
      exact ⟨i :: j :: rest, hplace, .inside hc hl hhas⟩

/-- The alternatives of a formula are its disjunctive normal form. They are what its selections
leave, each selection once and in the order of the choices, the leftmost choice counting most. A
selection leaves literals in source order and no groups. Whatever the truth values of the
occurrences outside negations are, the formula is true if and only if all is true that one of the
selections leaves. -/
theorem Formula.alternatives_normal_form (f : Formula) :
    ∃ ss : List Selection,
      f.alternatives = ss.map Selection.literals ∧
      (∀ s, s ∈ ss ↔ f.Selects [] s) ∧
      ss.Pairwise (fun s t => s.choices < t.choices) ∧
      (∀ s ∈ ss, s.places.Pairwise (· < ·) ∧ ∀ o ∈ s.occurrences,
        (Literal.group f).HasAt o.place o.literal ∧ ∀ g, o.literal ≠ .group g) ∧
      ∀ v : List Nat → Bool, f.truth v [] = true ↔ ∃ s ∈ ss,
        ∀ o ∈ s.occurrences, v o.place = true := by
  obtain ⟨ss, hss⟩ := (Literal.group f).exists_enumerates []
  have hmem : ∀ s, s ∈ ss ↔ f.Selects [] s := fun s => (hss.mem_iff s).trans Literal.selects_group
  refine ⟨ss, hss.literals.symm, hmem, hss.ordered.imp Precedes.lt, fun s hs => ?_, fun v => ?_⟩
  · have hlocated := (Literal.group f).located [] s ((hss.mem_iff s).mp hs)
    refine ⟨hlocated.ordered.imp Precedes.lt, fun o ho => ⟨?_, hlocated.alone o ho⟩⟩
    obtain ⟨rest, hplace, hhas⟩ := hlocated.located o ho
    rwa [hplace]
  · have htruth := Literal.truth_iff v (.group f) []
    simp only [← hss.mem_iff] at htruth
    exact htruth

example (a b c d : Call) (s : Span) :
    (Formula.mk [[.group (.mk [[.call a], [.call b]] s), .group (.mk [[.call c], [.call d]] s)]]
      s).alternatives =
      [[.call a, .call c], [.call a, .call d], [.call b, .call c], [.call b, .call d]] := rfl

end GraphRules
