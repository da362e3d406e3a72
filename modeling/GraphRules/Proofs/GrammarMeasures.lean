import GraphRules.Proofs.InStep
import GraphRules.Proofs.SyntaxTrees

/-! Expressions as measures. In a token no gaps are passed, so how much of a text an expression
takes is a measure of the text: each way to put expressions together is one to put measures
together. -/
namespace GraphRules.Grammar

open Script

theorem Spot.advance_zero (p : Spot) : p.advance 0 = p := rfl

theorem Spot.advance_advance (p : Spot) (n k : Nat) :
    (p.advance n).advance k = p.advance (n + k) := by
  simp only [Spot.advance, List.drop_drop, ← List.foldl_append, List.take_add]

theorem Spot.upTo_advance (p : Spot) (n : Nat) :
    p.upTo (p.advance n) = String.ofList (p.rest.take n) := by
  by_cases h : n ≤ p.rest.length
  · have hlen : p.rest.length - (p.rest.length - n) = n := by omega
    rw [Spot.upTo, Spot.advance, List.length_drop, hlen]
  · have hlen : p.rest.length - (p.rest.length - n) = p.rest.length := by omega
    rw [Spot.upTo, Spot.advance, List.length_drop, hlen, List.take_of_length_le (Nat.le_refl _),
      List.take_of_length_le (by omega)]

abbrev Measure := List Char → Option Nat

namespace Measure

def text (s : String) : Measure := fun cs => if s.toList.isPrefixOf cs then some s.length else none

def one (f : Char → Bool) : Measure
  | [] => none
  | c :: _ => if f c then some 1 else none

def seq (f g : Measure) : Measure := fun cs => (f cs).bind fun n => (g (cs.drop n)).map (n + ·)

def or (f g : Measure) : Measure := fun cs => (f cs).or (g cs)

def opt (f : Measure) : Measure := fun cs => some ((f cs).getD 0)

def present (f : Measure) : Measure := fun cs => (f cs).map fun _ => 0

def absent (f : Measure) : Measure := fun cs => if (f cs).isSome then none else some 0

def several (f : Measure) : Nat → List Char → Nat
  | 0, _ => 0
  | n + 1, cs =>
    match f cs with
    | none => 0
    | some k => k + several f n (cs.drop k)

def many (f : Measure) (cs : List Char) : Nat := f.several cs.length cs

def star (f : Measure) : Measure := fun cs => some (f.many cs)

def Advances (f : Measure) : Prop := ∀ cs n, f cs = some n → 0 < n ∧ n ≤ cs.length

variable {f t : Measure} {cs : List Char} {k n : Nat}

theorem several_congr (hf : f.Advances) {m : Nat} (hn : cs.length ≤ n) (hm : cs.length ≤ m) :
    f.several n cs = f.several m cs := by
  induction n generalizing m cs with
  | zero =>
    have hnil : cs = [] := List.eq_nil_of_length_eq_zero (by omega)
    cases m with
    | zero => rfl
    | succ m =>
      cases h : f cs with
      | none => simp [several, h]
      | some k =>
        have hk := hf cs k h
        simp [hnil] at hk
        omega
  | succ n ih =>
    cases m with
    | zero =>
      have hnil : cs = [] := List.eq_nil_of_length_eq_zero (by omega)
      cases h : f cs with
      | none => simp [several, h]
      | some k =>
        have hk := hf cs k h
        simp [hnil] at hk
        omega
    | succ m =>
      cases h : f cs with
      | none => simp [several, h]
      | some k =>
        have hk := hf cs k h
        have hdrop : (cs.drop k).length ≤ n ∧ (cs.drop k).length ≤ m := by
          rw [List.length_drop]
          omega
        simp only [several, h, ih hdrop.1 hdrop.2]

theorem many_of_none (h : f cs = none) : f.many cs = 0 := by
  unfold many
  cases cs.length with
  | zero => rfl
  | succ n => simp [several, h]

theorem many_of_some (hf : f.Advances) (h : f cs = some k) :
    f.many cs = k + f.many (cs.drop k) := by
  have hk := hf cs k h
  cases hlen : cs.length with
  | zero => omega
  | succ n =>
    have hdrop : (cs.drop k).length ≤ n := by
      rw [List.length_drop]
      omega
    rw [many, hlen]
    simp only [several, h]
    rw [several_congr hf hdrop (Nat.le_refl _), many]

theorem seq_of_some {g : Measure} (h : f cs = some n) :
    f.seq g cs = (g (cs.drop n)).map (n + ·) := by
  rw [seq, h, Option.bind_some]

theorem star_seq_of_none (h : f cs = none) : f.star.seq t cs = t cs := by
  simp [seq, star, many_of_none h]

/-- What a repetition has taken once belongs to it together with what is taken after that. -/
theorem star_seq_of_some (hf : f.Advances) (h : f cs = some k) :
    f.star.seq t cs = (f.star.seq t (cs.drop k)).map (k + ·) := by
  simp only [seq, star, many_of_some hf h, Option.bind_some, List.drop_drop, Option.map_map]
  congr
  funext n
  simp [Nat.add_assoc]

theorem advances_one (f : Char → Bool) : (one f).Advances := by
  intro cs n h
  cases cs with
  | nil => cases h
  | cons c cs =>
    simp only [one, Option.ite_none_right_eq_some, Option.some.injEq] at h
    simp
    omega

theorem many_one (f : Char → Bool) (cs : List Char) :
    (one f).many cs = (cs.takeWhile f).length := by
  induction cs with
  | nil => rfl
  | cons c cs ih =>
    by_cases hc : f c
    · rw [many_of_some (advances_one f) (k := 1) (by simp [one, hc])]
      simp [hc, ih]
      omega
    · rw [many_of_none (by simp [one, hc])]
      simp [hc]

end Measure

/-- What an expression takes is a measure of the text. The nodes it leaves have a property. -/
def Takes (m : Mode) (e : Expr) (f : Measure) (Q : Pair → Prop) : Prop :=
  ∀ p : Spot, ∃ o, Matches m e p o ∧
    Option.Rel (fun n (x : Spot × List Pair) => x.1 = p.advance n ∧ ∀ q ∈ x.2, Q q) (f p.rest) o

abbrev Silent (m : Mode) (e : Expr) (f : Measure) : Prop := Takes m e f fun _ => False

section Takes

variable {m : Mode} {a b : Expr} {f g : Measure} {Q Q' : Pair → Prop} {r : Rule}

theorem Takes.imp (h : Takes m a f Q) (hQ : ∀ q, Q q → Q' q) : Takes m a f Q' := by
  intro p
  obtain ⟨o, ho, hrel⟩ := h p
  exact ⟨o, ho, rel_imp hrel fun n x hx => ⟨hx.1, fun q hq => hQ q (hx.2 q hq)⟩⟩

theorem Takes.congr (h : Takes m a f Q) (hfg : ∀ cs, g cs = f cs) : Takes m a g Q := by
  intro p
  obtain ⟨o, ho, hrel⟩ := h p
  exact ⟨o, ho, hfg p.rest ▸ hrel⟩

theorem takes_text (s : String) : Takes m (.text s) (.text s) Q := by
  intro p
  by_cases h : s.toList <+: p.rest
  · refine ⟨_, .text_hit h, ?_⟩
    simp only [Measure.text, List.isPrefixOf_iff_prefix.mpr h, if_true]
    exact .some ⟨rfl, by simp⟩
  · refine ⟨_, .text_miss h, ?_⟩
    simp only [Measure.text, List.isPrefixOf_iff_prefix, h, if_false]
    exact .none

theorem takes_one (c : Char → Bool) : Takes m (.one c) (.one c) Q := by
  intro p
  cases hrest : p.rest with
  | nil => exact ⟨_, .one_miss (by simp [hrest]), .none⟩
  | cons x xs =>
    by_cases hx : c x
    · refine ⟨_, .one_hit hrest hx, ?_⟩
      simp only [Measure.one, hx, if_true]
      exact .some ⟨rfl, by simp⟩
    · refine ⟨_, .one_miss (by simpa [hrest] using hx), ?_⟩
      simp only [Measure.one, hx]
      exact .none

theorem matches_gap (hm : m ≠ .free) (p : Spot) : Matches .atomic m.gap p (some (p, [])) := by
  have hgap : m.gap = .text "" := by
    cases m with
    | free => exact (hm rfl).elim
    | atomic => rfl
    | compound => rfl
  rw [hgap]
  exact .text_hit List.nil_prefix

theorem Takes.seq (hm : m ≠ .free) (ha : Takes m a f Q) (hb : Takes m b g Q) :
    Takes m (.seq a b) (f.seq g) Q := by
  intro p
  obtain ⟨o, ho, hrel⟩ := ha p
  unfold Measure.seq
  generalize f p.rest = k at hrel
  cases hrel with
  | none => exact ⟨_, .seq_miss ho, .none⟩
  | @some n x hx =>
    obtain ⟨hnext, hxs⟩ := hx
    obtain ⟨o', ho', hrel'⟩ := hb x.1
    refine ⟨_, .seq ho (matches_gap hm x.1) ho', ?_⟩
    rw [hnext] at hrel'
    change Option.Rel _ (Option.map _ (g (p.rest.drop n))) _
    change Option.Rel _ (g (p.rest.drop n)) _ at hrel'
    generalize g (p.rest.drop n) = k' at hrel'
    cases hrel' with
    | none => exact .none
    | some hy =>
      refine .some ⟨hy.1.trans (p.advance_advance _ _), fun q hq => ?_⟩
      simp only [List.append_nil, List.mem_append] at hq
      rcases hq with hq | hq
      · exact hxs q hq
      · exact hy.2 q hq

theorem Takes.choice (ha : Takes m a f Q) (hb : Takes m b g Q) :
    Takes m (.choice a b) (f.or g) Q := by
  intro p
  obtain ⟨o, ho, hrel⟩ := ha p
  unfold Measure.or
  generalize f p.rest = k at hrel
  cases hrel with
  | none =>
    obtain ⟨o', ho', hrel'⟩ := hb p
    exact ⟨_, .choice_right ho ho', hrel'⟩
  | some hx => exact ⟨_, .choice_left ho, .some hx⟩

theorem Takes.opt (ha : Takes m a f Q) : Takes m (.opt a) f.opt Q := by
  intro p
  obtain ⟨o, ho, hrel⟩ := ha p
  unfold Measure.opt
  generalize f p.rest = k at hrel
  cases hrel with
  | none => exact ⟨_, .opt_miss ho, .some ⟨rfl, by simp⟩⟩
  | some hx => exact ⟨_, .opt_hit ho, .some hx⟩

theorem Takes.present (ha : Takes m a f Q) : Takes m (.present a) f.present Q' := by
  intro p
  obtain ⟨o, ho, hrel⟩ := ha p
  unfold Measure.present
  generalize f p.rest = k at hrel
  cases hrel with
  | none => exact ⟨_, .present_miss ho, .none⟩
  | some hx => exact ⟨_, .present_hit ho, .some ⟨rfl, by simp⟩⟩

theorem Takes.absent (ha : Takes m a f Q) : Takes m (.absent a) f.absent Q' := by
  intro p
  obtain ⟨o, ho, hrel⟩ := ha p
  unfold Measure.absent
  generalize f p.rest = k at hrel
  cases hrel with
  | none => exact ⟨_, .absent_hit ho, .some ⟨rfl, by simp⟩⟩
  | some hx => exact ⟨_, .absent_miss ho, .none⟩

theorem Takes.again (hm : m ≠ .free) (ha : Takes m a f Q) (hf : f.Advances) (p : Spot) :
    ∃ ys, Matches m (.again a) p (some (p.advance (f.many p.rest), ys)) ∧ ∀ q ∈ ys, Q q := by
  induction hn : p.rest.length using Nat.strongRecOn generalizing p with
  | ind n ih =>
    obtain ⟨o, ho, hrel⟩ := ha p
    cases hk : f p.rest with
    | none =>
      rw [hk] at hrel
      cases hrel
      rw [Measure.many_of_none hk, p.advance_zero]
      exact ⟨[], .again_stop (matches_gap hm p) ho, by simp⟩
    | some k =>
      rw [hk] at hrel
      obtain ⟨x, rfl, hnext, hxs⟩ := rel_some_left hrel
      have hlt := hf _ _ hk
      have hrest : (p.advance k).rest = p.rest.drop k := rfl
      obtain ⟨ys, hys, hQ⟩ := ih _ (by rw [← hn, hnext, hrest, List.length_drop]; omega) x.1 rfl
      rw [Measure.many_of_some hf hk, ← p.advance_advance, ← hnext, ← hrest, ← hnext]
      refine ⟨_, .again_more (matches_gap hm p) ho hys, fun q hq => ?_⟩
      simp only [List.nil_append, List.mem_append] at hq
      rcases hq with hq | hq
      · exact hxs q hq
      · exact hQ q hq

theorem Takes.star (hm : m ≠ .free) (ha : Takes m a f Q) (hf : f.Advances) :
    Takes m (.star a) f.star Q := by
  intro p
  unfold Measure.star
  obtain ⟨o, ho, hrel⟩ := ha p
  cases hk : f p.rest with
  | none =>
    rw [hk] at hrel
    cases hrel
    rw [Measure.many_of_none hk]
    exact ⟨_, .star_stop ho, .some ⟨rfl, by simp⟩⟩
  | some k =>
    rw [hk] at hrel
    obtain ⟨x, rfl, hnext, hxs⟩ := rel_some_left hrel
    have hrest : (p.advance k).rest = p.rest.drop k := rfl
    obtain ⟨ys, hys, hQ⟩ := ha.again hm hf x.1
    refine ⟨_, .star_more ho hys, ?_⟩
    rw [Measure.many_of_some hf hk]
    refine .some ⟨?_, fun q hq => ?_⟩
    · rw [hnext, hrest, p.advance_advance]
    · rcases List.mem_append.mp hq with hq | hq
      · exact hxs q hq
      · exact hQ q hq

theorem Takes.call (h : Takes (r.kind.within m) r.body f Q) (hleaves : r.kind.leaves m = false) :
    Takes m (.call r) f Q := by
  intro p
  obtain ⟨o, ho, hrel⟩ := h p
  have hclose : r.close m p = id := by
    funext x
    simp [Rule.close, hleaves]
  exact ⟨_, .call ho, by rwa [hclose, Option.map_id]⟩

theorem Takes.node (h : Takes (r.kind.within m) r.body f Q)
    (hleaves : r.kind.leaves m) (p : Spot) :
    ∃ o, Matches m (.call r) p o ∧ Option.Rel (fun n (x : Spot × List Pair) => x.1 = p.advance n ∧
      ∃ inner, x.2 =
        [.mk r (String.ofList (p.rest.take n)) (.between p.place (p.advance n).place) inner])
      (f p.rest) o := by
  obtain ⟨o, ho, hrel⟩ := h p
  refine ⟨_, .call ho, ?_⟩
  generalize f p.rest = k at hrel
  cases hrel with
  | none => exact .none
  | @some n x hx =>
    refine .some ⟨?_, x.2, ?_⟩
    · simp [Rule.close, hleaves, hx.1]
    · simp [Rule.close, hleaves, hx.1, p.upTo_advance]

theorem Takes.leaf (h : Takes (r.kind.within m) r.body f Q) (hleaves : r.kind.leaves m) :
    Takes m (.call r) f fun _ => True := by
  intro p
  obtain ⟨o, ho, hrel⟩ := h.node hleaves p
  exact ⟨o, ho, rel_imp hrel fun _ _ hx => ⟨hx.1, fun _ _ => trivial⟩⟩

end Takes

namespace Measure

theorem text_one (c : Char) (s : String) (hs : s.toList = [c]) : text s = one (· = c) := by
  have hlen : s.length = 1 := by rw [← String.length_toList, hs]; rfl
  funext cs
  cases cs with
  | nil => simp [text, one, hs]
  | cons x xs =>
    by_cases hx : x = c
    · simp [text, one, hs, hx, hlen]
    · have hx' : c ≠ x := fun h => hx h.symm
      simp [text, one, hs, hx, hx']

theorem or_one (f g : Char → Bool) : (one f).or (one g) = one fun c => f c || g c := by
  funext cs
  cases cs with
  | nil => rfl
  | cons x xs => by_cases hf : f x <;> simp [one, or, hf]

theorem seq_assoc (f g h : Measure) : f.seq (g.seq h) = (f.seq g).seq h := by
  funext cs
  simp only [seq]
  cases f cs with
  | none => rfl
  | some n =>
    cases hg : g (cs.drop n) with
    | none => simp [hg]
    | some k => cases hh : h ((cs.drop n).drop k) <;> simp_all [Nat.add_assoc]

theorem absent_name (cs : List Char) :
    (one isNameChar).absent cs = if Closed cs then some 0 else none := by
  cases cs with
  | nil => rfl
  | cons x xs => by_cases hx : isNameChar x <;> simp [absent, one, Closed, hx]

end Measure

end GraphRules.Grammar
