import GraphRules.Script.Alternatives
import GraphRules.Script.Parse
import Mathlib.Data.List.Basic

/-! What can be read as a script. The names of rules and queries start with a small letter, and
every formula has an alternative. -/
namespace GraphRules

theorem Literal.alternativesAll_ne_nil {ls : List Literal} (h : ∀ l ∈ ls, l.alternatives ≠ []) :
    Literal.alternativesAll ls ≠ [] := by
  induction ls with
  | nil => simp [Literal.alternativesAll]
  | cons l ls ih =>
    have hl := h l (by simp)
    have hls := ih fun l' hl' => h l' (by simp [hl'])
    simp only [Literal.alternativesAll]
    obtain ⟨a, as, ha⟩ := List.exists_cons_of_ne_nil hl
    obtain ⟨b, bs, hb⟩ := List.exists_cons_of_ne_nil hls
    simp [ha, hb]

theorem Formula.alternativesAny_ne_nil {ds : List (List Literal)} (hd : ds ≠ [])
    (h : ∀ c ∈ ds, Literal.alternativesAll c ≠ []) : Formula.alternativesAny ds ≠ [] := by
  cases ds with
  | nil => exact (hd rfl).elim
  | cons c cs => simp [Formula.alternativesAny, h c (by simp)]

namespace Script

variable {α β : Type}

def Yields (p : Reader α) (Q : α → Prop) : Prop := ∀ c a c', p c = some (a, c') → Q a

section Combinators

variable {p q : Reader α} {Q : α → Prop} {Q' : β → Prop} {f : α → Reader β}

theorem yields_true (p : Reader α) : Yields p fun _ => True := fun _ _ _ _ => trivial

theorem yields_pure {a : α} (h : Q a) : Yields (pure a) Q := by
  intro c b c' hb
  cases hb
  exact h

theorem Yields.bind (h : Yields p Q) (hf : ∀ a, Q a → Yields (f a) Q') : Yields (p >>= f) Q' := by
  intro c b c' hb
  change (p c).bind (fun x => f x.1 x.2) = some (b, c') at hb
  cases hp : p c with
  | none => rw [hp] at hb; cases hb
  | some x => rw [hp] at hb; exact hf x.1 (h c x.1 x.2 hp) x.2 b c' hb

theorem Yields.after (hf : ∀ a, Yields (f a) Q') : Yields (p >>= f) Q' :=
  (yields_true p).bind fun a _ => hf a

theorem Yields.map {f : α → β} (h : Yields p Q) (hf : ∀ a, Q a → Q' (f a)) : Yields (f <$> p) Q' :=
  h.bind fun a ha => yields_pure (hf a ha)

theorem Yields.orElse (h : Yields p Q) (h' : Yields q Q) : Yields (p <|> q) Q := by
  intro c a c' ha
  change (p c <|> q c) = some (a, c') at ha
  cases hp : p c with
  | none => rw [hp] at ha; exact h' c a c' ha
  | some x => rw [hp] at ha; cases ha; exact h c a c' hp

theorem Yields.optional (h : Yields p Q) : Yields (optional p) fun a? => ∀ a ∈ a?, Q a :=
  (h.map fun a ha b hb => by cases hb; exact ha).orElse (yields_pure nofun)

theorem Yields.spanned (h : Yields p Q) : Yields (spanned p) fun a => Q a.1 := by
  intro c a c' ha
  simp only [Script.spanned] at ha
  cases hp : p c with
  | none => rw [hp] at ha; cases ha
  | some x => rw [hp] at ha; cases ha; exact h c _ _ hp

theorem Yields.several (h : Yields p Q) (n : Nat) :
    Yields (several p n) fun as => ∀ a ∈ as, Q a := by
  induction n with
  | zero => exact yields_pure nofun
  | succ n ih =>
    intro c as c' ha
    simp only [Script.several] at ha
    cases hp : p c with
    | none => rw [hp] at ha; cases ha; exact nofun
    | some x =>
      rw [hp] at ha
      cases hs : Script.several p n x.2 with
      | none => simp [hs] at ha
      | some y =>
        simp only [hs, Option.some.injEq, Prod.mk.injEq] at ha
        obtain ⟨rfl, rfl⟩ := ha
        exact List.forall_mem_cons.mpr ⟨h c x.1 x.2 hp, ih x.2 y.1 y.2 hs⟩

theorem Yields.many (h : Yields p Q) : Yields (many p) fun as => ∀ a ∈ as, Q a :=
  fun c => h.several c.rest.length c

theorem Yields.separated (h : Yields p Q) (separator : String) :
    Yields (separated separator p) fun as => as ≠ [] ∧ ∀ a ∈ as, Q a := by
  have hnext : Yields (following separator p) Q := .after fun _ => .after fun _ => h
  refine h.bind fun a ha => .after fun _ => hnext.optional.bind fun b? hb => ?_
  cases b? with
  | none => exact yields_pure ⟨by simp, by simpa using ha⟩
  | some b =>
    have hothers : Yields (Script.many (do blanks; following separator p)) _ :=
      Yields.many (.after fun _ => hnext)
    refine hothers.bind fun cs hcs => yields_pure ⟨by simp, ?_⟩
    exact List.forall_mem_cons.mpr ⟨ha, List.forall_mem_cons.mpr ⟨hb b rfl, hcs⟩⟩

end Combinators

def IsName (s : String) : Prop := ∃ c cs, s.toList = c :: cs ∧ c.isLower

theorem yields_name : Yields name IsName := by
  intro c s c' hs
  cases hr : c.rest with
  | nil => simp [name, taken, nameLength?, hr] at hs
  | cons x xs =>
    by_cases hx : x.isLower
    · simp only [name, taken, nameLength?, hr, hx, if_true, Option.map_some,
        Option.some.injEq, Prod.mk.injEq] at hs
      obtain ⟨rfl, _⟩ := hs
      exact ⟨x, xs.take (xs.takeWhile isNameChar).length, by simp, hx⟩
    · simp [name, taken, nameLength?, hr, hx] at hs

theorem yields_call : Yields call fun c => IsName c.name := by
  have hparts : Yields (do
      let n ← name
      blanks
      let args? ← optional arguments
      pure (n, args?)) fun x => IsName x.1 :=
    yields_name.bind fun n hn => .after fun _ => .after fun _ => yields_pure hn
  exact hparts.spanned.bind fun x hx => yields_pure hx

theorem yields_literal {f : Reader Formula} (h : Yields f fun g => g.alternatives ≠ []) :
    Yields (literal f) fun l => l.alternatives ≠ [] := by
  have hgroup : Yields (group f) fun g => g.alternatives ≠ [] :=
    .after fun _ => .after fun _ => h.bind fun g hg => .after fun _ =>
      .after fun _ => yields_pure hg
  refine Yields.orElse ?_ (.orElse ?_ (.orElse ?_ ?_))
  · exact .after fun x => yields_pure (by simp [Literal.alternatives])
  · exact (yields_true _).map fun c _ => by simp [Literal.alternatives]
  · exact hgroup.map fun g hg => by simpa [Literal.alternatives] using hg
  · exact (yields_true _).map fun c _ => by simp [Literal.alternatives]

theorem yields_formulaDepth (n : Nat) : Yields (formulaDepth n) fun f => f.alternatives ≠ [] := by
  induction n with
  | zero => intro c a c' ha; cases ha
  | succ n ih =>
    have hparts := (((yields_literal ih).separated ",").separated ";").spanned
    refine hparts.bind fun x hx => yields_pure ?_
    rw [Formula.alternatives]
    exact Formula.alternativesAny_ne_nil hx.1 fun c hc =>
      Literal.alternativesAll_ne_nil (hx.2 c hc).2

theorem yields_formula : Yields formula fun f => f.alternatives ≠ [] :=
  fun c => yields_formulaDepth _ c

end Script

def Item.Readable : Item → Prop
  | .labels _ => True
  | .rule r => ∀ c ∈ r.consequence, Script.IsName c.name
  | .query q => Script.IsName q.name ∧ q.body.alternatives ≠ []

namespace Script

theorem yields_item : Yields item Item.Readable := by
  refine Yields.orElse ?_ (.orElse ?_ ?_)
  · exact .after fun x => yields_pure trivial
  · have hparts : Yields (do
        keyword "query"
        blanks
        let n ← spanned name
        blanks
        exactly ":"
        blanks
        let body ← formula
        blanks
        exactly "."
        pure (n, body)) fun x => IsName x.1.1 ∧ x.2.alternatives ≠ [] :=
      .after fun _ => .after fun _ => yields_name.spanned.bind fun n hn =>
        .after fun _ => .after fun _ =>
        .after fun _ => yields_formula.bind fun f hf => .after fun _ =>
          .after fun _ => yields_pure ⟨hn, hf⟩
    exact hparts.spanned.bind fun x hx => yields_pure hx
  · have hparts : Yields (do
        let antecedent? ← optional antecedent
        blanks
        let consequence ← separated "," call
        blanks
        exactly "."
        pure (antecedent?, consequence)) fun x => ∀ c ∈ x.2, IsName c.name :=
      .after fun _ => .after fun _ => (yields_call.separated ",").bind fun cs hcs => .after fun _ =>
        .after fun _ => yields_pure hcs.2
    exact hparts.spanned.bind fun x hx => yields_pure hx

variable {Q : Item → Prop} {text : String}

theorem Yields.statement (h : Yields item Q) :
    Yields statement fun s => ∀ i, s = .item i → Q i := by
  intro c s c' hs i hi
  subst hi
  simp only [Script.statement] at hs
  split at hs
  · next j c₁ hj =>
    split at hs
    · cases hs
    · cases hs
      exact h _ _ _ hj
  · split at hs
    · cases hs
    · cases hs

theorem Yields.parse (hitem : Yields item Q) {s : Script} (h : parse text = .ok s) :
    ∀ i ∈ s.items, Q i := by
  intro i hi
  have hitems : s.items = (statements text).filterMap Statement.item? := by
    unfold Script.parse at h
    simp only at h
    split at h
    · cases h; rfl
    · cases h
  rw [hitems] at hi
  obtain ⟨st, hst, hsome⟩ := List.mem_filterMap.mp hi
  obtain rfl : st = .item i := by
    cases st with
    | item j => cases hsome; rfl
    | oversized t sp => cases hsome
    | malformed t sp => cases hsome
  unfold statements at hst
  simp only at hst
  have hmany : Yields (Script.many (blanks *> Script.statement)) _ :=
    Yields.many (.after fun _ => hitem.statement)
  split at hst
  · next ss c' hss => exact hmany _ _ _ hss (.item i) hst i rfl
  · cases hst

theorem readable_of_parse {s : Script} (h : parse text = .ok s) : ∀ i ∈ s.items, i.Readable :=
  yields_item.parse h

end Script

end GraphRules
