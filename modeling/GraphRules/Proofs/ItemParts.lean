import GraphRules.Proofs.Concatenation
import GraphRules.Proofs.Conditions

/-! What items are made of. In an item that was read no list of alternatives, conditions or
consequences is empty, every name is a name of the language, every argument is what some token
stands for, and every whole number fits a word. -/
namespace GraphRules

open Script

mutual

def Literal.args : Literal → List Arg
  | .call c => c.args
  | .negated f _ => f.args
  | .compare c => [c.left, c.right]
  | .group f => f.args

def Formula.args : Formula → List Arg
  | .mk ds _ => Formula.argsAny ds

def Formula.argsAny : List (List Literal) → List Arg
  | [] => []
  | c :: cs => Literal.argsAll c ++ Formula.argsAny cs

def Literal.argsAll : List Literal → List Arg
  | [] => []
  | l :: ls => l.args ++ Literal.argsAll ls

end

def Item.calls : Item → List Call
  | .labels _ => []
  | .rule d => d.antecedent?.toList.flatMap Formula.calls ++ d.consequence
  | .query d => d.body.calls

def Item.args : Item → List Arg
  | .labels _ => []
  | .rule d => d.antecedent?.toList.flatMap Formula.args ++ d.consequence.flatMap Call.args
  | .query d => d.body.args

def Item.labelValues : Item → List String
  | .labels d => d.labels.map Label.value
  | .rule _ => []
  | .query _ => []

def Script.IsWord (s : String) : Prop := ∃ c cs, s.toList = c :: cs ∧ c.isLower ∧ cs.all isNameChar

structure Call.Made (P : String → Prop) (Q : ArgKind → Prop) (c : Call) : Prop where
  name : P c.name
  args : ∀ a ∈ c.args, Q a.kind

section Made

variable (P : String → Prop) (Q : ArgKind → Prop)

mutual

def Literal.Made : Literal → Prop
  | .call c => c.Made P Q
  | .negated f _ => f.Made
  | .compare c => Q c.left.kind ∧ Q c.right.kind
  | .group f => f.Made

def Formula.Made : Formula → Prop
  | .mk ds _ => ds ≠ [] ∧ Formula.MadeAny ds

def Formula.MadeAny : List (List Literal) → Prop
  | [] => True
  | c :: cs => (c ≠ [] ∧ Literal.MadeAll c) ∧ Formula.MadeAny cs

def Literal.MadeAll : List Literal → Prop
  | [] => True
  | l :: ls => l.Made ∧ Literal.MadeAll ls

end

def Item.Made : Item → Prop
  | .labels d => d.labels ≠ [] ∧ ∀ l ∈ d.labels, ∀ s ∈ l.alias?, IsWord s
  | .rule d => (∀ f ∈ d.antecedent?, f.Made P Q) ∧ d.consequence ≠ [] ∧
    ∀ c ∈ d.consequence, c.Made P Q
  | .query d => IsWord d.name ∧ d.body.Made P Q

end Made

section Strengthen

variable {P P' : String → Prop} {Q Q' : ArgKind → Prop}

theorem Literal.madeAll_iff {ls : List Literal} :
    Literal.MadeAll P Q ls ↔ ∀ l ∈ ls, l.Made P Q := by
  induction ls with
  | nil => simp [Literal.MadeAll]
  | cons l ls ih => simp [Literal.MadeAll, ih]

theorem Formula.madeAny_iff {ds : List (List Literal)} :
    Formula.MadeAny P Q ds ↔ ∀ c ∈ ds, c ≠ [] ∧ ∀ l ∈ c, l.Made P Q := by
  induction ds with
  | nil => simp [Formula.MadeAny]
  | cons c cs ih => simp [Formula.MadeAny, Literal.madeAll_iff, ih]

theorem Call.Made.imp {c : Call} (h : c.Made P Q) (hname : P c.name → P' c.name)
    (hargs : ∀ a ∈ c.args, Q a.kind → Q' a.kind) : c.Made P' Q' :=
  ⟨hname h.name, fun a ha => hargs a ha (h.args a ha)⟩

mutual

theorem Literal.Made.imp : ∀ {l : Literal}, l.Made P Q → (∀ c ∈ l.calls, P c.name → P' c.name) →
    (∀ a ∈ l.args, Q a.kind → Q' a.kind) → l.Made P' Q'
  | .call c, h, hcalls, hargs => Call.Made.imp h (hcalls c (List.mem_singleton.mpr rfl)) hargs
  | .negated f _, h, hcalls, hargs => Formula.Made.imp (f := f) h hcalls hargs
  | .compare c, h, _, hargs =>
    ⟨hargs c.left (List.mem_cons_self ..) h.1,
      hargs c.right (List.mem_cons_of_mem _ (List.mem_cons_self ..)) h.2⟩
  | .group f, h, hcalls, hargs => Formula.Made.imp (f := f) h hcalls hargs

theorem Formula.Made.imp : ∀ {f : Formula}, f.Made P Q → (∀ c ∈ f.calls, P c.name → P' c.name) →
    (∀ a ∈ f.args, Q a.kind → Q' a.kind) → f.Made P' Q'
  | .mk _ _, h, hcalls, hargs => ⟨h.1, Formula.MadeAny.imp h.2 hcalls hargs⟩

theorem Formula.MadeAny.imp :
    ∀ {ds : List (List Literal)}, Formula.MadeAny P Q ds →
      (∀ c ∈ Formula.callsAny ds, P c.name → P' c.name) →
      (∀ a ∈ Formula.argsAny ds, Q a.kind → Q' a.kind) → Formula.MadeAny P' Q' ds
  | [], _, _, _ => trivial
  | _ :: _, h, hcalls, hargs =>
    ⟨⟨h.1.1, Literal.MadeAll.imp h.1.2 (fun c hc => hcalls c (List.mem_append_left _ hc))
        fun a ha => hargs a (List.mem_append_left _ ha)⟩,
      Formula.MadeAny.imp h.2 (fun c hc => hcalls c (List.mem_append_right _ hc))
        fun a ha => hargs a (List.mem_append_right _ ha)⟩

theorem Literal.MadeAll.imp :
    ∀ {ls : List Literal}, Literal.MadeAll P Q ls →
      (∀ c ∈ Literal.callsAll ls, P c.name → P' c.name) →
      (∀ a ∈ Literal.argsAll ls, Q a.kind → Q' a.kind) → Literal.MadeAll P' Q' ls
  | [], _, _, _ => trivial
  | _ :: _, h, hcalls, hargs =>
    ⟨Literal.Made.imp h.1 (fun c hc => hcalls c (List.mem_append_left _ hc))
        fun a ha => hargs a (List.mem_append_left _ ha),
      Literal.MadeAll.imp h.2 (fun c hc => hcalls c (List.mem_append_right _ hc))
        fun a ha => hargs a (List.mem_append_right _ ha)⟩

end

theorem Item.Made.imp {i : Item} (h : i.Made P Q) (hcalls : ∀ c ∈ i.calls, P c.name → P' c.name)
    (hargs : ∀ a ∈ i.args, Q a.kind → Q' a.kind) : i.Made P' Q' := by
  cases i with
  | labels d => exact h
  | rule d =>
    refine ⟨fun f hf => ?_, h.2.1, fun c hc => ?_⟩
    · have hmem : f ∈ d.antecedent?.toList := Option.mem_toList.mpr hf
      exact (h.1 f hf).imp (fun c hc =>
        hcalls c (List.mem_append_left _ (List.mem_flatMap.mpr ⟨f, hmem, hc⟩)))
        fun a ha => hargs a (List.mem_append_left _ (List.mem_flatMap.mpr ⟨f, hmem, ha⟩))
    · exact (h.2.2 c hc).imp (hcalls c (List.mem_append_right _ hc))
        fun a ha => hargs a (List.mem_append_right _ (List.mem_flatMap.mpr ⟨c, hc, ha⟩))
  | query d => exact ⟨h.1, h.2.imp hcalls hargs⟩

end Strengthen

section Parts

variable {P : String → Prop} {Q : ArgKind → Prop}

mutual

theorem Literal.Made.of_mem_alternatives :
    ∀ {l : Literal}, l.Made P Q → ∀ a ∈ l.alternatives, Literal.MadeAll P Q a
  | .call _, h, _, ha => by
    obtain rfl := List.mem_singleton.mp ha
    exact ⟨h, trivial⟩
  | .negated _ _, h, _, ha => by
    obtain rfl := List.mem_singleton.mp ha
    exact ⟨h, trivial⟩
  | .compare _, h, _, ha => by
    obtain rfl := List.mem_singleton.mp ha
    exact ⟨h, trivial⟩
  | .group f, h, a, ha => Formula.Made.of_mem_alternatives (f := f) h a ha

theorem Formula.Made.of_mem_alternatives :
    ∀ {f : Formula}, f.Made P Q → ∀ a ∈ f.alternatives, Literal.MadeAll P Q a
  | .mk _ _, h, a, ha => Formula.MadeAny.of_mem_alternatives h.2 a ha

theorem Formula.MadeAny.of_mem_alternatives : ∀ {ds : List (List Literal)}, Formula.MadeAny P Q ds →
    ∀ a ∈ Formula.alternativesAny ds, Literal.MadeAll P Q a
  | [], _, _, ha => by cases ha
  | _ :: _, h, a, ha => by
    rcases List.mem_append.mp ha with ha | ha
    · exact Literal.MadeAll.of_mem_alternatives h.1.2 a ha
    · exact Formula.MadeAny.of_mem_alternatives h.2 a ha

theorem Literal.MadeAll.of_mem_alternatives : ∀ {ls : List Literal}, Literal.MadeAll P Q ls →
    ∀ a ∈ Literal.alternativesAll ls, Literal.MadeAll P Q a
  | [], _, a, ha => by
    obtain rfl := List.mem_singleton.mp ha
    trivial
  | _ :: _, h, a, ha => by
    obtain ⟨x, hx, ha⟩ := List.mem_flatMap.mp ha
    obtain ⟨y, hy, rfl⟩ := List.mem_map.mp ha
    have hfirst := Literal.madeAll_iff.mp (Literal.Made.of_mem_alternatives h.1 x hx)
    have hrest := Literal.madeAll_iff.mp (Literal.MadeAll.of_mem_alternatives h.2 y hy)
    exact Literal.madeAll_iff.mpr fun l hl => (List.mem_append.mp hl).elim (hfirst l) (hrest l)

end

theorem Arg.of_varName? {a : Arg} {x : String} (h : a.varName? = some x) : a.kind = .var x := by
  unfold varName? at h
  split at h
  · rename_i hk
    cases h
    exact hk
  · cases h

mutual

theorem Literal.Made.of_mem_visible : ∀ {l : Literal}, l.Made P Q → ∀ x ∈ l.visible, Q (.var x)
  | .call c, h, x, hx => by
    obtain ⟨a, ha, hname⟩ := List.mem_filterMap.mp hx
    exact Arg.of_varName? hname ▸ h.args a ha
  | .negated _ _, _, _, hx => by cases hx
  | .compare c, h, x, hx => by
    rcases List.mem_append.mp hx with hx | hx
    · exact Arg.of_varName? (Option.mem_toList.mp hx) ▸ h.1
    · exact Arg.of_varName? (Option.mem_toList.mp hx) ▸ h.2
  | .group f, h, x, hx => Formula.Made.of_mem_visible (f := f) h x hx

theorem Formula.Made.of_mem_visible : ∀ {f : Formula}, f.Made P Q → ∀ x ∈ f.visible, Q (.var x)
  | .mk _ _, h, x, hx => Formula.MadeAny.of_mem_visible h.2 x hx

theorem Formula.MadeAny.of_mem_visible : ∀ {ds : List (List Literal)}, Formula.MadeAny P Q ds →
    ∀ x ∈ Formula.visibleAll ds, Q (.var x)
  | [], _, _, hx => by cases hx
  | _ :: _, h, x, hx => by
    rcases List.mem_append.mp hx with hx | hx
    · exact Literal.MadeAll.of_mem_visible h.1.2 x hx
    · exact Formula.MadeAny.of_mem_visible h.2 x hx

theorem Literal.MadeAll.of_mem_visible :
    ∀ {ls : List Literal}, Literal.MadeAll P Q ls → ∀ x ∈ Literal.visibleAll ls, Q (.var x)
  | [], _, _, hx => by cases hx
  | _ :: _, h, x, hx => by
    rcases List.mem_append.mp hx with hx | hx
    · exact Literal.Made.of_mem_visible h.1 x hx
    · exact Literal.MadeAll.of_mem_visible h.2 x hx

end

end Parts

structure ArgKind.Spelled (k : ArgKind) : Prop where
  token : ∃ t : Token, t.isSpelled ∧ t.arg? = some k
  fits : ∀ n, k = .int n → fitsWord n

namespace Script

variable {α β : Type}

/-- When a reader meets no whole number that is too large, it gives a thing with a property. -/
def Gives (p : Reader α) (Q : α → Prop) : Prop :=
  ∀ c a c', p c = some (a, c') → c'.oversized? = none → c.oversized? = none ∧ Q a

section Combinators

variable {p q : Reader α} {Q : α → Prop} {R : β → Prop} {f : α → Reader β}

theorem gives_pure {a : α} (h : Q a) : Gives (pure a) Q := by
  intro c b c' hb hnone
  cases hb
  exact ⟨hnone, h⟩

theorem Gives.imp (h : Gives p Q) {Q' : α → Prop} (hQ : ∀ a, Q a → Q' a) : Gives p Q' :=
  fun c a c' ha hnone => ⟨(h c a c' ha hnone).1, hQ a (h c a c' ha hnone).2⟩

/-- The second part tells that the first noted nothing, whatever the first gives. -/
theorem Gives.bind (h : Gives p Q) (hf : ∀ a, Gives (f a) fun b => Q a → R b) :
    Gives (p >>= f) R := by
  intro c b c' hb hnone
  rw [bind_run] at hb
  obtain ⟨x, hx, hb⟩ := Option.bind_eq_some_iff.mp hb
  obtain ⟨hmid, hR⟩ := hf x.1 x.2 b c' hb hnone
  obtain ⟨hstart, hQ⟩ := h c x.1 x.2 hx hmid
  exact ⟨hstart, hR hQ⟩

theorem Gives.after {P : α → Prop} (h : Gives p P) (hf : ∀ a, Gives (f a) R) : Gives (p >>= f) R :=
  h.bind fun a => (hf a).imp fun _ hb _ => hb

theorem Gives.map {f : α → β} (h : Gives p Q) (hf : ∀ a, Q a → R (f a)) : Gives (f <$> p) R :=
  h.bind fun a => gives_pure (hf a)

theorem Gives.orElse (h : Gives p Q) (h' : Gives q Q) : Gives (p <|> q) Q := by
  intro c a c' ha
  rw [orElse_run] at ha
  rcases Option.or_eq_some_iff.mp ha with ha | ⟨_, ha⟩
  · exact h c a c' ha
  · exact h' c a c' ha

theorem Gives.optional (h : Gives p Q) : Gives (optional p) fun a? => ∀ a ∈ a?, Q a :=
  (h.map fun a ha b hb => by cases hb; exact ha).orElse (gives_pure fun b hb => by cases hb)

theorem Gives.spanned (h : Gives p Q) : Gives (spanned p) fun a => Q a.1 := by
  intro c a c' ha
  simp only [Script.spanned] at ha
  cases hp : p c with
  | none => rw [hp] at ha; cases ha
  | some x => rw [hp] at ha; cases ha; exact h c _ _ hp

theorem Gives.several (h : Gives p Q) (n : Nat) : Gives (several p n) fun as => ∀ a ∈ as, Q a := by
  induction n with
  | zero => exact gives_pure fun a ha => by cases ha
  | succ n ih =>
    intro c as c' ha hnone
    simp only [Script.several] at ha
    cases hp : p c with
    | none =>
      rw [hp] at ha
      cases ha
      exact ⟨hnone, fun a ha => by cases ha⟩
    | some x =>
      rw [hp] at ha
      cases hs : Script.several p n x.2 with
      | none => simp [hs] at ha
      | some y =>
        simp only [hs, Option.some.injEq, Prod.mk.injEq] at ha
        obtain ⟨rfl, rfl⟩ := ha
        obtain ⟨hmid, hothers⟩ := ih x.2 y.1 y.2 hs hnone
        obtain ⟨hstart, hfirst⟩ := h c x.1 x.2 hp hmid
        exact ⟨hstart, List.forall_mem_cons.mpr ⟨hfirst, hothers⟩⟩

theorem gives_scanned {m : Scan α} (h : ∀ cs x, m cs = some x → Q x.1) : Gives (scanned m) Q := by
  intro c a c' ha hnone
  obtain ⟨x, hx, heq⟩ := Option.map_eq_some_iff.mp ha
  cases heq
  exact ⟨hnone, h _ _ hx⟩

theorem gives_blanks : Gives blanks fun _ => True := blanks_eq ▸ gives_scanned fun _ _ _ => trivial

theorem gives_exactly (s : String) : Gives (exactly s) fun _ => True :=
  exactly_eq s ▸ gives_scanned fun _ _ _ => trivial

theorem gives_keyword (s : String) : Gives (keyword s) fun _ => True :=
  keyword_eq s ▸ gives_scanned fun _ _ _ => trivial

theorem Gives.separated (h : Gives p Q) (separator : String) :
    Gives (separated separator p) fun as => as ≠ [] ∧ ∀ a ∈ as, Q a := by
  have hnext : Gives (following separator p) Q :=
    (gives_exactly separator).after fun _ => gives_blanks.after fun _ => h
  refine h.bind fun a => gives_blanks.after fun _ => hnext.optional.bind fun b? => ?_
  cases b? with
  | none => exact gives_pure fun _ ha => ⟨by simp, by simpa using ha⟩
  | some b =>
    have hothers : Gives (Script.many (do blanks; following separator p)) fun as => ∀ a ∈ as, Q a :=
      fun c => (gives_blanks.after fun _ => hnext).several c.rest.length c
    refine hothers.bind fun cs => gives_pure fun hcs hb ha => ⟨by simp, ?_⟩
    exact List.forall_mem_cons.mpr ⟨ha, List.forall_mem_cons.mpr ⟨hb b rfl, hcs⟩⟩

end Combinators

section Items

theorem gives_name : Gives name IsWord := by
  rw [name_eq]
  refine gives_scanned fun cs x hx => ?_
  obtain ⟨n, hn, rfl⟩ := Option.map_eq_some_iff.mp hx
  obtain ⟨c, ds, r, rfl, hc, hds, _, rfl⟩ := nameLength?_eq_some hn
  exact ⟨c, ds, by simp, hc, hds⟩

variable {text : String} {f : Reader Formula}

theorem Cursor.noted_eq_none {c : Cursor} {k : ArgKind} {span : Span}
    (h : (c.noted k text span).oversized? = none) :
    c.oversized? = none ∧ ∀ n, k = .int n → fitsWord n := by
  unfold Cursor.noted at h
  split at h
  · rename_i m
    split at h
    · rename_i hfits
      refine ⟨h, fun n hn => ?_⟩
      cases hn
      simpa [h] using hfits
    · cases h
  · rename_i hkind
    exact ⟨h, fun n hn => (hkind n hn).elim⟩

theorem gives_arg : Gives arg fun a => a.kind.Spelled := by
  rw [arg_eq]
  intro c a c' ha hnone
  obtain ⟨x, hx, heq⟩ := Option.map_eq_some_iff.mp ha
  obtain ⟨rfl, rfl⟩ := Prod.mk.inj heq
  obtain ⟨hstart, hfits⟩ := Cursor.noted_eq_none hnone
  obtain ⟨t, r, hrest, ht, hr, _⟩ := tokenAt_of_argScan hx
  rw [hrest, Token.argScan_text ht hr] at hx
  obtain ⟨k, hk, rfl⟩ := Option.map_eq_some_iff.mp hx
  exact ⟨hstart, ⟨t, ht, hk⟩, hfits⟩

theorem gives_arguments : Gives arguments fun as => ∀ a ∈ as, a.kind.Spelled := by
  refine (gives_exactly _).after fun _ => gives_blanks.after fun _ =>
    (gives_arg.separated ",").optional.bind fun as? =>
    gives_blanks.after fun _ => (gives_exactly _).after fun _ => gives_pure fun has => ?_
  cases as? with
  | none => exact fun a ha => by cases ha
  | some as => exact (has as rfl).2

theorem gives_call : Gives call (Call.Made IsWord ArgKind.Spelled) := by
  have hparts : Gives (do
      let n ← name
      blanks
      let args? ← optional arguments
      pure (n, args?)) fun x => IsWord x.1 ∧ ∀ as ∈ x.2, ∀ a ∈ as, a.kind.Spelled :=
    gives_name.bind fun n => gives_blanks.after fun _ => gives_arguments.optional.bind fun as? =>
      gives_pure fun has hn => ⟨hn, has⟩
  refine hparts.spanned.bind fun x => gives_pure fun hx => ⟨hx.1, ?_⟩
  cases hargs : x.1.2 with
  | none => exact fun a ha => by simp at ha
  | some as => exact fun a ha => hx.2 as hargs a (by simpa [hargs] using ha)

theorem gives_comparator : Gives comparator fun _ => True :=
  comparator_eq ▸ gives_scanned fun _ _ _ => trivial

theorem gives_comparison :
    Gives comparison fun c => c.left.kind.Spelled ∧ c.right.kind.Spelled := by
  have hparts : Gives (do
      let left ← arg
      blanks
      let op ← comparator
      blanks
      let right ← arg
      pure (left, op, right)) fun x => x.1.kind.Spelled ∧ x.2.2.kind.Spelled :=
    gives_arg.bind fun a => gives_blanks.after fun _ => gives_comparator.after fun op =>
      gives_blanks.after fun _ =>
      gives_arg.bind fun b => gives_pure fun hb ha => ⟨ha, hb⟩
  exact hparts.spanned.bind fun x => gives_pure fun hx => hx

theorem gives_group {Q : Formula → Prop} (h : Gives f Q) : Gives (group f) Q :=
  (gives_exactly _).after fun _ => gives_blanks.after fun _ => h.bind fun _ =>
    gives_blanks.after fun _ =>
    (gives_exactly _).after fun _ => gives_pure fun hg => hg

theorem gives_literal (h : Gives f (Formula.Made IsWord ArgKind.Spelled)) :
    Gives (literal f) (Literal.Made IsWord ArgKind.Spelled) := by
  have hsingle : Gives (do let c ← call; pure (Formula.mk [[.call c]] c.span))
      (Formula.Made IsWord ArgKind.Spelled) :=
    gives_call.bind fun c => gives_pure fun hc => ⟨by simp, ⟨by simp, hc, trivial⟩, trivial⟩
  have hdenied : Gives (do keyword "not"; blanks; denied f) (Formula.Made IsWord ArgKind.Spelled) :=
    (gives_keyword _).after fun _ => gives_blanks.after fun _ => (gives_group h).orElse hsingle
  refine Gives.orElse ?_ (.orElse ?_ (.orElse ?_ ?_))
  · exact hdenied.spanned.bind fun x => gives_pure fun hx => hx
  · exact gives_comparison.map fun c hc => hc
  · exact (gives_group h).map fun g hg => hg
  · exact gives_call.map fun c hc => hc

theorem gives_formulaDepth (n : Nat) :
    Gives (formulaDepth n) (Formula.Made IsWord ArgKind.Spelled) := by
  induction n with
  | zero => intro c a c' ha; cases ha
  | succ n ih =>
    have hparts := (((gives_literal ih).separated ",").separated ";").spanned
    exact hparts.bind fun x => gives_pure fun hx => ⟨hx.1, Formula.madeAny_iff.mpr hx.2⟩

theorem gives_formula : Gives formula (Formula.Made IsWord ArgKind.Spelled) :=
  fun c => gives_formulaDepth _ c

theorem gives_label : Gives label fun l => ∀ s ∈ l.alias?, IsWord s := by
  have hname : Gives (name <|> string) fun _ => True :=
    (gives_name.imp fun _ _ => trivial).orElse (string_eq ▸ gives_scanned fun _ _ _ => trivial)
  have halias : Gives aliasName IsWord := (gives_keyword _).after fun _ =>
    gives_blanks.after fun _ => gives_name
  have hparts : Gives (do
      let value ← name <|> string
      blanks
      let alias? ← optional aliasName
      pure (value, alias?)) fun x => ∀ s ∈ x.2, IsWord s :=
    hname.after fun v => gives_blanks.after fun _ => halias.optional.bind fun a? =>
      gives_pure fun ha => ha
  exact hparts.spanned.bind fun x => gives_pure fun hx => hx

theorem gives_labelDecl : Gives labelDecl (Item.Made IsWord ArgKind.Spelled) := by
  have hkind : Gives labelKind fun _ => True :=
    ((gives_keyword _).after fun _ => gives_pure trivial).orElse ((gives_keyword _).after fun _ =>
      gives_pure trivial)
  have hparts : Gives (do
      let kind ← labelKind
      blanks
      keyword "labels"
      blanks
      exactly ":"
      blanks
      let labels ← separated "," label
      blanks
      exactly "."
      pure (kind, labels)) fun x => x.2 ≠ [] ∧ ∀ l ∈ x.2, ∀ s ∈ l.alias?, IsWord s :=
    hkind.after fun k => gives_blanks.after fun _ => (gives_keyword _).after fun _ =>
      gives_blanks.after fun _ =>
      (gives_exactly _).after fun _ => gives_blanks.after fun _ =>
        (gives_label.separated ",").bind fun ls =>
      gives_blanks.after fun _ => (gives_exactly _).after fun _ => gives_pure fun hls => hls
  exact hparts.spanned.bind fun x => gives_pure fun hx => hx

theorem gives_query : Gives query (Item.Made IsWord ArgKind.Spelled) := by
  have hparts : Gives (do
      keyword "query"
      blanks
      let n ← spanned name
      blanks
      exactly ":"
      blanks
      let body ← formula
      blanks
      exactly "."
      pure (n, body)) fun x => IsWord x.1.1 ∧ x.2.Made IsWord ArgKind.Spelled :=
    (gives_keyword _).after fun _ => gives_blanks.after fun _ => gives_name.spanned.bind fun n =>
      gives_blanks.after fun _ => (gives_exactly _).after fun _ => gives_blanks.after fun _ =>
        gives_formula.bind fun f =>
      gives_blanks.after fun _ => (gives_exactly _).after fun _ => gives_pure fun hf hn => ⟨hn, hf⟩
  exact hparts.spanned.bind fun x => gives_pure fun hx => hx

theorem gives_rule : Gives rule (Item.Made IsWord ArgKind.Spelled) := by
  have hcondition : Gives antecedent (Formula.Made IsWord ArgKind.Spelled) :=
    gives_formula.bind fun f => gives_blanks.after fun _ => (gives_exactly _).after fun _ =>
      gives_pure fun hf => hf
  have hparts : Gives (do
      let antecedent? ← optional antecedent
      blanks
      let consequence ← separated "," call
      blanks
      exactly "."
      pure (antecedent?, consequence)) fun x => (∀ f ∈ x.1, f.Made IsWord ArgKind.Spelled) ∧
        x.2 ≠ [] ∧ ∀ c ∈ x.2, c.Made IsWord ArgKind.Spelled :=
    hcondition.optional.bind fun f? => gives_blanks.after fun _ =>
      (gives_call.separated ",").bind fun cs =>
      gives_blanks.after fun _ => (gives_exactly _).after fun _ =>
        gives_pure fun hcs hf => ⟨hf, hcs⟩
  exact hparts.spanned.bind fun x => gives_pure fun hx => hx

theorem gives_item : Gives item (Item.Made IsWord ArgKind.Spelled) :=
  gives_labelDecl.orElse (gives_query.orElse gives_rule)

theorem yields_statement_made :
    Yields statement fun s => ∀ i, s = .item i → i.Made IsWord ArgKind.Spelled := by
  intro c s c' hs i hi
  subst hi
  obtain ⟨hitem, hnone⟩ := item_of_statement hs
  exact (gives_item _ _ _ hitem hnone).2

theorem made_of_parse {s : Script} (h : parse text = .ok s) :
    ∀ i ∈ s.items, i.Made IsWord ArgKind.Spelled := by
  intro i hi
  rw [(parse_eq_ok h).2] at hi
  obtain ⟨st, hst, hsome⟩ := List.mem_filterMap.mp hi
  have heq : st = .item i := by
    cases st with
    | item j => cases hsome; rfl
    | oversized _ _ => cases hsome
    | malformed _ _ => cases hsome
  have hmany : Yields (many nextStatement) _ := (Yields.after fun _ => yields_statement_made).many
  rw [statements_eq, statementsAt] at hst
  split at hst
  · rename_i hss
    exact hmany _ _ _ hss st hst i heq
  · cases hst

end Items

end Script

end GraphRules
