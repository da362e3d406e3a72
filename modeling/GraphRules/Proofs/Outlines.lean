import GraphRules.Proofs.Statements
import Mathlib.Data.List.DropRight

/-! Outlines of constructs. A construct takes a stretch of the text, and what it is made of takes
stretches inside it, one after another. Readers go from left to right, so each adds its outline
after those that are already laid. -/
namespace GraphRules

structure Span.Covers (s : Span) (before inside : List Char) : Prop where
  start : s.start = (String.ofList before).utf8ByteSize
  stop : s.stop = (String.ofList (before ++ inside)).utf8ByteSize
  line : s.line = 1 + before.count '\n'
  column : s.column = 1 + (before.rtakeWhile fun c => c ≠ '\n').length
  nonempty : inside ≠ []

def Span.Of (text : List Char) (s : Span) : Prop :=
  ∃ before inside after, text = before ++ inside ++ after ∧ s.Covers before inside

inductive Outline where
  | node (span : Span) (parts : List Outline)

namespace Outline

def span : Outline → Span
  | node s _ => s

/-- Spans with a property, those of parts inside that of the whole and one after another. -/
inductive Nested (P : Span → Prop) : Outline → Prop
  | node {s : Span} {parts : List Outline} (hspan : P s)
      (hinside : ∀ o ∈ parts, s.start ≤ o.span.start ∧ o.span.stop ≤ s.stop)
      (hapart : parts.Pairwise fun o o' => o.span.stop ≤ o'.span.start)
      (hparts : ∀ o ∈ parts, o.Nested P) : Nested P (.node s parts)

structure Row (P : Span → Prop) (low high : Nat) (os : List Outline) : Prop where
  inside : ∀ o ∈ os, low ≤ o.span.start ∧ o.span.stop ≤ high
  apart : os.Pairwise fun o o' => o.span.stop ≤ o'.span.start
  nested : ∀ o ∈ os, o.Nested P

variable {P : Span → Prop} {low middle high : Nat} {os : List Outline} {o : Outline}

theorem row_nil : Row P low high [] := ⟨List.forall_mem_nil _, .nil, List.forall_mem_nil _⟩

theorem Row.widen (h : Row P low middle os) (hhigh : middle ≤ high) : Row P low high os :=
  ⟨fun o ho => ⟨(h.inside o ho).1, Nat.le_trans (h.inside o ho).2 hhigh⟩, h.apart, h.nested⟩

theorem Row.concat (h : Row P low middle os) (ho : o.Nested P) (hlow : low ≤ middle)
    (hstart : middle ≤ o.span.start) (hstop : o.span.stop ≤ high) (hhigh : middle ≤ high) :
    Row P low high (os ++ [o]) where
  inside := List.forall_mem_append.mpr
    ⟨(h.widen hhigh).inside, List.forall_mem_singleton.mpr ⟨Nat.le_trans hlow hstart, hstop⟩⟩
  apart := by
    refine List.pairwise_append.mpr ⟨h.apart, List.pairwise_singleton .., fun o' ho' => ?_⟩
    exact List.forall_mem_singleton.mpr (Nat.le_trans (h.inside o' ho').2 hstart)
  nested := List.forall_mem_append.mpr ⟨h.nested, List.forall_mem_singleton.mpr ho⟩

theorem Nested.span (h : o.Nested P) : P o.span := by
  cases h with
  | node hspan _ _ _ => exact hspan

theorem Row.around (h : Row P low high [o]) : Row P low high [.node o.span [o]] := by
  have hnested : o.Nested P := h.nested o (List.mem_singleton_self o)
  refine ⟨List.forall_mem_singleton.mpr (h.inside o (List.mem_singleton_self o)),
    List.pairwise_singleton .., ?_⟩
  refine List.forall_mem_singleton.mpr (.node hnested.span ?_ (List.pairwise_singleton ..) ?_)
  · exact List.forall_mem_singleton.mpr ⟨Nat.le_refl _, Nat.le_refl _⟩
  · exact List.forall_mem_singleton.mpr hnested

end Outline

def Arg.outline (a : Arg) : Outline := .node a.span []

def Call.outline (c : Call) : Outline := .node c.span (c.args.map Arg.outline)

def Comparison.outline (c : Comparison) : Outline := .node c.span [c.left.outline, c.right.outline]

mutual

def Literal.outline : Literal → Outline
  | .call c => c.outline
  | .negated f s => .node s [f.outline]
  | .compare c => c.outline
  | .group f => f.outline

def Formula.outline : Formula → Outline
  | .mk ds s => .node s (Formula.outlinesAny ds)

def Formula.outlinesAny : List (List Literal) → List Outline
  | [] => []
  | c :: cs => Literal.outlinesAll c ++ Formula.outlinesAny cs

def Literal.outlinesAll : List Literal → List Outline
  | [] => []
  | l :: ls => l.outline :: Literal.outlinesAll ls

end

theorem Literal.outlinesAll_eq (ls : List Literal) :
    Literal.outlinesAll ls = ls.flatMap fun l => [l.outline] := by
  induction ls with
  | nil => rfl
  | cons l ls ih => rw [Literal.outlinesAll, ih, List.flatMap_cons, List.singleton_append]

theorem Formula.outlinesAny_eq (ds : List (List Literal)) :
    Formula.outlinesAny ds = ds.flatMap Literal.outlinesAll := by
  induction ds with
  | nil => rfl
  | cons c cs ih => rw [Formula.outlinesAny, ih, List.flatMap_cons]

def Label.outline (l : Label) : Outline := .node l.span []

def Item.outline : Item → Outline
  | .labels d => .node d.span (d.labels.map Label.outline)
  | .rule d =>
    .node d.span (d.antecedent?.toList.map Formula.outline ++ d.consequence.map Call.outline)
  | .query d => .node d.span [.node d.nameSpan [], d.body.outline]

theorem Item.span_outline (i : Item) : i.outline.span = i.span := by
  cases i <;> rfl

theorem Place.foldl_next_column (cs : List Char) :
    (cs.foldl Place.next {}).column = 1 + (cs.rtakeWhile fun c => c ≠ '\n').length := by
  induction cs using List.reverseRecOn with
  | nil => rfl
  | append_singleton cs c ih =>
    rw [List.foldl_append, List.foldl_cons, List.foldl_nil, Place.next]
    by_cases h : c = '\n'
    · simp [h]
    · simp [h, ih]
      omega

theorem Place.offset_lt_next (p : Place) (c : Char) : p.offset < (p.next c).offset := by
  unfold Place.next
  split
  · exact Nat.lt_succ_self _
  · exact Nat.lt_add_of_pos_right c.utf8Size_pos

namespace Script

open Outline (Row row_nil)

def Cursor.After (text before : List Char) (c : Cursor) : Prop :=
  text = before ++ c.rest ∧ c.place = before.foldl Place.next {}

section After

variable {text before before' : List Char} {c c' : Cursor}

theorem Cursor.After.advance (h : c.After text before) (n : Nat) :
    (c.advance n).After text (before ++ c.rest.take n) := by
  refine ⟨?_, ?_⟩
  · rw [h.1, List.append_assoc]
    exact congrArg _ (List.take_append_drop n c.rest).symm
  · rw [List.foldl_append, ← h.2]
    rfl

theorem Cursor.After.offset (h : c.After text before) :
    c.place.offset = (String.ofList before).utf8ByteSize := by
  rw [h.2, Place.foldl_next_offset, Nat.zero_add]

theorem Cursor.offset_lt_advance {n : Nat} (hn : TokenAt c.rest n) :
    c.place.offset < (c.advance n).place.offset := by
  obtain ⟨x, xs, hrest, -, -⟩ := hn.exists_start
  obtain ⟨j, rfl⟩ : ∃ j, n = j + 1 := ⟨n - 1, (Nat.succ_pred_eq_of_pos (length_of_tokenAt hn)).symm⟩
  rw [Cursor.advance, hrest, List.take_succ_cons, List.foldl_cons, Place.foldl_next_offset]
  exact Nat.lt_of_lt_of_le (c.place.offset_lt_next x) (Nat.le_add_right ..)

/-- From one cursor to a later one there is a stretch of text, and the span between them covers it.
-/
theorem Cursor.After.exists_between (h : c.After text before) (h' : c'.After text before')
    (hlt : c.place.offset < c'.place.offset) :
    ∃ inside, before' = before ++ inside ∧ c.rest = inside ++ c'.rest ∧
      (Span.between c.place c'.place).Covers before inside := by
  have hsizes := hlt
  rw [h.offset, h'.offset] at hsizes
  rcases List.append_eq_append_iff.mp (h.1.symm.trans h'.1) with
    ⟨inside, rfl, hrest⟩ | ⟨inside, rfl, -⟩
  · refine ⟨inside, rfl, hrest, h.offset, h'.offset, ?_, ?_, ?_⟩
    · rw [Span.between, h.2, Place.foldl_next_line]
    · rw [Span.between, h.2, Place.foldl_next_column]
    · rintro rfl
      rw [List.append_nil] at hsizes
      exact Nat.lt_irrefl _ hsizes
  · rw [String.ofList_append, String.utf8ByteSize_append] at hsizes
    omega

end After

structure Laid (text : List Char) (low k : Nat) (os : List Outline) (c : Cursor) : Prop where
  stands : ∃ before, c.After text before
  passed : low + k ≤ c.place.offset
  row : Row (Span.Of text) low c.place.offset os

section Laid

variable {text : List Char} {low k : Nat} {os parts : List Outline} {c c' : Cursor}

theorem Laid.weaken {j : Nat} (h : Laid text low k os c) (hj : j ≤ k) : Laid text low j os c :=
  ⟨h.stands, Nat.le_trans (Nat.add_le_add_left hj low) h.passed, h.row⟩

theorem Laid.congr (h : Laid text low k os c) (hrest : c'.rest = c.rest)
    (hplace : c'.place = c.place) : Laid text low k os c' := by
  obtain ⟨before, htext, hbefore⟩ := h.stands
  have hafter : c'.After text before := ⟨by rw [htext, hrest], hplace.trans hbefore⟩
  exact ⟨⟨before, hafter⟩, hplace ▸ h.passed, hplace ▸ h.row⟩

theorem Laid.start (h : Laid text low k os c) : Laid text c.place.offset 0 [] c :=
  ⟨h.stands, Nat.le_refl _, row_nil⟩

theorem Laid.advance (h : Laid text low k os c) (n : Nat) : Laid text low k os (c.advance n) := by
  obtain ⟨before, hbefore⟩ := h.stands
  have hle := c.offset_advance n
  exact ⟨⟨_, hbefore.advance n⟩, Nat.le_trans h.passed hle, h.row.widen hle⟩

theorem Laid.advance_token {n : Nat} (h : Laid text low k os c) (hn : TokenAt c.rest n) :
    Laid text low (k + 1) os (c.advance n) := by
  have hadvance := h.advance n
  have hpassed := h.passed
  have hlt := Cursor.offset_lt_advance hn
  exact ⟨hadvance.stands, by omega, hadvance.row⟩

/-- A construct is laid after what stands before it, once its parts are laid. -/
theorem Laid.node (h : Laid text low k os c) (hparts : Laid text c.place.offset 1 parts c') :
    Laid text low (k + 1) (os ++ [.node (.between c.place c'.place) parts]) c' := by
  obtain ⟨before, hbefore⟩ := h.stands
  obtain ⟨before', hbefore'⟩ := hparts.stands
  have hlow := h.passed
  have hhigh := hparts.passed
  obtain ⟨inside, rfl, -, hcovers⟩ := hbefore.exists_between hbefore' hhigh
  have hnested : (Outline.node (.between c.place c'.place) parts).Nested (Span.Of text) :=
    .node ⟨before, inside, c'.rest, hbefore'.1,
      hcovers⟩ hparts.row.inside hparts.row.apart hparts.row.nested
  refine ⟨hparts.stands, by omega,
    h.row.concat hnested (by omega) (Nat.le_refl _) (Nat.le_refl _) (by omega)⟩

end Laid

variable {α β : Type}

def Lays (text : List Char) (k : Nat) (os : List Outline) (p : Reader α) (j : Nat)
    (f : α → List Outline) : Prop :=
  ∀ low c a c', p c = some (a, c') → Laid text low k os c → Laid text low j (f a) c'

def Draws (text : List Char) (p : Reader α) (f : α → List Outline) : Prop :=
  ∀ k os, Lays text k os p (k + 1) fun a => os ++ f a

section Combinators

variable {text : List Char} {i j k : Nat} {os : List Outline} {p q : Reader α}
  {f g : α → List Outline} {f' : β → List Outline}

theorem lays_pure {a : α} (h : f a = os) : Lays text k os (pure a) k f := by
  intro low c b c' hb hc
  cases hb
  exact h ▸ hc

theorem Lays.weaken (h : Lays text k os p j f) (hi : i ≤ j) : Lays text k os p i f :=
  fun low c a c' ha hc => (h low c a c' ha hc).weaken hi

theorem Lays.bind {r : α → Reader β} (h : Lays text k os p j f)
    (hr : ∀ a, Lays text j (f a) (r a) i f') : Lays text k os (p >>= r) i f' := by
  intro low c b c' hb hc
  rw [bind_run] at hb
  obtain ⟨x, hx, hb⟩ := Option.bind_eq_some_iff.mp hb
  exact hr x.1 low x.2 b c' hb (h low c x.1 x.2 hx hc)

theorem Lays.map {r : α → β} (h : Lays text k os p j f) (hr : ∀ a, f' (r a) = f a) :
    Lays text k os (r <$> p) j f' :=
  h.bind fun a => lays_pure (hr a)

theorem Lays.orElse (h : Lays text k os p j f) (h' : Lays text k os q j f) :
    Lays text k os (p <|> q) j f := by
  intro low c a c' ha
  rw [orElse_run] at ha
  rcases Option.or_eq_some_iff.mp ha with ha | ⟨_, ha⟩
  · exact h low c a c' ha
  · exact h' low c a c' ha

theorem Lays.optional {f : Option α → List Outline} (h : Lays text k os p j fun a => f (some a))
    (hk : k ≤ j) (hnone : f none = os) : Lays text k os (optional p) k f :=
  ((h.weaken hk).map fun _ => rfl).orElse (lays_pure hnone)

theorem lays_scanned (m : Scan α) : Lays text k os (scanned m) k fun _ => os := by
  intro low c a c' ha hc
  obtain ⟨x, _, heq⟩ := Option.map_eq_some_iff.mp ha
  cases heq
  exact hc.advance _

theorem lays_token {m : Scan α} (hm : ∀ cs x, m cs = some x → TokenAt cs x.2) :
    Lays text k os (scanned m) (k + 1) fun _ => os := by
  intro low c a c' ha hc
  obtain ⟨x, hx, heq⟩ := Option.map_eq_some_iff.mp ha
  cases heq
  exact hc.advance_token (hm _ _ hx)

theorem lays_blanks : Lays text k os blanks k fun _ => os := blanks_eq ▸ lays_scanned _

theorem lays_exactly (s : String) : Lays text k os (exactly s) k fun _ => os :=
  exactly_eq s ▸ lays_scanned _

theorem lays_keyword (s : String) : Lays text k os (keyword s) k fun _ => os :=
  keyword_eq s ▸ lays_scanned _

theorem lays_name : Lays text k os name (k + 1) fun _ => os :=
  name_eq ▸ lays_token fun _ _ => tokenAt_of_nameScan

theorem lays_string : Lays text k os string (k + 1) fun _ => os :=
  string_eq ▸ lays_token fun _ _ => tokenAt_of_quotedScan

/-- A part with its span is drawn around what it lays from its start on. -/
theorem Lays.spanned (h : Lays text 0 [] p 1 f) :
    Draws text (spanned p) fun x => [.node x.2 (f x.1)] := by
  intro k os low c a c' ha hc
  unfold Script.spanned at ha
  cases hp : p c with
  | none => simp [hp] at ha
  | some x =>
    simp only [hp, Option.some.injEq] at ha
    cases ha
    exact hc.node (h _ _ _ _ hp hc.start)

theorem Lays.several (h : ∀ os, Lays text k os p k fun a => os ++ f a) (n : Nat)
    (os : List Outline) : Lays text k os (several p n) k fun as => os ++ as.flatMap f := by
  induction n generalizing os with
  | zero => exact lays_pure (by simp)
  | succ n ih =>
    intro low c as c' ha hc
    simp only [Script.several] at ha
    cases hp : p c with
    | none =>
      simp only [hp, Option.some.injEq] at ha
      cases ha
      simpa using hc
    | some x =>
      rw [hp] at ha
      cases hs : Script.several p n x.2 with
      | none => simp [hs] at ha
      | some y =>
        simp only [hs, Option.some.injEq, Prod.mk.injEq] at ha
        obtain ⟨rfl, rfl⟩ := ha
        have hfirst := h os low c x.1 x.2 hp hc
        simpa using ih (os ++ f x.1) low x.2 y.1 y.2 hs hfirst

theorem Draws.separated (h : Draws text p f) (separator : String) :
    Draws text (separated separator p) (List.flatMap f) := by
  intro k os
  have hnext : ∀ os, Lays text (k + 1) os (following separator p) (k + 1) fun a =>
    os ++ f a := fun os =>
    (lays_exactly separator).bind fun _ => lays_blanks.bind fun _ =>
      (h (k + 1) os).weaken (Nat.le_succ _)
  have hothers : ∀ os, Lays text (k + 1) os (many (do blanks; following separator p)) (k + 1)
      fun as => os ++ as.flatMap f :=
        fun os low c =>
          Lays.several (fun os => lays_blanks.bind fun _ => hnext os) c.rest.length os low c
  refine (h k os).bind fun a => lays_blanks.bind fun _ => ?_
  have hsecond : Lays text (k + 1) (os ++ f a) (optional (following separator p)) (k + 1)
      fun b? => os ++ f a ++ b?.toList.flatMap f :=
    Lays.optional (by simpa using hnext (os ++ f a)) (Nat.le_refl _) (by simp)
  refine hsecond.bind fun b? => ?_
  cases b? with
  | none => exact lays_pure (by simp)
  | some b => exact (hothers _).bind fun cs => lays_pure (by simp)

end Combinators

section Items

variable {text : List Char}

theorem draws_arg : Draws text arg fun a => [a.outline] := by
  intro k os low c a c' ha hc
  rw [arg_eq] at ha
  obtain ⟨x, hx, heq⟩ := Option.map_eq_some_iff.mp ha
  obtain ⟨rfl, rfl⟩ := Prod.mk.inj heq
  have hpassed := hc.start.advance_token (tokenAt_of_argScan hx)
  refine (hc.node hpassed).congr (Respected.rest_noted ..) ?_
  unfold Cursor.noted
  repeat' split
  all_goals rfl

theorem lays_arguments {k : Nat} {os : List Outline} :
    Lays text k os arguments k fun as => os ++ as.map Arg.outline := by
  have hargs : Lays text k os (optional (separated "," arg)) k fun as? =>
    os ++ (as?.getD []).map Arg.outline := by
    refine Lays.optional (j := k + 1) ?_ (Nat.le_succ _) (by simp)
    simpa [← List.map_eq_flatMap] using draws_arg.separated "," k os
  exact (lays_exactly _).bind fun _ => lays_blanks.bind fun _ => hargs.bind fun as? =>
    lays_blanks.bind fun _ =>
    (lays_exactly _).bind fun _ => lays_pure rfl

theorem draws_call : Draws text call fun c => [c.outline] := by
  have hlist : Lays text 1 [] arguments 1 fun as => [] ++ as.map Arg.outline := lays_arguments
  have hargs : Lays text 1 [] (optional arguments) 1 fun as? => (as?.getD []).map Arg.outline :=
    Lays.optional hlist (Nat.le_refl _) rfl
  have hparts : Lays text 0 [] (do
      let n ← name
      blanks
      let args? ← optional arguments
      pure (n, args?)) 1 fun x => (x.2.getD []).map Arg.outline :=
    lays_name.bind fun n => lays_blanks.bind fun _ => hargs.bind fun as? => lays_pure rfl
  exact fun k os => (hparts.spanned k os).bind fun x => lays_pure rfl

theorem draws_comparison : Draws text comparison fun c => [c.outline] := by
  have hparts : Lays text 0 [] (do
      let left ← arg
      blanks
      let op ← comparator
      blanks
      let right ← arg
      pure (left, op, right)) 2 fun x => [x.1.outline, x.2.2.outline] :=
    (draws_arg 0 []).bind fun a => lays_blanks.bind fun _ =>
      (show Lays text 1 [a.outline] comparator 1 fun _ => [a.outline]
        from comparator_eq ▸ lays_scanned _).bind fun op =>
      lays_blanks.bind fun _ => (draws_arg 1 [a.outline]).bind fun b => lays_pure rfl
  exact fun k os => ((hparts.weaken (Nat.le_succ 1)).spanned k os).bind fun x => lays_pure rfl

variable {p : Reader Formula}

theorem draws_group (h : Draws text p fun f => [f.outline]) :
    Draws text (group p) fun f => [f.outline] := fun k os =>
  (lays_exactly _).bind fun _ => lays_blanks.bind fun _ => (h k os).bind fun _ =>
    lays_blanks.bind fun _ =>
    (lays_exactly _).bind fun _ => lays_pure rfl

/-- A denied predicate is a formula with the span of its only literal. -/
theorem lays_denied (h : Draws text p fun f => [f.outline]) :
    Lays text 0 [] (denied p) 1 fun f => [f.outline] := by
  refine (draws_group h 0 []).orElse ?_
  intro low c f c' hf hc
  rw [bind_run] at hf
  obtain ⟨x, hx, hf⟩ := Option.bind_eq_some_iff.mp hf
  cases hf
  have hcall := draws_call 0 [] low c x.1 x.2 hx hc
  exact ⟨hcall.stands, hcall.passed, hcall.row.around⟩

theorem draws_literal (h : Draws text p fun f => [f.outline]) :
    Draws text (literal p) fun l => [l.outline] := by
  have hdenied : Lays text 0 [] (do keyword "not"; blanks; denied p) 1 fun f => [f.outline] :=
    (lays_keyword _).bind fun _ => lays_blanks.bind fun _ => lays_denied h
  intro k os
  refine Lays.orElse ?_ (.orElse ?_ (.orElse ?_ ?_))
  · exact (hdenied.spanned k os).bind fun x => lays_pure rfl
  · exact (draws_comparison k os).map fun _ => rfl
  · exact (draws_group h k os).map fun _ => rfl
  · exact (draws_call k os).map fun _ => rfl

theorem draws_formulaDepth (n : Nat) : Draws text (formulaDepth n) fun f => [f.outline] := by
  induction n with
  | zero => intro k os low c a c' ha; cases ha
  | succ n ih =>
    have hparts := (((draws_literal ih).separated ",").separated ";" 0 []).spanned
    refine fun k os => (hparts k os).bind fun x => lays_pure ?_
    simp [Formula.outline, Formula.outlinesAny_eq, funext Literal.outlinesAll_eq, List.flatMap]

theorem draws_formula : Draws text formula fun f => [f.outline] :=
  fun k os low c => draws_formulaDepth _ k os low c

theorem draws_label : Draws text label fun l => [l.outline] := by
  have hparts : Lays text 0 [] (do
      let value ← name <|> string
      blanks
      let alias? ← optional aliasName
      pure (value, alias?)) 1 fun _ => [] := by
    have halias : Lays text 1 [] aliasName 2 fun _ => [] :=
      (lays_keyword _).bind fun _ => lays_blanks.bind fun _ => lays_name
    have hoptional : Lays text 1 [] (optional aliasName) 1 fun _ => [] :=
      halias.optional (Nat.le_succ 1) rfl
    exact (lays_name.orElse lays_string).bind fun v => lays_blanks.bind fun _ =>
      hoptional.bind fun a? => lays_pure rfl
  exact fun k os => (hparts.spanned k os).bind fun x => lays_pure rfl

theorem draws_labelDecl : Draws text labelDecl fun i => [i.outline] := by
  have hword : ∀ s (k : LabelKind), Lays text 0 [] (keyword s *> pure k) 0 fun _ => [] := fun s k =>
    (lays_keyword s).bind fun _ => lays_pure rfl
  have hkind : Lays text 0 [] labelKind 0 fun _ => [] := (hword _ _).orElse (hword _ _)
  have hlabels : Lays text 0 [] (separated "," label) 1 fun ls => ls.map Label.outline := by
    simpa [← List.map_eq_flatMap] using draws_label.separated "," 0 []
  have hparts : Lays text 0 [] (do
      let kind ← labelKind
      blanks
      keyword "labels"
      blanks
      exactly ":"
      blanks
      let labels ← separated "," label
      blanks
      exactly "."
      pure (kind, labels)) 1 fun x => x.2.map Label.outline :=
    hkind.bind fun k => lays_blanks.bind fun _ => (lays_keyword _).bind fun _ =>
      lays_blanks.bind fun _ =>
      (lays_exactly _).bind fun _ => lays_blanks.bind fun _ => hlabels.bind fun ls =>
        lays_blanks.bind fun _ =>
      (lays_exactly _).bind fun _ => lays_pure rfl
  exact fun k os => (hparts.spanned k os).bind fun x => lays_pure rfl

theorem draws_query : Draws text query fun i => [i.outline] := by
  have hname : Draws text (spanned name) fun n => [.node n.2 []] := lays_name.spanned
  have hparts : Lays text 0 [] (do
      keyword "query"
      blanks
      let n ← spanned name
      blanks
      exactly ":"
      blanks
      let body ← formula
      blanks
      exactly "."
      pure (n, body)) 2 fun x => [.node x.1.2 [], x.2.outline] :=
    (lays_keyword _).bind fun _ => lays_blanks.bind fun _ => (hname 0 []).bind fun n =>
      lays_blanks.bind fun _ =>
      (lays_exactly _).bind fun _ => lays_blanks.bind fun _ => (draws_formula 1 _).bind fun f =>
        lays_blanks.bind fun _ =>
      (lays_exactly _).bind fun _ => lays_pure rfl
  exact fun k os => ((hparts.weaken (Nat.le_succ 1)).spanned k os).bind fun x => lays_pure rfl

theorem draws_rule : Draws text rule fun i => [i.outline] := by
  have hantecedent : Lays text 0 [] antecedent 1 fun f => [f.outline] :=
    (draws_formula 0 []).bind fun f => lays_blanks.bind fun _ =>
      (lays_exactly _).bind fun _ => lays_pure rfl
  have hoptional : Lays text 0 [] (optional antecedent) 0 fun f? => f?.toList.map Formula.outline :=
    Lays.optional (by simpa using hantecedent) (Nat.zero_le 1) rfl
  have hconsequence : ∀ os, Lays text 0 os (separated "," call) 1 fun cs =>
    os ++ cs.map Call.outline := fun os => by
    simpa [← List.map_eq_flatMap] using draws_call.separated "," 0 os
  have hparts : Lays text 0 [] (do
      let antecedent? ← optional antecedent
      blanks
      let consequence ← separated "," call
      blanks
      exactly "."
      pure (antecedent?, consequence)) 1 fun x =>
        x.1.toList.map Formula.outline ++ x.2.map Call.outline :=
    hoptional.bind fun f? => lays_blanks.bind fun _ => (hconsequence _).bind fun cs =>
      lays_blanks.bind fun _ =>
      (lays_exactly _).bind fun _ => lays_pure rfl
  exact fun k os => (hparts.spanned k os).bind fun x => lays_pure rfl

theorem draws_item : Draws text item fun i => [i.outline] := fun k os =>
  (draws_labelDecl k os).orElse ((draws_query k os).orElse (draws_rule k os))

end Items

end Script

end GraphRules
