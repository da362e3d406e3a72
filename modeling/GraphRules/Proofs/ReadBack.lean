import GraphRules.Proofs.Statements

/-! Readers on texts that are known. A reader reads a text up to another one if it ends before that
one, blanks aside; texts of parts with separators between them are read part by part. -/
namespace GraphRules.Script

variable {α β : Type} {cs : List Char}

def skip (cs : List Char) : List Char := cs.drop (blankLength cs)

theorem skip_start {x : Char} (h : isGapStart x = false) : skip (x :: cs) = x :: cs := by
  rw [skip, blankLength_start h, List.drop_zero]

theorem skip_space (cs : List Char) : skip (' ' :: cs) = skip cs := by simp [skip, blankLength]

theorem length_skip_le (cs : List Char) : (skip cs).length ≤ cs.length := by
  rw [skip, List.length_drop]
  omega

def Reads (p : Reader α) (s t : List Char) (Q : α → Prop) : Prop :=
  ∀ c : Cursor, c.rest = s → ∃ a c', p c = some (a, c') ∧ skip c'.rest = t ∧
    c'.oversized? = c.oversized? ∧ Q a

def Resumes (p : Reader α) (s t : List Char) (Q : α → Prop) : Prop :=
  ∀ c : Cursor, skip c.rest = s → ∃ a c', p c = some (a, c') ∧ skip c'.rest = t ∧
    c'.oversized? = c.oversized? ∧ Q a

def Fails (p : Reader α) (s : List Char) : Prop := ∀ c : Cursor, c.rest = s → p c = none

section Combinators

variable {p q : Reader α} {s t u : List Char} {Q : α → Prop} {R : β → Prop} {mark : String}

theorem Reads.imp (h : Reads p s t Q) {Q' : α → Prop} (hQ : ∀ a, Q a → Q' a) : Reads p s t Q' := by
  intro c hc
  obtain ⟨a, c', hp, hrest, hover, ha⟩ := h c hc
  exact ⟨a, c', hp, hrest, hover, hQ a ha⟩

theorem Reads.bind (h : Reads p s t Q) {f : α → Reader β} (hf : ∀ a, Q a → Resumes (f a) t u R) :
    Reads (p >>= f) s u R := by
  intro c hc
  obtain ⟨a, c', hp, hrest, hover, ha⟩ := h c hc
  obtain ⟨b, c'', hb, hrest', hover', hR⟩ := hf a ha c' hrest
  refine ⟨b, c'', ?_, hrest', hover'.trans hover, hR⟩
  rw [bind_run, hp]
  exact hb

theorem Reads.resumes (h : Reads p s t Q) : Resumes (blanks >>= fun _ => p) s t Q := by
  intro c hc
  exact h (c.advance (blankLength c.rest)) hc

theorem resumes_pure {a : α} (h : Q a) : Resumes (pure a) s s Q :=
  fun c hc => ⟨a, c, rfl, hc, rfl, h⟩

theorem Reads.next (h : Reads p s t Q) {f : α → Reader β} (hf : ∀ a, Q a → Reads (f a) t u R) :
    Reads (p >>= fun a => blanks >>= fun _ => f a) s u R :=
  h.bind fun a ha => (hf a ha).resumes

theorem Reads.give (h : Reads p s t Q) {f : α → β} (hf : ∀ a, Q a → R (f a)) :
    Reads (p >>= fun a => pure (f a)) s t R :=
  h.bind fun a ha => resumes_pure (hf a ha)

theorem Reads.map (h : Reads p s t Q) {f : α → β} (hf : ∀ a, Q a → R (f a)) :
    Reads (f <$> p) s t R := by
  intro c hc
  obtain ⟨a, c', hp, hrest, hover, ha⟩ := h c hc
  exact ⟨f a, c', by rw [map_run, hp]; rfl, hrest, hover, hf a ha⟩

theorem Reads.spanned (h : Reads p s t Q) : Reads (spanned p) s t fun a => Q a.1 := by
  intro c hc
  obtain ⟨a, c', hp, hrest, hover, ha⟩ := h c hc
  exact ⟨(a, Span.between c.place c'.place), c', by simp [Script.spanned, hp], hrest, hover, ha⟩

theorem Reads.optional (h : Reads p s t Q) :
    Reads (optional p) s t fun a? => ∃ a, a? = some a ∧ Q a := by
  intro c hc
  obtain ⟨a, c', hp, hrest, hover, ha⟩ := h c hc
  refine ⟨some a, c', ?_, hrest, hover, a, rfl, ha⟩
  change (some <$> p <|> pure none : Reader (Option α)) c = _
  rw [orElse_run, map_run, hp]
  rfl

theorem Fails.optional (h : Fails p s) (hs : skip s = t) :
    Reads (optional p) s t fun a? => a? = none := by
  intro c hc
  refine ⟨none, c, ?_, by rw [hc, hs], rfl, rfl⟩
  change (some <$> p <|> pure none : Reader (Option α)) c = _
  rw [orElse_run, map_run, h c hc]
  rfl

theorem Reads.orElse (h : Reads p s t Q) (q : Reader α) : Reads (p <|> q) s t Q := by
  intro c hc
  obtain ⟨a, c', hp, hrest⟩ := h c hc
  exact ⟨a, c', by rw [orElse_run, hp]; rfl, hrest⟩

theorem Fails.orElse (h : Fails p s) (hq : Reads q s t Q) : Reads (p <|> q) s t Q := by
  intro c hc
  obtain ⟨a, c', hp, hrest⟩ := hq c hc
  exact ⟨a, c', by rw [orElse_run, h c hc, hp]; rfl, hrest⟩

theorem Fails.both (h : Fails p s) (hq : Fails q s) : Fails (p <|> q) s := by
  intro c hc
  rw [orElse_run, h c hc, hq c hc]
  rfl

theorem Fails.bind (h : Fails p s) (f : α → Reader β) : Fails (p >>= f) s := by
  intro c hc
  rw [bind_run, h c hc]
  rfl

theorem Fails.map (h : Fails p s) (f : α → β) : Fails (f <$> p) s := by
  intro c hc
  rw [map_run, h c hc]
  rfl

theorem Fails.spanned (h : Fails p s) : Fails (spanned p) s := by
  intro c hc
  simp [Script.spanned, h c hc]

theorem Reads.stop (h : Reads p s t Q) {f : α → Reader β} (hf : ∀ a, Q a → Fails (f a) t) :
    Fails (p >>= fun a => blanks >>= fun _ => f a) s := by
  intro c hc
  obtain ⟨a, c', hp, hrest, _, ha⟩ := h c hc
  rw [bind_run, hp]
  exact hf a ha (c'.advance (blankLength c'.rest)) hrest

theorem reads_scanned {m : Scan α} {a : α} {n : Nat} (h : m s = some (a, n)) :
    Reads (scanned m) s (skip (s.drop n)) fun b => b = a := by
  intro c hc
  exact ⟨a, c.advance n, by simp [scanned, hc, h], by rw [← hc]; rfl, rfl, rfl⟩

theorem fails_scanned {m : Scan α} (h : m s = none) : Fails (scanned m) s := by
  intro c hc
  simp [scanned, hc, h]

theorem reads_exactly (h : mark.toList = t) (r : List Char) :
    Reads (exactly mark) (t ++ r) (skip r) fun _ => True := by
  subst h
  have hscan : markScan mark (mark.toList ++ r) = some ((), mark.length) := by simp [markScan]
  have hdrop : (mark.toList ++ r).drop mark.length = r := by
    rw [← String.length_toList, List.drop_left]
  have hreads := reads_scanned hscan
  rw [hdrop] at hreads
  exact exactly_eq mark ▸ hreads.imp fun _ _ => trivial

theorem reads_mark {x : Char} (h : mark.toList = [x]) (r : List Char) :
    Reads (exactly mark) (x :: r) (skip r) fun _ => True := reads_exactly h r

theorem fails_exactly {x y : Char} {ys : List Char} (hmark : mark.toList.head? = some y)
    (hne : x ≠ y) : Fails (exactly mark) (x :: ys) := by
  rw [exactly_eq]
  refine fails_scanned ?_
  cases hm : mark.toList with
  | nil => simp [hm] at hmark
  | cons z zs =>
    have hz : z ≠ x := by
      rintro rfl
      simp [hm] at hmark
      exact hne hmark
    simp [markScan, hm, hz]

end Combinators

structure Stop (S : List Char) (r : List Char) : Prop where
  closed : Closed r
  pointless : Pointless r
  next : ∃ x xs, skip r = x :: xs ∧ x ∈ S

theorem Stop.mono {S S' : List Char} {r : List Char} (h : Stop S r) (hS : ∀ x ∈ S, x ∈ S') :
    Stop S' r := by
  obtain ⟨x, xs, hskip, hx⟩ := h.next
  exact ⟨h.closed, h.pointless, x, xs, hskip, hS x hx⟩

theorem stop_cons {S : List Char} {x : Char} (hclosed : isNameChar x = false)
    (hgap : isGapStart x = false) (hpoint : x ≠ '.') (hx : x ∈ S) (cs : List Char) :
    Stop S (x :: cs) := by
  refine ⟨?_, ?_, x, cs, skip_start hgap, hx⟩
  · intro y hy
    cases hy
    exact hclosed
  · intro ds hds
    cases hds
    exact (hpoint rfl).elim

theorem stop_point {S : List Char} (hS : '.' ∈ S) : Stop S ['.'] := by
  refine ⟨by decide, by decide, '.', [], skip_start (by decide), hS⟩

theorem stop_space {S : List Char} {x : Char} (hgap : isGapStart x = false) (hx : x ∈ S) :
    Stop S (' ' :: x :: cs) := by
  refine ⟨by simp [Closed]; decide, ?_, x, cs, by rw [skip_space, skip_start hgap], hx⟩
  intro ds hds
  cases hds

def isGapless (S : List Char) : Bool := S.all fun x => !isGapStart x

theorem not_isGapStart_of_mem {S : List Char} (hS : isGapless S) {x : Char} (hx : x ∈ S) :
    isGapStart x = false :=
  by simpa using List.all_eq_true.mp hS x hx

/-- Where a stop's mark stands, nothing is left to be skipped. -/
theorem Stop.skip_skip {S : List Char} {r : List Char} (h : Stop S r) (hS : isGapless S) :
    skip (skip r) = skip r := by
  obtain ⟨x, xs, hskip, hx⟩ := h.next
  rw [hskip, skip_start (not_isGapStart_of_mem hS hx)]

/-- A text that a reader reads back, before any of some characters: what it finds looks the same. -/
structure Recovers (S : List Char) (view : α → β) (p : Reader α) (s : List Char) (x : α) :
    Prop where
  start : ∃ y ys, s = y :: ys ∧ isGapStart y = false
  reads : ∀ r, Stop S r → Reads p (s ++ r) (skip r) fun a => view a = view x

theorem Recovers.skip_append {S : List Char} {view : α → β} {p : Reader α} {s : List Char} {x : α}
    (h : Recovers S view p s x) (r : List Char) : skip (s ++ r) = s ++ r := by
  obtain ⟨y, ys, rfl, hy⟩ := h.start
  exact skip_start hy

structure IsSeparator (separator : String) (sep : Char) : Prop where
  spelled : separator.toList = [sep]
  closed : isNameChar sep = false
  gap : isGapStart sep = false
  point : sep ≠ '.'

theorem isSeparator_comma : IsSeparator "," ',' := ⟨rfl, by decide, by decide, by decide⟩

theorem isSeparator_semicolon : IsSeparator ";" ';' := ⟨rfl, by decide, by decide, by decide⟩

section Separated

variable {view : α → β} {p : Reader α} {text : α → List Char} {S : List Char}
  {sep : Char} {separator : String} {x : α} {xs : List α} {s r : List Char}

def tailText (sep : Char) (text : α → List Char) (xs : List α) :
    List Char := xs.flatMap fun x => sep :: ' ' :: text x

theorem tailText_cons :
    tailText sep text (x :: xs) ++ r = sep :: ' ' :: (text x ++ (tailText sep text xs ++ r)) := by
  simp [tailText]

theorem toList_intercalate (spaced : String) (sep : Char) (h : spaced.toList = [sep, ' '])
    (f : α → String) (x : α) (xs : List α) :
    (spaced.intercalate ((x :: xs).map f)).toList =
      (f x).toList ++ tailText sep (fun y => (f y).toList) xs := by
  induction xs generalizing x with
  | nil => simp [tailText]
  | cons y ys ih =>
    rw [List.map_cons, List.map_cons, String.intercalate_cons_cons, ← List.map_cons,
      String.toList_append, String.toList_append, ih, h]
    simp [tailText]

theorem length_le_tailText (sep : Char) (text : α → List Char) (xs : List α) :
    xs.length ≤ (tailText sep text xs).length := by
  induction xs with
  | nil => exact Nat.zero_le _
  | cons x xs ih =>
    simp only [tailText, List.flatMap_cons, List.length_append, List.length_cons] at ih ⊢
    omega

theorem IsSeparator.stop_tail (h : IsSeparator separator sep) (text : α → List Char) (xs : List α)
    (hr : Stop S r) : Stop (sep :: S) (tailText sep text xs ++ r) := by
  cases xs with
  | nil => exact hr.mono fun x hx => List.mem_cons_of_mem _ hx
  | cons x xs =>
    rw [tailText_cons]
    exact stop_cons h.closed h.gap h.point (List.mem_cons_self ..) _

theorem reads_following (hsep : IsSeparator separator sep) (h : Recovers S view p s x)
    (hr : Stop S r) :
    Reads (following separator p) (sep :: ' ' :: (s ++ r)) (skip r) fun a => view a = view x := by
  refine (reads_mark hsep.spelled _).next fun _ _ => ?_
  rw [skip_space, h.skip_append]
  exact h.reads r hr

theorem fails_following (hsep : IsSeparator separator sep) (hr : Stop S r) (hS : sep ∉ S)
    (p : Reader α) : Fails (following separator p) (skip r) := by
  obtain ⟨y, ys, hskip, hy⟩ := hr.next
  rw [hskip]
  refine (fails_exactly (by rw [hsep.spelled]; rfl) ?_).bind _
  rintro rfl
  exact hS hy

theorem several_following (hsep : IsSeparator separator sep)
    (h : ∀ x ∈ xs, Recovers (sep :: S) view p (text x) x) (hr : Stop S r) (hS : sep ∉ S)
    {n : Nat} (hn : xs.length ≤ n) :
    Resumes (several (do blanks; following separator p) n)
      (skip (tailText sep text xs ++ r)) (skip r) fun as => as.map view = xs.map view := by
  induction xs generalizing n with
  | nil =>
    intro c hc
    have hnone : (do blanks; following separator p : Reader α) c = none :=
      fails_following hsep hr hS p _ hc
    exact ⟨[], c, several_of_none hnone n, hc, rfl, rfl⟩
  | cons x xs ih =>
    intro c hc
    obtain ⟨n, rfl⟩ : ∃ m, n = m + 1 := ⟨n - 1, by simp at hn; omega⟩
    rw [tailText_cons, skip_start hsep.gap] at hc
    have hx := reads_following hsep (h x (List.mem_cons_self ..)) (hsep.stop_tail text xs hr)
    obtain ⟨a, c₁, ha, hrest₁, hover₁, hview⟩ := hx.resumes c hc
    obtain ⟨as, c₂, has, hrest₂, hover₂, hviews⟩ :=
      ih (fun y hy => h y (List.mem_cons_of_mem _ hy)) (Nat.le_of_succ_le_succ hn) c₁ hrest₁
    refine ⟨a :: as, c₂, ?_, hrest₂, hover₂.trans hover₁, ?_⟩
    · simp only [several, ha, has]
    · simp only [List.map_cons, hview, hviews]

theorem many_following (hsep : IsSeparator separator sep)
    (h : ∀ x ∈ xs, Recovers (sep :: S) view p (text x) x) (hr : Stop S r) (hS : sep ∉ S) :
    Resumes (many (do blanks; following separator p)) (skip (tailText sep text xs ++ r)) (skip r)
      fun as => as.map view = xs.map view := by
  intro c hc
  refine several_following hsep h hr hS ?_ c hc
  cases xs with
  | nil => exact Nat.zero_le _
  | cons x xs =>
    have hlength : (tailText sep text (x :: xs) ++ r).length ≤ c.rest.length := by
      calc (tailText sep text (x :: xs) ++ r).length = (skip c.rest).length := by
            rw [hc, tailText_cons, skip_start hsep.gap]
        _ ≤ c.rest.length := length_skip_le _
    have hparts := length_le_tailText sep text (x :: xs)
    rw [List.length_append] at hlength
    omega

/-- A list of parts is read back if each of its parts is. -/
theorem recovers_separated (hsep : IsSeparator separator sep) (text : α → List Char)
    (h : ∀ y ∈ x :: xs, Recovers (sep :: S) view p (text y) y) (hS : sep ∉ S) (hgap : isGapless S) :
    Recovers S (List.map view) (separated separator p) (text x ++ tailText sep text xs)
      (x :: xs) := by
  have hfirst := h x (List.mem_cons_self ..)
  obtain ⟨y, ys, hy, hgapless⟩ := hfirst.start
  refine ⟨⟨y, ys ++ tailText sep text xs, by rw [hy]; rfl, hgapless⟩, fun r hr => ?_⟩
  rw [List.append_assoc]
  refine (hfirst.reads _ (hsep.stop_tail _ _ hr)).next fun a ha => ?_
  cases xs with
  | nil =>
    refine ((fails_following hsep hr hS p).optional (hr.skip_skip hgap)).bind fun b? hb => ?_
    subst hb
    exact resumes_pure (by rw [List.map_cons, List.map_cons, ha, List.map_nil])
  | cons x' xs =>
    have hothers : ∀ y ∈ xs, Recovers (sep :: S) view p (text y) y :=
      fun y hy => h y (List.mem_cons_of_mem _ (List.mem_cons_of_mem _ hy))
    rw [tailText_cons, skip_start hsep.gap]
    refine (reads_following hsep (h x' (by simp))
      (hsep.stop_tail _ _ hr)).optional.bind fun b? hb => ?_
    obtain ⟨b, rfl, hb⟩ := hb
    intro c hc
    obtain ⟨as, c', has, hrest, hover, hviews⟩ := many_following hsep hothers hr hS c hc
    refine ⟨a :: b :: as, c', ?_, hrest, hover, ?_⟩
    · change (many (do blanks; following separator p) >>= fun others => pure (a :: b :: others)) c =
        _
      rw [bind_run, has]
      rfl
    · simp only [List.map_cons, ha, hb, hviews]

end Separated

end GraphRules.Script
