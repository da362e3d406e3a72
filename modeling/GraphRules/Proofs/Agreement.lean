import GraphRules.Proofs.Scans
import GraphRules.Proofs.SpanMaps

/-! Readers that agree. Two readers run from related cursors; both fail, or both go on to related
cursors with values that are the same in two views. What is shown of the readers of tokens holds all
the way up to items, and the views may change spans: by moving them along, or by blotting them out.
-/
namespace GraphRules.Script

variable {α β γ ε ζ η : Type} {r : α → β → Prop} {a : Option α} {b : Option β} {c : Cursor}
  {n : Nat}

theorem rel_imp {s : α → β → Prop} (h : Option.Rel r a b) (hrs : ∀ x y, r x y → s x y) :
    Option.Rel s a b := by
  cases h with
  | none => exact .none
  | some hxy => exact .some (hrs _ _ hxy)

theorem rel_bind {s : γ → ε → Prop} {f : α → Option γ} {f' : β → Option ε} (h : Option.Rel r a b)
    (hf : ∀ x y, r x y → Option.Rel s (f x) (f' y)) : Option.Rel s (a.bind f) (b.bind f') := by
  cases h with
  | none => exact .none
  | some hxy => exact hf _ _ hxy

theorem rel_none_left (h : Option.Rel r none b) : b = none := by
  cases h
  rfl

theorem rel_some_left {x : α} (h : Option.Rel r (some x) b) : ∃ y, b = some y ∧ r x y := by
  cases h with
  | some hxy => exact ⟨_, rfl, hxy⟩

/-- From related cursors both readers fail or both go on. What they give is then the same in the two
views, the cursors are related again, and each has passed at least `k` characters. -/
def Agree (k : Nat) (R S : Cursor → Cursor → Prop) (u : α → γ) (v : β → γ) (p : Reader α)
    (q : Reader β) : Prop :=
  ∀ c d, R c d → Option.Rel (fun x y => v y.1 = u x.1 ∧ S x.2 y.2 ∧
    x.2.rest.length + k ≤ c.rest.length ∧ y.2.rest.length + k ≤ d.rest.length) (p c) (q d)

theorem several_of_none {p : Reader α} (h : p c = none) (n : Nat) :
    several p n c = some ([], c) := by
  cases n with
  | zero => rfl
  | succ n => simp [several, h]

namespace Agree

variable {i j k : Nat} {R S T : Cursor → Cursor → Prop} {u : α → γ} {v : β → γ} {p p' : Reader α}
  {q q' : Reader β} {u' : ε → η} {v' : ζ → η}

theorem give {a : α} {b : β} (h : v b = u a) : Agree 0 R R u v (pure a) (pure b) :=
  fun _ _ hcd => .some ⟨h, hcd, Nat.le_refl _, Nat.le_refl _⟩

theorem weaken (h : Agree k R S u v p q) : Agree 0 R S u v p q := by
  intro c d hcd
  refine rel_imp (h c d hcd) fun x y hxy => ⟨hxy.1, hxy.2.1, ?_, ?_⟩ <;> omega

theorem imp {R' S' : Cursor → Cursor → Prop} (h : Agree k R S u v p q) (hR : ∀ c d, R' c d → R c d)
    (hS : ∀ c d, S c d → S' c d) : Agree k R' S' u v p q :=
  fun c d hcd => rel_imp (h c d (hR c d hcd)) fun _ _ hxy => ⟨hxy.1, hS _ _ hxy.2.1, hxy.2.2⟩

theorem seq {f : α → Reader ε} {f' : β → Reader ζ} (h : Agree i R S u v p q)
    (hf : ∀ a b, v b = u a → Agree j S T u' v' (f a) (f' b)) :
    Agree (i + j) R T u' v' (p >>= f) (q >>= f') := by
  intro c d hcd
  rw [bind_run, bind_run]
  refine rel_bind (h c d hcd) fun x y hxy => ?_
  obtain ⟨hval, hnext, hc, hd⟩ := hxy
  refine rel_imp (hf x.1 y.1 hval x.2 y.2 hnext) fun z w hzw => ⟨hzw.1, hzw.2.1, ?_, ?_⟩ <;> omega

theorem bind {f : α → Reader ε} {f' : β → Reader ζ} (h : Agree 0 R S u v p q)
    (hf : ∀ a b, v b = u a → Agree k S T u' v' (f a) (f' b)) :
    Agree k R T u' v' (p >>= f) (q >>= f') :=
  Nat.zero_add k ▸ h.seq hf

theorem map {f : α → ε} {f' : β → ζ} (h : Agree k R S u v p q)
    (hf : ∀ a b, v b = u a → v' (f' b) = u' (f a)) : Agree k R S u' v' (f <$> p) (f' <$> q) := by
  intro c d hcd
  rw [map_run, map_run, Option.map_eq_bind, Option.map_eq_bind]
  exact rel_bind (h c d hcd) fun x y hxy => .some ⟨hf x.1 y.1 hxy.1, hxy.2⟩

theorem orElse (h : Agree k R S u v p q) (h' : Agree k R S u v p' q') :
    Agree k R S u v (p <|> p') (q <|> q') := by
  intro c d hcd
  rw [orElse_run, orElse_run]
  have hrel := h c d hcd
  generalize p c = r at hrel
  generalize q d = r' at hrel
  cases hrel with
  | none => exact h' c d hcd
  | some hxy => exact .some hxy

theorem optional (h : Agree k R R u v p q) :
    Agree 0 R R (Option.map u) (Option.map v) (optional p) (optional q) := by
  have hsome : Agree 0 R R (Option.map u) (Option.map v) (some <$> p) (some <$> q) :=
    h.weaken.map fun _ _ hab => congrArg some hab
  exact hsome.orElse (give rfl)

theorem spanned {f f' : Span → Span}
    (hspan : ∀ {c d c' d'}, R c d → S c' d' →
      f' (.between d.place d'.place) = f (.between c.place c'.place)) (h : Agree k R S u v p q) :
    Agree k R S (Prod.map u f) (Prod.map v f') (spanned p) (spanned q) := by
  intro c d hcd
  have hrel := h c d hcd
  unfold Script.spanned
  generalize p c = r at hrel
  generalize q d = r' at hrel
  cases hrel with
  | none => exact .none
  | some hxy =>
    obtain ⟨hval, hnext, hlen⟩ := hxy
    exact .some ⟨Prod.ext hval (hspan hcd hnext), hnext, hlen⟩

/-- Repetition goes on as long as there is text, whatever the two bounds are. -/
theorem several (h : Agree 1 R R u v p q) (n m : Nat) {c d : Cursor} (hcd : R c d)
    (hn : c.rest.length ≤ n) (hm : d.rest.length ≤ m) :
    Option.Rel (fun x y => y.1.map v = x.1.map u ∧ R x.2 y.2 ∧
      x.2.rest.length ≤ c.rest.length ∧
        y.2.rest.length ≤ d.rest.length) (several p n c) (several q m d) := by
  induction n generalizing m c d with
  | zero =>
    have hrel := h c d hcd
    cases hp : p c with
    | none =>
      rw [hp] at hrel
      rw [several_of_none hp, several_of_none (rel_none_left hrel)]
      exact .some ⟨rfl, hcd, Nat.le_refl _, Nat.le_refl _⟩
    | some x =>
      rw [hp] at hrel
      obtain ⟨y, _, _, _, hc, _⟩ := rel_some_left hrel
      omega
  | succ n ih =>
    have hrel := h c d hcd
    cases hp : p c with
    | none =>
      rw [hp] at hrel
      rw [several_of_none hp, several_of_none (rel_none_left hrel)]
      exact .some ⟨rfl, hcd, Nat.le_refl _, Nat.le_refl _⟩
    | some x =>
      rw [hp] at hrel
      obtain ⟨y, hq, hval, hnext, hc, hd⟩ := rel_some_left hrel
      cases m with
      | zero => omega
      | succ m =>
        have hmore := ih m hnext (by omega) (by omega)
        simp only [Script.several, hp, hq]
        generalize Script.several p n x.2 = r at hmore
        generalize Script.several q m y.2 = r' at hmore
        cases hmore with
        | none => exact .none
        | some hzw =>
          obtain ⟨hvals, hlast, hcs, hds⟩ := hzw
          exact .some ⟨by simp [hval, hvals], hlast, Nat.le_trans hcs (by omega),
            Nat.le_trans hds (by omega)⟩

theorem many (h : Agree 1 R R u v p q) : Agree 0 R R (List.map u) (List.map v) (many p) (many q) :=
  fun c d hcd => h.several c.rest.length d.rest.length hcd (Nat.le_refl _) (Nat.le_refl _)

theorem following {s : String} (hmark : Agree 1 R R id id (exactly s) (exactly s))
    (hblanks : Agree 0 R R id id blanks blanks) (h : Agree 0 R R u v p q) :
    Agree 1 R R u v (following s p) (following s q) :=
  hmark.seq (j := 0) fun _ _ _ => hblanks.bind fun _ _ _ => h

theorem separated {s : String} (hmark : Agree 1 R R id id (exactly s) (exactly s))
    (hblanks : Agree 0 R R id id blanks blanks) (h : Agree 0 R R u v p q) :
    Agree 0 R R (List.map u) (List.map v) (separated s p) (separated s q) := by
  have hnext := following hmark hblanks h
  refine h.bind fun a b hab => hblanks.bind fun _ _ _ => hnext.optional.bind fun a? b? hab? => ?_
  cases a? with
  | none =>
    cases b? with
    | none => exact give (by simp [hab])
    | some b' => cases hab?
  | some a' =>
    cases b? with
    | none => cases hab?
    | some b' =>
      have hothers : Agree 1 R R u v (do blanks; Script.following s p)
          (do blanks; Script.following s q) :=
        hblanks.bind fun _ _ _ => hnext
      have hab' : v b' = u a' := Option.some.inj hab?
      exact hothers.many.bind fun as bs hs => give (by simp [hab, hab', hs])

end Agree

def words : List String := ["node", "edge", "labels", "query", "not", "as"]

def marks : List String := ["(", ")", ",", ";", ":", "->"]

def Moves (R S : Cursor → Cursor → Prop) (m : Scan α) : Prop :=
  ∀ c d, R c d → m d.rest = m c.rest ∧ ∀ x, m c.rest = some x → S (c.advance x.2) (d.advance x.2)

theorem Cursor.length_advance (c : Cursor) (n : Nat) :
    (c.advance n).rest.length = c.rest.length - n := by
  simp [Cursor.advance]

theorem length_of_markScan {s : String} {cs : List Char} {x : Unit × Nat}
    (h : markScan s cs = some x) : x.2 = s.length ∧ s.length ≤ cs.length := by
  unfold markScan at h
  split at h
  · cases h
    refine ⟨rfl, ?_⟩
    rw [← String.length_toList]
    exact (List.isPrefixOf_iff_prefix.mp ‹_›).length_le
  · cases h

section Scans

variable {R S : Cursor → Cursor → Prop}

theorem Moves.agree {m : Scan α} (h : Moves R S m) : Agree 0 R S id id (scanned m) (scanned m) := by
  intro c d hcd
  obtain ⟨hsame, hnext⟩ := h c d hcd
  unfold scanned
  rw [hsame]
  cases hm : m c.rest with
  | none => exact .none
  | some x =>
    refine .some ⟨rfl, hnext x hm, ?_, ?_⟩ <;> simp only [Cursor.length_advance] <;> omega

theorem Moves.agree_mark {s : String} (h : Moves R S (markScan s)) (hs : 0 < s.length) :
    Agree 1 R S id id (exactly s) (exactly s) := by
  intro c d hcd
  obtain ⟨hsame, hnext⟩ := h c d hcd
  rw [exactly_eq]
  unfold scanned
  rw [hsame]
  cases hm : markScan s c.rest with
  | none => exact .none
  | some x =>
    have hc := length_of_markScan hm
    have hd := length_of_markScan (hsame.trans hm)
    refine .some ⟨rfl, hnext x hm, ?_, ?_⟩ <;> simp only [Cursor.length_advance] <;> omega

end Scans

structure Respected (f f' : Span → Span) (R : Cursor → Cursor → Prop) : Prop where
  span : ∀ {c d c' d'}, R c d → R c' d' →
    f' (.between d.place d'.place) = f (.between c.place c'.place)
  noted : ∀ {c d}, R c d → ∀ k text s s', f' s' = f s → R (c.noted k text s) (d.noted k text s')
  atBlank : Agree 0 R R id id blanks blanks
  atName : Moves R R nameScan
  atString : Moves R R quotedScan
  atComparator : Moves R R comparatorScan
  atArg : Moves R R argScan
  atWord : ∀ s ∈ words, Moves R R (wordScan s)
  atMark : ∀ s ∈ marks, Moves R R (markScan s)

namespace Respected

variable {f f' : Span → Span} {R : Cursor → Cursor → Prop} {u : α → γ} {v : β → γ} {q : Reader β}

theorem agree_name (hR : Respected f f' R) : Agree 0 R R id id name name :=
  name_eq ▸ hR.atName.agree

theorem agree_string (hR : Respected f f' R) : Agree 0 R R id id string string :=
  string_eq ▸ hR.atString.agree

theorem agree_comparator (hR : Respected f f' R) : Agree 0 R R id id comparator comparator :=
  comparator_eq ▸ hR.atComparator.agree

theorem agree_keyword (hR : Respected f f' R) (s : String) (hs : s ∈ words := by decide) :
    Agree 0 R R id id (keyword s) (keyword s) :=
  keyword_eq s ▸ (hR.atWord s hs).agree

theorem agree_exactly (hR : Respected f f' R) (s : String) (hs : s ∈ marks := by decide) :
    Agree 1 R R id id (exactly s) (exactly s) :=
  (hR.atMark s hs).agree_mark (by revert s; decide)

theorem rest_noted (c : Cursor) (k : ArgKind) (text : String) (s : Span) :
    (c.noted k text s).rest = c.rest := by
  unfold Cursor.noted
  repeat' split
  all_goals rfl

theorem agree_arg (hR : Respected f f' R) :
    Agree 0 R R (Arg.mapSpan f) (Arg.mapSpan f') arg arg := by
  intro c d hcd
  obtain ⟨hsame, hnext⟩ := hR.atArg c d hcd
  rw [arg_eq]
  unfold argBy
  rw [hsame]
  cases hm : argScan c.rest with
  | none => exact .none
  | some x =>
    have hspan := hR.span hcd (hnext x hm)
    refine .some ⟨?_, hR.noted (hnext x hm) _ _ _ _ hspan, ?_, ?_⟩
    · rw [Arg.mapSpan, Arg.mapSpan, hspan]
    · simp only [rest_noted, Cursor.length_advance]
      omega
    · simp only [rest_noted, Cursor.length_advance]
      omega

theorem agree_separated (hR : Respected f f' R) {s : String} (hs : s ∈ marks) {p : Reader α}
    (h : Agree 0 R R u v p q) :
    Agree 0 R R (List.map u) (List.map v) (separated s p) (separated s q) :=
  Agree.separated (hR.agree_exactly s hs) hR.atBlank h

theorem agree_spanned (hR : Respected f f' R) {k : Nat} {p : Reader α} (h : Agree k R R u v p q) :
    Agree k R R (Prod.map u f) (Prod.map v f') (spanned p) (spanned q) :=
  Agree.spanned hR.span h

theorem getD_nil_eq {as? : Option (List α)} {bs? : Option (List β)}
    (h : bs?.map (List.map v) = as?.map (List.map u)) :
    (bs?.getD []).map v = (as?.getD []).map u := by
  cases as? <;> cases bs? <;> simp_all

theorem agree_arguments (hR : Respected f f' R) :
    Agree 0 R R (List.map (Arg.mapSpan f)) (List.map (Arg.mapSpan f')) arguments arguments := by
  have hargs := hR.agree_separated (s := ",") (by decide) hR.agree_arg
  exact (hR.agree_exactly "(").weaken.bind fun _ _ _ => hR.atBlank.bind fun _ _ _ =>
    hargs.optional.bind fun as? bs? hs => hR.atBlank.bind fun _ _ _ =>
    (hR.agree_exactly ")").weaken.bind fun _ _ _ => .give (getD_nil_eq hs)

theorem agree_call (hR : Respected f f' R) :
    Agree 0 R R (Call.mapSpan f) (Call.mapSpan f') call call := by
  have hparts : Agree 0 R R (Prod.map id (Option.map (List.map (Arg.mapSpan f))))
      (Prod.map id (Option.map (List.map (Arg.mapSpan f'))))
      (do let n ← name; blanks; let args? ← optional arguments; pure (n, args?))
      (do let n ← name; blanks; let args? ← optional arguments; pure (n, args?)) :=
    hR.agree_name.bind fun n n' hn => hR.atBlank.bind fun _ _ _ =>
      hR.agree_arguments.optional.bind fun as? bs? hs =>
      .give (Prod.ext hn hs)
  refine (hR.agree_spanned hparts).bind ?_
  rintro ⟨⟨n, as?⟩, s⟩ ⟨⟨n', bs?⟩, s'⟩ h
  simp only [Prod.map_apply, Prod.mk.injEq, id_eq] at h
  obtain ⟨⟨rfl, hs⟩, hspan⟩ := h
  exact .give (by rw [Call.mapSpan, Call.mapSpan, getD_nil_eq hs, hspan])

theorem agree_comparison (hR : Respected f f' R) :
    Agree 0 R R (Comparison.mapSpan f) (Comparison.mapSpan f') comparison comparison := by
  have hparts : Agree 0 R R (Prod.map (Arg.mapSpan f) (Prod.map id (Arg.mapSpan f)))
      (Prod.map (Arg.mapSpan f') (Prod.map id (Arg.mapSpan f')))
      (do let l ← arg; blanks; let op ← comparator; blanks; let r ← arg; pure (l, op, r))
      (do let l ← arg; blanks; let op ← comparator; blanks; let r ← arg; pure (l, op, r)) :=
    hR.agree_arg.bind fun l l' hl => hR.atBlank.bind fun _ _ _ =>
      hR.agree_comparator.bind fun op op' hop =>
      hR.atBlank.bind fun _ _ _ => hR.agree_arg.bind fun r r' hr =>
        .give (Prod.ext hl (Prod.ext hop hr))
  refine (hR.agree_spanned hparts).bind ?_
  rintro ⟨⟨l, op, r⟩, s⟩ ⟨⟨l', op', r'⟩, s'⟩ h
  simp only [Prod.map_apply, Prod.mk.injEq, id_eq] at h
  obtain ⟨⟨hl, rfl, hr⟩, hs⟩ := h
  exact .give (by rw [Comparison.mapSpan, Comparison.mapSpan, hl, hr, hs])

section Formulas

variable {p p' : Reader Formula}

/-- Inside a group another relation may hold, as long as the one outside holds again where the
formula ends. -/
theorem agree_group (hR : Respected f f' R) {R' : Cursor → Cursor → Prop}
    (hopen : Agree 1 R R' id id (exactly "(") (exactly "("))
    (hblanks : Agree 0 R' R' id id blanks blanks)
    (h : Agree 0 R' R (Formula.mapSpan f) (Formula.mapSpan f') p p') :
    Agree 0 R R (Formula.mapSpan f) (Formula.mapSpan f') (group p) (group p') :=
  hopen.weaken.bind fun _ _ _ => hblanks.bind fun _ _ _ => h.bind fun _ _ hg =>
    hR.atBlank.bind fun _ _ _ =>
    (hR.agree_exactly ")").weaken.bind fun _ _ _ => .give hg

theorem agree_denied (hR : Respected f f' R)
    (h : Agree 0 R R (Formula.mapSpan f) (Formula.mapSpan f') (group p) (group p')) :
    Agree 0 R R (Formula.mapSpan f) (Formula.mapSpan f') (denied p) (denied p') := by
  refine h.orElse (hR.agree_call.bind fun c c' hc => .give ?_)
  have hspan : f' c'.span = f c.span := congrArg Call.span hc
  simp [Formula.mapSpan_mk, Literal.mapSpan, hc, hspan]

theorem agree_negation (hR : Respected f f' R)
    (h : Agree 0 R R (Formula.mapSpan f) (Formula.mapSpan f') (group p) (group p')) :
    Agree 0 R R (Literal.mapSpan f) (Literal.mapSpan f') (negation p) (negation p') := by
  have hparts : Agree 0 R R (Formula.mapSpan f) (Formula.mapSpan f')
      (do keyword "not"; blanks; denied p)
      (do keyword "not"; blanks; denied p') :=
    (hR.agree_keyword "not").bind fun _ _ _ => hR.atBlank.bind fun _ _ _ => hR.agree_denied h
  refine (hR.agree_spanned hparts).bind ?_
  rintro ⟨g, s⟩ ⟨g', s'⟩ h
  simp only [Prod.map_apply, Prod.mk.injEq] at h
  exact .give (by rw [Literal.mapSpan, Literal.mapSpan, h.1, h.2])

theorem agree_literal (hR : Respected f f' R)
    (h : Agree 0 R R (Formula.mapSpan f) (Formula.mapSpan f') (group p) (group p')) :
    Agree 0 R R (Literal.mapSpan f) (Literal.mapSpan f') (literal p) (literal p') := by
  have hcompare : Agree 0 R R (Literal.mapSpan f) (Literal.mapSpan f') (.compare <$> comparison)
      (.compare <$> comparison) :=
    hR.agree_comparison.map fun _ _ hc => by rw [Literal.mapSpan, Literal.mapSpan, hc]
  have hgroup : Agree 0 R R (Literal.mapSpan f) (Literal.mapSpan f') (.group <$> group p)
      (.group <$> group p') :=
    h.map fun _ _ hg => by rw [Literal.mapSpan, Literal.mapSpan, hg]
  have hcall : Agree 0 R R (Literal.mapSpan f) (Literal.mapSpan f')
      (.call <$> call) (.call <$> call) :=
    hR.agree_call.map fun _ _ hc => by rw [Literal.mapSpan, Literal.mapSpan, hc]
  exact (hR.agree_negation h).orElse (hcompare.orElse (hgroup.orElse hcall))

theorem agree_formulaOf (hR : Respected f f' R)
    (h : Agree 0 R R (Formula.mapSpan f) (Formula.mapSpan f') (group p) (group p')) :
    Agree 0 R R (Formula.mapSpan f) (Formula.mapSpan f') (formulaOf p) (formulaOf p') := by
  have hconjunction := hR.agree_separated (s := ",") (by decide) (hR.agree_literal h)
  have hparts := hR.agree_separated (s := ";") (by decide) hconjunction
  refine (hR.agree_spanned hparts).bind ?_
  rintro ⟨ds, s⟩ ⟨ds', s'⟩ h
  simp only [Prod.map_apply, Prod.mk.injEq] at h
  exact .give (by rw [Formula.mapSpan_mk, Formula.mapSpan_mk, h.1, h.2])

theorem agree_formulaDepth (hR : Respected f f' R) (n : Nat) :
    Agree 0 R R (Formula.mapSpan f) (Formula.mapSpan f') (formulaDepth n) (formulaDepth n) := by
  induction n with
  | zero => exact fun _ _ _ => .none
  | succ n ih => exact hR.agree_formulaOf (hR.agree_group (hR.agree_exactly "(") hR.atBlank ih)

end Formulas

end Respected

def Within (n : Nat) (c d : Cursor) : Prop := d = c ∧ c.rest.length < n

theorem moves_within {m : Scan α} (n : Nat) : Moves (Within n) (Within n) m := by
  rintro c d ⟨rfl, hc⟩
  refine ⟨rfl, fun x _ => ⟨rfl, ?_⟩⟩
  rw [Cursor.length_advance]
  omega

theorem respected_within (n : Nat) : Respected id id (Within n) where
  span := by rintro c d c' d' ⟨rfl, _⟩ ⟨rfl, _⟩; rfl
  noted := by rintro c d ⟨rfl, hc⟩ k text s s' rfl; exact ⟨rfl, by rwa [Respected.rest_noted]⟩
  atBlank := (moves_within (m := blankScan) n).agree
  atName := moves_within n
  atString := moves_within n
  atComparator := moves_within n
  atArg := moves_within n
  atWord := fun _ _ => moves_within n
  atMark := fun _ _ => moves_within n

theorem moves_open (n : Nat) : Moves (Within (n + 1)) (Within n) (markScan "(") := by
  rintro c d ⟨rfl, hc⟩
  refine ⟨rfl, fun x hx => ⟨rfl, ?_⟩⟩
  obtain ⟨hlen, hle⟩ := length_of_markScan hx
  have hone : "(".length = 1 := by decide
  rw [Cursor.length_advance]
  omega

theorem Agree.eq {k m : Nat} {p q : Reader α} (h : Agree k (Within n) (Within m) id id p q)
    (hc : c.rest.length < n) : q c = p c := by
  have hrel := h c c ⟨rfl, hc⟩
  generalize p c = r at hrel
  generalize q c = r' at hrel
  cases hrel with
  | none => rfl
  | some hxy => exact congrArg some (Prod.ext hxy.1 hxy.2.1.1)

/-- Readers of formulas only differ on longer texts if the readers of the formulas inside do. -/
theorem formulaOf_congr {k : Nat} {f : Reader Formula}
    (h : ∀ c : Cursor, c.rest.length < n → f c = formulaDepth k c) (hc : c.rest.length < n + 1) :
    formulaOf f c = formulaOf (formulaDepth k) c := by
  have hinner : Agree 0 (Within n) (Within (n + 1)) (Formula.mapSpan id) (Formula.mapSpan id)
      (formulaDepth k) f := by
    rintro c d ⟨rfl, hc⟩
    rw [h d hc]
    refine ((respected_within n).agree_formulaDepth k).imp (fun _ _ => id)
      (fun c d hcd => ⟨hcd.1, ?_⟩) d d ⟨rfl, hc⟩
    have hlen := hcd.2
    omega
  have hgroup := (respected_within (n + 1)).agree_group ((moves_open n).agree_mark (by decide))
    (respected_within n).atBlank hinner
  have hformula := (respected_within (n + 1)).agree_formulaOf hgroup
  have hid : Formula.mapSpan id = id := funext fun g => Formula.mapSpan_id g
  rw [hid] at hformula
  exact hformula.eq hc

/-- Groups are nested less deep than the text is long, so a larger bound changes nothing. -/
theorem formulaDepth_succ (h : c.rest.length < n) : formulaDepth (n + 1) c = formulaDepth n c := by
  induction n generalizing c with
  | zero => omega
  | succ n ih => exact formulaOf_congr (fun _ => ih) h

theorem formulaDepth_eq (h : c.rest.length < n) : formulaDepth n c = formula c := by
  induction n with
  | zero => omega
  | succ n ih =>
    by_cases hn : c.rest.length < n
    · rw [formulaDepth_succ hn, ih hn]
    · have heq : n = c.rest.length := by omega
      subst heq
      rfl

theorem formula_eq : formula = formulaOf formula := by
  funext c
  have hinside : ∀ d : Cursor, d.rest.length < c.rest.length + 1 →
      formula d = formulaDepth (c.rest.length + 1) d :=
    fun d hd => (formulaDepth_eq hd).symm
  rw [formulaOf_congr hinside (by omega)]
  exact (formulaDepth_eq (n := c.rest.length + 2) (by omega)).symm

namespace Respected

variable {f f' : Span → Span} {R : Cursor → Cursor → Prop}

theorem agree_formula (hR : Respected f f' R) :
    Agree 0 R R (Formula.mapSpan f) (Formula.mapSpan f') formula formula := by
  intro c d hcd
  have hrel := hR.agree_formulaDepth (c.rest.length + d.rest.length + 1) c d hcd
  rw [formulaDepth_eq (by omega), formulaDepth_eq (by omega)] at hrel
  exact hrel

theorem agree_labelKind (hR : Respected f f' R) : Agree 0 R R id id labelKind labelKind := by
  have hkind : ∀ (s : String) (k : LabelKind), s ∈ words →
      Agree 0 R R id id (keyword s *> pure k) (keyword s *> pure k) := fun s k hs =>
    (hR.agree_keyword s hs).bind fun _ _ _ => .give rfl
  exact (hkind "node" .node (by decide)).orElse (hkind "edge" .edge (by decide))

theorem agree_aliasName (hR : Respected f f' R) : Agree 0 R R id id aliasName aliasName :=
  (hR.agree_keyword "as").bind fun _ _ _ => hR.atBlank.bind fun _ _ _ => hR.agree_name

theorem agree_label (hR : Respected f f' R) :
    Agree 0 R R (Label.mapSpan f) (Label.mapSpan f') label label := by
  have hparts : Agree 0 R R (Prod.map id (Option.map id)) (Prod.map id (Option.map id))
      (do let value ← name <|> string; blanks
          let alias? ← optional aliasName
          pure (value, alias?))
      (do let value ← name <|> string; blanks
          let alias? ← optional aliasName
          pure (value, alias?)) :=
    (hR.agree_name.orElse hR.agree_string).bind fun _ _ hvalue => hR.atBlank.bind fun _ _ _ =>
      hR.agree_aliasName.optional.bind fun _ _ halias => .give (Prod.ext hvalue halias)
  refine (hR.agree_spanned hparts).bind ?_
  rintro ⟨⟨value, alias?⟩, s⟩ ⟨⟨value', alias'?⟩, s'⟩ h
  simp only [Prod.map_apply, Prod.mk.injEq, id_eq, Option.map_id_fun] at h
  obtain ⟨⟨rfl, rfl⟩, hs⟩ := h
  exact .give (by rw [Label.mapSpan, Label.mapSpan, hs])

section Items

variable {S : Cursor → Cursor → Prop}

structure Closes (f f' : Span → Span) (R S : Cursor → Cursor → Prop) : Prop where
  point : Agree 1 R S id id (exactly ".") (exactly ".")
  span : ∀ {c d c' d'}, R c d → S c' d' →
    f' (.between d.place d'.place) = f (.between c.place c'.place)

theorem agree_ending (hR : Respected f f' R) (hS : Closes f f' R S) {u : α → γ} {v : β → γ} {a : α}
    {b : β} (h : v b = u a) :
    Agree 1 R S u v (do blanks; exactly "."; pure a) (do blanks; exactly "."; pure b) :=
  hR.atBlank.bind fun _ _ _ => hS.point.seq (j := 0) fun _ _ _ => .give h

theorem agree_labelDecl (hR : Respected f f' R) (hS : Closes f f' R S) :
    Agree 1 R S (Item.mapSpan f) (Item.mapSpan f') labelDecl labelDecl := by
  have hlabels := hR.agree_separated (s := ",") (by decide) hR.agree_label
  have hparts : Agree 1 R S (Prod.map id (List.map (Label.mapSpan f)))
      (Prod.map id (List.map (Label.mapSpan f')))
      (do let kind ← labelKind; blanks; keyword "labels"; blanks; exactly ":"; blanks
          let labels ← separated "," label; blanks; exactly "."; pure (kind, labels))
      (do let kind ← labelKind; blanks; keyword "labels"; blanks; exactly ":"; blanks
          let labels ← separated "," label; blanks; exactly "."; pure (kind, labels)) :=
    hR.agree_labelKind.bind fun _ _ hkind => hR.atBlank.bind fun _ _ _ =>
      (hR.agree_keyword "labels").bind fun _ _ _ =>
      hR.atBlank.bind fun _ _ _ => (hR.agree_exactly ":").weaken.bind fun _ _ _ =>
        hR.atBlank.bind fun _ _ _ =>
      hlabels.bind fun _ _ hls => hR.agree_ending hS (Prod.ext hkind hls)
  refine (Agree.spanned hS.span hparts).seq (j := 0) ?_
  rintro ⟨⟨kind, labels⟩, s⟩ ⟨⟨kind', labels'⟩, s'⟩ h
  simp only [Prod.map_apply, Prod.mk.injEq, id_eq] at h
  obtain ⟨⟨rfl, hlabels⟩, hs⟩ := h
  exact .give (by rw [Item.mapSpan, Item.mapSpan, hlabels, hs])

theorem agree_query (hR : Respected f f' R) (hS : Closes f f' R S) :
    Agree 1 R S (Item.mapSpan f) (Item.mapSpan f') query query := by
  have hparts : Agree 1 R S (Prod.map (Prod.map id f) (Formula.mapSpan f))
      (Prod.map (Prod.map id f') (Formula.mapSpan f'))
      (do keyword "query"; blanks; let n ← spanned name; blanks; exactly ":"; blanks
          let body ← formula; blanks; exactly "."; pure (n, body))
      (do keyword "query"; blanks; let n ← spanned name; blanks; exactly ":"; blanks
          let body ← formula; blanks; exactly "."; pure (n, body)) :=
    (hR.agree_keyword "query").bind fun _ _ _ => hR.atBlank.bind fun _ _ _ =>
      (hR.agree_spanned hR.agree_name).bind fun _ _ hn => hR.atBlank.bind fun _ _ _ =>
      (hR.agree_exactly ":").weaken.bind fun _ _ _ => hR.atBlank.bind fun _ _ _ =>
        hR.agree_formula.bind fun _ _ hbody =>
      hR.agree_ending hS (Prod.ext hn hbody)
  refine (Agree.spanned hS.span hparts).seq (j := 0) ?_
  rintro ⟨⟨⟨n, nameSpan⟩, body⟩, s⟩ ⟨⟨⟨n', nameSpan'⟩, body'⟩, s'⟩ h
  simp only [Prod.map_apply, Prod.mk.injEq, id_eq] at h
  obtain ⟨⟨⟨rfl, hname⟩, hbody⟩, hs⟩ := h
  exact .give (by rw [Item.mapSpan, Item.mapSpan, hname, hbody, hs])

theorem agree_rule (hR : Respected f f' R) (hS : Closes f f' R S) :
    Agree 1 R S (Item.mapSpan f) (Item.mapSpan f') rule rule := by
  have hantecedent : Agree 0 R R (Formula.mapSpan f) (Formula.mapSpan f') antecedent antecedent :=
    hR.agree_formula.bind fun _ _ hg => hR.atBlank.bind fun _ _ _ =>
      (hR.agree_exactly "->").weaken.bind fun _ _ _ =>
      .give hg
  have hcalls := hR.agree_separated (s := ",") (by decide) hR.agree_call
  have hparts : Agree 1 R S (Prod.map (Option.map (Formula.mapSpan f)) (List.map (Call.mapSpan f)))
      (Prod.map (Option.map (Formula.mapSpan f')) (List.map (Call.mapSpan f')))
      (do let antecedent? ← optional antecedent; blanks
          let consequence ← separated "," call; blanks; exactly "."
          pure (antecedent?, consequence))
      (do let antecedent? ← optional antecedent; blanks
          let consequence ← separated "," call; blanks; exactly "."
          pure (antecedent?, consequence)) :=
    hantecedent.optional.bind fun _ _ ha => hR.atBlank.bind fun _ _ _ => hcalls.bind fun _ _ hc =>
      hR.agree_ending hS (Prod.ext ha hc)
  refine (Agree.spanned hS.span hparts).seq (j := 0) ?_
  rintro ⟨⟨antecedent?, consequence⟩, s⟩ ⟨⟨antecedent'?, consequence'⟩, s'⟩ h
  simp only [Prod.map_apply, Prod.mk.injEq] at h
  obtain ⟨⟨ha, hc⟩, hs⟩ := h
  exact .give (by rw [Item.mapSpan, Item.mapSpan, ha, hc, hs])

theorem agree_item (hR : Respected f f' R) (hS : Closes f f' R S) :
    Agree 1 R S (Item.mapSpan f) (Item.mapSpan f') item item :=
  (hR.agree_labelDecl hS).orElse ((hR.agree_query hS).orElse (hR.agree_rule hS))

end Items

end Respected

end GraphRules.Script
