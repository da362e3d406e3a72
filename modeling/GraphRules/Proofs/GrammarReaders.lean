import GraphRules.Proofs.GrammarTokens

/-! Readers by the grammar. A reader goes through a text as its expression does: it fails where the
expression fails, it stops where the expression stops, and its value has to do with the nodes that
the expression leaves. One lemma for each way to put readers together carries this over from tokens
to items. -/
namespace GraphRules

def Script.Cursor.spot (c : Script.Cursor) : Grammar.Spot := ⟨c.rest, c.place⟩

namespace Grammar

open Script

variable {α β : Type} {ps qs : List Pair}

abbrev Excess := Option (String × Span)

inductive Under (q : Pair) : List Pair → Prop
  | here {ps : List Pair} : q ∈ ps → Under q ps
  | inside {p : Pair} {ps : List Pair} : p ∈ ps → Under q p.inner → Under q ps

theorem Under.mono {q : Pair} (h : Under q ps) (hsub : ∀ p ∈ ps, p ∈ qs) : Under q qs := by
  cases h with
  | here hq => exact .here (hsub q hq)
  | inside hp hq => exact .inside (hsub _ hp) hq

def Justified (ps : List Pair) (w : Excess) : Prop :=
  ∀ x ∈ w, ∃ q, Under q ps ∧ q.rule = .integer ∧ q.text = x.1 ∧ q.span = x.2 ∧
    fitsWord (intValue q.text) = false

theorem justified_none (ps : List Pair) : Justified ps none := by
  intro x hx
  cases hx

theorem Justified.append {v w : Excess} (h : Justified ps v) (h' : Justified qs w) :
    Justified (ps ++ qs) (v.or w) := by
  intro x hx
  rcases Option.or_eq_some_iff.mp hx with hv | ⟨_, hw⟩
  · obtain ⟨q, hq, hrest⟩ := h x hv
    exact ⟨q, hq.mono fun _ hp => List.mem_append_left _ hp, hrest⟩
  · obtain ⟨q, hq, hrest⟩ := h' x hw
    exact ⟨q, hq.mono fun _ hp => List.mem_append_right _ hp, hrest⟩

theorem Justified.node {w : Excess} (h : Justified ps w) (r : Rule) (text : String) (span : Span) :
    Justified [.mk r text span ps] w := by
  intro x hx
  obtain ⟨q, hq, hrest⟩ := h x hx
  exact ⟨q, .inside (List.mem_singleton_self _) hq, hrest⟩

abbrev Tie (α : Type) := List Pair → Excess → α → Prop

def Agrees (k : Nat) (B : Tie α) (c : Cursor) (x : α × Cursor) (y : Spot × List Pair) : Prop :=
  y.1 = x.2.spot ∧ x.2.rest.length + k ≤ c.rest.length ∧
    ∃ w, x.2.oversized? = c.oversized?.or w ∧ Justified y.2 w ∧ B y.2 w x.1

def Follows (k n : Nat) (e : Expr) (p : Reader α) (B : Tie α) : Prop :=
  ∀ c : Cursor, c.rest.length < n → ∃ o, Matches .free e c.spot o ∧
    Option.Rel (Agrees k B c) (p c) o

def Then (A : Tie α) (B : α → Tie β) : Tie β := fun ps w b =>
  ∃ qs rs u v a, ps = qs ++ rs ∧ w = u.or v ∧ A qs u a ∧ B a rs v b

def Maybe (B : Tie α) : Tie (Option α) := fun ps w a? =>
  match a? with
  | none => ps = [] ∧ w = none
  | some a => B ps w a

inductive Parts (B : Tie α) : Tie (List α)
  | nil : Parts B [] none []
  | cons {ps qs v w a as} : B ps v a → Parts B qs w as → Parts B (ps ++ qs) (v.or w) (a :: as)

def Bare : Tie α := fun ps w _ => ps = [] ∧ w = none

section Combinators

variable {i j k n : Nat} {a b e : Expr} {p q : Reader α} {A B : Tie α} {r : Rule}

theorem Agrees.imp {c : Cursor} {x : α × Cursor} {y : Spot × List Pair} (h : Agrees k A c x y)
    (hjk : j ≤ k) (hAB : ∀ ps w a, A ps w a → B ps w a) : Agrees j B c x y := by
  obtain ⟨hspot, hlen, w, hover, hjust, hA⟩ := h
  exact ⟨hspot, by omega, w, hover, hjust, hAB _ _ _ hA⟩

theorem Follows.imp (h : Follows k n e p A) (hAB : ∀ ps w a, A ps w a → B ps w a) :
    Follows k n e p B := by
  intro c hc
  obtain ⟨o, ho, hrel⟩ := h c hc
  exact ⟨o, ho, rel_imp hrel fun _ _ hxy => hxy.imp (Nat.le_refl _) hAB⟩

theorem Follows.weaken (h : Follows k n e p A) : Follows 0 n e p A := by
  intro c hc
  obtain ⟨o, ho, hrel⟩ := h c hc
  exact ⟨o, ho, rel_imp hrel fun _ _ hxy => hxy.imp (Nat.zero_le _) fun _ _ _ hA => hA⟩

theorem Follows.mono {m : Nat} (h : Follows k n e p A) (hmn : m ≤ n) : Follows k m e p A :=
  fun c hc => h c (by omega)

theorem matches_blanks (c : Cursor) :
    Matches .atomic .gap c.spot (some ((c.advance (blankLength c.rest)).spot, [])) := by
  obtain ⟨o, ho, hrel⟩ := silent_gap c.spot
  obtain ⟨⟨q, ps⟩, rfl, hnext, hnone⟩ := rel_some_left hrel
  have hq : q = (c.advance (blankLength c.rest)).spot := hnext
  have hps : ps = [] := List.eq_nil_iff_forall_not_mem.mpr hnone
  rwa [hq, hps] at ho

theorem Follows.seq {q : α → Reader β} {B : α → Tie β} (ha : Follows i (n + i) a p A)
    (hb : ∀ x, Follows j n b (q x) (B x)) :
    Follows (i + j) (n + i) (.seq a b) (p >>= fun x => blanks >>= fun _ => q x) (Then A B) := by
  intro c hc
  obtain ⟨o, ho, hrel⟩ := ha c hc
  rw [bind_run]
  generalize p c = r at hrel
  cases hrel with
  | none => exact ⟨_, .seq_miss ho, .none⟩
  | @some x y hxy =>
    obtain ⟨hspot, hlen, u, hover, hjust, hA⟩ := hxy
    let d := x.2.advance (blankLength x.2.rest)
    have hd : d.rest.length ≤ x.2.rest.length := by
      rw [Cursor.length_advance]
      omega
    obtain ⟨o', ho', hrel'⟩ := hb x.1 d (by omega)
    obtain ⟨z, ys⟩ := y
    change z = x.2.spot at hspot
    subst hspot
    refine ⟨_, .seq ho (matches_blanks x.2) ho', ?_⟩
    change Option.Rel _ (q x.1 d) _
    generalize q x.1 d = r at hrel'
    cases hrel' with
    | none => exact .none
    | @some x' y' hxy' =>
      obtain ⟨hspot', hlen', v, hover', hjust', hB⟩ := hxy'
      refine .some ⟨hspot', by omega, u.or v, ?_, ?_, ?_⟩
      · rw [hover', ← Option.or_assoc, ← hover]
        rfl
      · simpa using hjust.append hjust'
      · exact ⟨ys, y'.2, u, v, x.1, by simp, rfl, hA, hB⟩

theorem Follows.bind {q : α → Reader β} {B : α → Tie β} (ha : Follows 0 n a p A)
    (hb : ∀ x, Follows k n b (q x) (B x)) :
    Follows k n (.seq a b) (p >>= fun x => blanks >>= fun _ => q x) (Then A B) :=
  Nat.zero_add k ▸ ha.seq hb

theorem Follows.give {f : α → Reader β} {B : Tie β} (h : Follows k n e p A)
    (hf : ∀ ps w a, A ps w a → ∃ b, f a = pure b ∧ B ps w b) : Follows k n e (p >>= f) B := by
  intro c hc
  obtain ⟨o, ho, hrel⟩ := h c hc
  rw [bind_run]
  generalize p c = r at hrel
  cases hrel with
  | none => exact ⟨_, ho, .none⟩
  | @some x y hxy =>
    obtain ⟨hspot, hlen, w, hover, hjust, hA⟩ := hxy
    obtain ⟨b, hb, hB⟩ := hf _ _ _ hA
    refine ⟨_, ho, ?_⟩
    change Option.Rel _ (f x.1 x.2) _
    rw [hb]
    exact .some ⟨hspot, hlen, w, hover, hjust, hB⟩

theorem Follows.map {f : α → β} {B : Tie β} (h : Follows k n e p A)
    (hf : ∀ ps w a, A ps w a → B ps w (f a)) : Follows k n e (f <$> p) B := by
  have hbind : f <$> p = p >>= fun a => pure (f a) := by
    funext c
    rw [map_run, bind_run]
    cases p c <;> rfl
  rw [hbind]
  exact h.give fun ps w a hA => ⟨f a, rfl, hf ps w a hA⟩

theorem Follows.orElse (ha : Follows k n a p A) (hb : Follows k n b q A) :
    Follows k n (.choice a b) (p <|> q) A := by
  intro c hc
  obtain ⟨o, ho, hrel⟩ := ha c hc
  rw [orElse_run]
  generalize p c = r at hrel
  cases hrel with
  | none =>
    obtain ⟨o', ho', hrel'⟩ := hb c hc
    exact ⟨_, .choice_right ho ho', hrel'⟩
  | some hxy => exact ⟨_, .choice_left ho, .some hxy⟩

theorem Follows.optional (h : Follows k n e p A) : Follows 0 n (.opt e) (optional p) (Maybe A) := by
  intro c hc
  obtain ⟨o, ho, hrel⟩ := h c hc
  change ∃ o, _ ∧ Option.Rel _ ((some <$> p <|> pure none : Reader (Option α)) c) o
  rw [orElse_run, map_run]
  generalize p c = r at hrel
  cases hrel with
  | none =>
    exact ⟨_, .opt_miss ho, .some ⟨rfl, Nat.le_refl _, none, by simp, justified_none _, rfl, rfl⟩⟩
  | some hxy =>
    obtain ⟨hspot, hlen, w, hover, hjust, hA⟩ := hxy
    exact ⟨_, .opt_hit ho,
      .some ⟨hspot, Nat.le_trans (Nat.le_add_right _ k) hlen, w, hover, hjust, hA⟩⟩

/-- After the first of several parts, blanks are passed before each of them. -/
theorem Follows.again (h : Follows 1 n e p A) (m : Nat) {c : Cursor} (hc : c.rest.length < n)
    (hm : c.rest.length ≤ m) :
    ∃ x y, several (do blanks; p) m c = some x ∧ Matches .free (.again e) c.spot (some y) ∧
      Agrees 0 (Parts A) c x y := by
  have hstop : ∀ c : Cursor, Agrees 0 (Parts A) c ([], c) (c.spot, []) := fun c =>
    ⟨rfl, Nat.le_refl _, none, by simp, justified_none _, .nil⟩
  induction m generalizing c with
  | zero =>
    obtain ⟨o, ho, hrel⟩ :=
      h (c.advance (blankLength c.rest)) (by rw [Cursor.length_advance]; omega)
    cases hp : p (c.advance (blankLength c.rest)) with
    | none =>
      rw [hp] at hrel
      rw [rel_none_left hrel] at ho
      exact ⟨_, _, rfl, .again_stop (matches_blanks c) ho, hstop c⟩
    | some x =>
      rw [hp] at hrel
      obtain ⟨_, _, _, hlen, _⟩ := rel_some_left hrel
      rw [Cursor.length_advance] at hlen
      omega
  | succ m ih =>
    obtain ⟨o, ho, hrel⟩ :=
      h (c.advance (blankLength c.rest)) (by rw [Cursor.length_advance]; omega)
    cases hp : p (c.advance (blankLength c.rest)) with
    | none =>
      rw [hp] at hrel
      rw [rel_none_left hrel] at ho
      have hfirst : (do blanks; p : Reader α) c = none := hp
      exact ⟨_, _, several_of_none hfirst _, .again_stop (matches_blanks c) ho, hstop c⟩
    | some x =>
      rw [hp] at hrel
      obtain ⟨⟨z, ys⟩, rfl, hspot, hlen, u, hover, hjust, hA⟩ := rel_some_left hrel
      rw [Cursor.length_advance] at hlen
      obtain ⟨x', y', hx', hy', hspot', hlen', v, hover', hjust', hparts⟩ :=
        ih (c := x.2) (by omega) (by omega)
      change z = x.2.spot at hspot
      subst hspot
      refine ⟨(x.1 :: x'.1, x'.2), _, ?_, .again_more (matches_blanks c) ho hy',
        hspot', ?_, u.or v, ?_, ?_, ?_⟩
      · have hfirst : (do blanks; p : Reader α) c = some x := hp
        simp only [several, hfirst, hx']
      · change x'.2.rest.length + 0 ≤ _
        omega
      · rw [hover', ← Option.or_assoc, hover]
        rfl
      · exact hjust.append hjust'
      · exact .cons hA hparts

def starred (p : Reader α) : Reader (List α) := fun c =>
  match p c with
  | none => some ([], c)
  | some x => (many (do blanks; p) x.2).map fun y => (x.1 :: y.1, y.2)

theorem Follows.star (h : Follows 1 n e p A) : Follows 0 n (.star e) (starred p) (Parts A) := by
  intro c hc
  obtain ⟨o, ho, hrel⟩ := h c hc
  unfold starred
  generalize p c = r at hrel
  cases hrel with
  | none =>
    exact ⟨_, .star_stop ho, .some ⟨rfl, Nat.le_refl _, none, by simp, justified_none _, .nil⟩⟩
  | @some x y hxy =>
    obtain ⟨hspot, hlen, u, hover, hjust, hA⟩ := hxy
    obtain ⟨x', y', hx', hy', hspot', hlen', v, hover', hjust', hparts⟩ :=
      h.again x.2.rest.length (c := x.2) (by omega) (Nat.le_refl _)
    obtain ⟨z, ys⟩ := y
    change z = x.2.spot at hspot
    subst hspot
    refine ⟨_, .star_more ho hy', ?_⟩
    have hmany : many (do blanks; p) x.2 = some x' := hx'
    simp only [hmany, Option.map_some]
    refine .some ⟨hspot', ?_, u.or v, ?_, hjust.append hjust', .cons hA hparts⟩
    · change x'.2.rest.length + 0 ≤ _
      omega
    · rw [hover', ← Option.or_assoc, hover]

theorem separated_eq (s : String) (p : Reader α) :
    separated s p =
      p >>= fun x => blanks >>= fun _ => starred (following s p) >>= fun xs => pure (x :: xs) := by
  have hrun : ∀ c, optional (following s p) c =
      ((following s p c).map fun y => (some y.1, y.2)).or (some (none, c)) := by
    intro c
    change (some <$> following s p <|> pure none : Reader (Option α)) c = _
    rw [orElse_run, map_run]
    rfl
  have hblanks : ∀ c, blanks c = some ((), c.advance (blankLength c.rest)) := fun _ => rfl
  funext c
  cases hp : p c with
  | none => simp [separated, bind_run, hp]
  | some x =>
    simp only [separated, bind_run, hp, Option.bind_some, hblanks, hrun, starred]
    cases following s p (x.2.advance (blankLength x.2.rest)) with
    | none => rfl
    | some y =>
      cases hmany : many (do blanks; following s p) y.2 <;>
        simp [hmany, map_run, pure_run]

theorem follows_exactly (s : String) (hs : 0 < s.length) :
    Follows 1 n (.text s) (exactly s) Bare := by
  intro c _
  unfold exactly
  by_cases h : s.toList <+: c.rest
  · rw [if_pos (List.isPrefixOf_iff_prefix.mpr h)]
    have hlen := h.length_le
    rw [String.length_toList] at hlen
    refine ⟨_, .text_hit h,
      .some ⟨rfl, ?_, none, by simp [Cursor.advance], justified_none _, rfl, rfl⟩⟩
    rw [Cursor.length_advance]
    omega
  · rw [if_neg (fun h' => h (List.isPrefixOf_iff_prefix.mp h'))]
    exact ⟨_, .text_miss h, .none⟩

theorem Follows.mark {q : Reader β} {B : Tie β} (s : String) (hs : 0 < s.length)
    (h : Follows k n e q B) :
    Follows (1 + k) (n + 1) (.seq (.text s) e) (exactly s >>= fun _ => blanks >>= fun _ => q)
      B := by
  refine ((follows_exactly s hs).seq fun _ => h).imp ?_
  rintro ps w b ⟨qs, rs, u, v, x, rfl, rfl, ⟨rfl, rfl⟩, hB⟩
  simpa using hB

theorem Follows.closing {B : Tie β} (s : String) (hs : 0 < s.length)
    (h : Follows 0 n e p A) (f : α → β) (hf : ∀ ps w a, A ps w a → B ps w (f a)) :
    Follows 0 n (.seq e (.text s))
      (p >>= fun a => blanks >>= fun _ => exactly s >>= fun _ => pure (f a)) B := by
  refine (h.bind fun a => (follows_exactly s hs).weaken.give (B := fun ps w b => ps = [] ∧
    w = none ∧ b = f a) ?_).imp ?_
  · rintro ps w _ ⟨rfl, rfl⟩
    exact ⟨_, rfl, rfl, rfl, rfl⟩
  · rintro ps w b ⟨qs, _, u, _, a, rfl, rfl, ha, rfl, rfl, rfl⟩
    simpa using hf qs u a ha

theorem Follows.separated (s : String) (hs : 0 < s.length) (h : Follows 0 n e p A) :
    Follows 0 n (.list e s) (separated s p) fun ps w as => Parts A ps w as ∧ as ≠ [] := by
  have hnext : Follows 1 n (.seq (.text s) e) (following s p) A :=
    (h.mark s hs).mono (Nat.le_succ n)
  rw [separated_eq]
  refine (h.bind fun x =>
    hnext.star.give (B := fun ps w xs => ∃ ys, xs = x :: ys ∧ Parts A ps w ys) fun ps w ys hys =>
    ⟨x :: ys, rfl, ys, rfl, hys⟩).imp ?_
  rintro ps w xs ⟨qs, rs, u, v, x, rfl, rfl, hA, ys, rfl, hys⟩
  exact ⟨.cons hA hys, List.cons_ne_nil _ _⟩

theorem Follows.rule (h : Follows k n r.body p A) (hr : r.kind = .silent) :
    Follows k n (.call r) p A := by
  intro c hc
  obtain ⟨o, ho, hrel⟩ := h c hc
  have hclose : r.close .free c.spot = id := by
    funext x
    simp [Rule.close, hr, Kind.leaves]
  have hcall := Matches.call (m := .free) (r := r) (by rw [hr]; exact ho)
  rw [hclose, Option.map_id] at hcall
  exact ⟨_, hcall, hrel⟩

theorem Follows.node (h : Follows k n r.body p A) (hr : r.kind = .plain) :
    Follows k n (.call r) (spanned p) fun ps w x => ∃ text inner, ps = [.mk r text x.2 inner] ∧
      A inner w x.1 := by
  intro c hc
  obtain ⟨o, ho, hrel⟩ := h c hc
  have hclose : ∀ x, r.close .free c.spot x =
      (x.1, [.mk r (c.spot.upTo x.1) (.between c.place x.1.place) x.2]) := by
    intro x
    simp [Rule.close, hr, Kind.leaves]
    rfl
  refine ⟨_, .call (by rw [hr]; exact ho), ?_⟩
  unfold spanned
  generalize p c = t at hrel
  cases hrel with
  | none => exact .none
  | @some x y hxy =>
    obtain ⟨hspot, hlen, w, hover, hjust, hA⟩ := hxy
    rw [Option.map_some, hclose, hspot]
    exact .some ⟨rfl, hlen, w, hover, hjust.node _ _ _, _, _, rfl, hA⟩

theorem spanned_fst (p : Reader α) : Prod.fst <$> spanned p = p := by
  funext c
  rw [map_run]
  unfold spanned
  cases p c <;> rfl

theorem Follows.unspanned {B : Tie (α × Span)} (h : Follows k n e (spanned p) B) :
    Follows k n e p fun ps w a => ∃ span, B ps w (a, span) :=
  spanned_fst p ▸ h.map fun _ _ x hx => ⟨x.2, hx⟩

def Spelled (r : Rule) (m : Scan α) : Tie (α × Span) := fun ps w x =>
  w = none ∧ ∃ cs k inner, m cs = some (x.1, k) ∧ ps = [.mk r (String.ofList (cs.take k)) x.2 inner]

theorem follows_token {m : Scan α} {f : Measure} {Q : Pair → Prop}
    (h : Takes (r.kind.within .free) r.body f Q) (hleaves : r.kind.leaves .free)
    (hm : ∀ cs, f cs = (m cs).map Prod.snd) :
    Follows 0 n (.call r) (spanned (scanned m)) (Spelled r m) := by
  intro c _
  obtain ⟨o, ho, hrel⟩ := h.node hleaves c.spot
  refine ⟨o, ho, ?_⟩
  rw [hm] at hrel
  unfold spanned scanned
  change Option.Rel _ (Option.map Prod.snd (m c.rest)) _ at hrel
  cases hfound : m c.rest with
  | none =>
    rw [hfound] at hrel
    rw [rel_none_left hrel]
    exact .none
  | some x =>
    rw [hfound] at hrel
    obtain ⟨⟨z, ys⟩, rfl, hspot, inner, hys⟩ := rel_some_left hrel
    refine .some ⟨hspot, ?_, none, by simp [Cursor.advance], justified_none _, rfl,
      c.rest, x.2, inner, hfound, hys⟩
    simp only [Cursor.length_advance]
    omega

end Combinators

end Grammar

end GraphRules
