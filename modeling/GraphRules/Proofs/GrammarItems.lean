import GraphRules.Proofs.Decimals
import GraphRules.Proofs.GrammarReaders

/-! Items by the grammar. What a reader gives is what is built from the nodes that its rule leaves,
from terms up to items. Nothing can go wrong with these nodes but a whole number that is too large.
-/
namespace GraphRules.Grammar

open Script

variable {α β : Type} {n : Nat} {w : Excess} {ps : List Pair} {as : List α}

def verdict (w : Excess) (a : α) : Except Defect α :=
  match w with
  | none => .ok a
  | some x => .error (.oversized x.1 x.2)

theorem verdict_bind {u v : Excess} {a : α} {b : β} {f : α → Except Defect β}
    (h : f a = verdict v b) : (verdict u a >>= f) = verdict (u.or v) b := by
  cases u with
  | none => exact h
  | some x => rfl

theorem verdict_map (w : Excess) (a : α) (f : α → β) : f <$> verdict w a = verdict w (f a) := by
  cases w <;> rfl

theorem verdict_give (w : Excess) (a : α) (f : α → β) :
    (verdict w a >>= fun x => pure (f x)) = verdict w (f a) := by
  cases w <;> rfl

def Built (build : Pair → Except Defect α) : Tie α :=
  fun ps w a => ∃ q, ps = [q] ∧ build q = verdict w a

def Node (r : Rule) (build : Pair → Except Defect α) : Tie α := fun ps w a =>
  ∃ q, ps = [q] ∧ q.rule = r ∧ build q = verdict w a

theorem Node.built {r : Rule} {build : Pair → Except Defect α} {a : α} (h : Node r build ps w a) :
    Built build ps w a := by
  obtain ⟨q, hps, _, hq⟩ := h
  exact ⟨q, hps, hq⟩

theorem Parts.imp {A B : Tie α} (hAB : ∀ ps w a, A ps w a → B ps w a) (h : Parts A ps w as) :
    Parts B ps w as := by
  induction h with
  | nil => exact .nil
  | cons ha _ ih => exact .cons (hAB _ _ _ ha) ih

theorem Parts.build {build : Pair → Except Defect α} (all : List Pair → Except Defect (List α))
    (hnil : all [] = .ok [])
    (hcons : ∀ q qs, all (q :: qs) = do let a ← build q; let as ← all qs; pure (a :: as))
    (h : Parts (Built build) ps w as) : all ps = verdict w as := by
  induction h with
  | nil => exact hnil
  | cons ha _ ih =>
    obtain ⟨q, rfl, hq⟩ := ha
    rw [List.singleton_append, hcons, hq]
    refine verdict_bind ?_
    rw [ih]
    exact verdict_give _ _ _

theorem Parts.mapM {build : Pair → Except Defect α} (h : Parts (Built build) ps w as) :
    ps.mapM build = verdict w as :=
  h.build (List.mapM build) List.mapM_nil fun _ _ => List.mapM_cons

section Terms

variable {r : Rule} {f : Measure} {Q : Pair → Prop}

theorem follows_taken (h : Takes (r.kind.within .free) r.body f Q) (hleaves : r.kind.leaves .free) :
    Follows 0 n (.call r) (spanned (taken f)) fun ps w x => w = none ∧ ∃ cs k inner, f cs = some k ∧
      x.1 = String.ofList (cs.take k) ∧ ps = [.mk r x.1 x.2 inner] := by
  rw [taken_eq]
  refine (follows_token h hleaves fun cs => by cases h : f cs <;> simp [textScan, h]).imp ?_
  rintro ps w x ⟨rfl, cs, k, inner, hm, rfl⟩
  obtain ⟨k', hk', hx⟩ := Option.map_eq_some_iff.mp hm
  simp only [Prod.mk.injEq] at hx
  obtain ⟨hx, rfl⟩ := hx
  exact ⟨rfl, cs, k', inner, hk', hx.symm, by rw [hx]⟩

theorem follows_name : Follows 0 n (.call .ident) name fun ps w s => w = none ∧
    ∃ span inner, ps = [.mk .ident s span inner] := by
  refine (follows_taken (r := .ident) silent_ident rfl).unspanned.imp ?_
  rintro ps w s ⟨span, rfl, _, _, inner, _, _, rfl⟩
  exact ⟨rfl, span, inner, rfl⟩

theorem follows_keyword {s : String} (hbody : r.body = .word s) (hkind : r.kind = .atomic) :
    Follows 0 n (.call r) (keyword s) fun ps w _ => w = none ∧ ∃ q, ps = [q] ∧ q.rule = r := by
  have htakes : Takes (r.kind.within .free) r.body (fun cs => (wordScan s cs).map Prod.snd) fun _ =>
    False := by
    rw [hbody, hkind]
    exact silent_word s
  rw [keyword_eq]
  refine (follows_token htakes (by rw [hkind]; rfl) fun _ => rfl).unspanned.imp ?_
  rintro ps w _ ⟨span, rfl, cs, k, inner, _, rfl⟩
  exact ⟨rfl, _, rfl, rfl⟩

theorem follows_argOf {kind : String → ArgKind} (h : Takes (r.kind.within .free) r.body f Q)
    (hleaves : r.kind.leaves .free)
    (hkind : ∀ cs k span inner, f cs = some k →
      (Pair.mk r (String.ofList (cs.take k)) span inner).argKind = .ok
      (kind (String.ofList (cs.take k)))) :
    Follows 0 n (.call r) (argOf f kind) (Built Pair.arg) := by
  refine (follows_taken h hleaves).give ?_
  rintro ps w ⟨s, span⟩ ⟨rfl, cs, k, inner, hk, rfl, rfl⟩
  refine ⟨_, rfl, _, rfl, ?_⟩
  rw [Pair.arg, hkind cs k _ _ hk]
  rfl

theorem follows_quoted :
    Follows 0 n (.call .string) (spanned (taken stringLength?)) fun ps w x => w = none ∧
      ∃ q, ps = [q] ∧ q.rule = .string ∧ q.span = x.2 ∧ q.stringValue = stringValue x.1 := by
  intro c _
  obtain ⟨o, ho, hrel⟩ := matches_string c.spot
  refine ⟨_, .call ho, ?_⟩
  unfold spanned taken
  change Option.Rel _ (stringLength? c.rest) _ at hrel
  cases hk : stringLength? c.rest with
  | none =>
    rw [hk] at hrel
    rw [rel_none_left hrel]
    exact .none
  | some k =>
    rw [hk] at hrel
    obtain ⟨⟨z, ys⟩, rfl, hspot, q, hys, hq⟩ := rel_some_left hrel
    change z = (c.advance k).spot at hspot
    change ys = [q] at hys
    subst hspot hys
    refine .some ⟨rfl, ?_, none, by simp [Cursor.advance], justified_none _,
      rfl, _, rfl, rfl, rfl, ?_⟩
    · simp only [Cursor.length_advance]
      omega
    · simp only [Pair.stringValue, Pair.inner, hq, stringValue, String.toList_ofList]
      rfl

theorem follows_string : Follows 0 n (.call .string) string fun ps w s => w = none ∧
    ∃ q, ps = [q] ∧ q.rule = .string ∧ q.stringValue = s := by
  refine follows_quoted.unspanned.give ?_
  rintro ps w s ⟨span, rfl, q, rfl, hrule, _, hvalue⟩
  exact ⟨_, rfl, rfl, q, rfl, hrule, hvalue⟩

theorem follows_integer : Follows 0 n (.call .integer) integer (Built Pair.arg) := by
  intro c hc
  obtain ⟨o, ho, hrel⟩ := follows_taken (r := .integer) silent_integer rfl c hc
  refine ⟨o, ho, ?_⟩
  unfold integer
  rw [bind_run]
  generalize spanned (taken integerLength?) c = t at hrel
  cases hrel with
  | none => exact .none
  | @some x y hxy =>
    obtain ⟨⟨s, span⟩, d⟩ := x
    obtain ⟨hspot, hlen, w, hover, _, rfl, _, _, inner, _, _, hps⟩ := hxy
    change d.oversized? = c.oversized?.or none at hover
    rw [Option.or_none] at hover
    change Option.Rel _ (some ((⟨.int (intValue s), span⟩ : Arg),
      if fitsWord (intValue s) || d.oversized?.isSome then d
      else { d with oversized? := some (s, span) })) _
    by_cases hfits : fitsWord (intValue s)
    · refine .some ⟨?_, ?_, none, ?_, justified_none _, _, hps, ?_⟩
      · simpa [hfits] using hspot
      · simpa [hfits] using hlen
      · simp [hfits, hover]
      · simp [Pair.arg, Pair.argKind, Pair.rule, Pair.text, Pair.span, hfits, verdict]
    · refine .some ⟨?_, ?_, some (s, span), ?_, ?_, _, hps, ?_⟩
      · by_cases hsome : d.oversized?.isSome <;> simpa [hfits, hsome, Cursor.spot] using hspot
      · by_cases hsome : d.oversized?.isSome <;> simpa [hfits, hsome] using hlen
      · rw [← hover]
        cases hd : d.oversized? <;> simp [hfits, hd]
      · rw [hps]
        rintro x ⟨⟩
        exact ⟨_, .here (List.mem_singleton_self _), rfl, rfl,
          rfl, by simpa [Pair.text] using hfits⟩
      · simp [Pair.arg, Pair.argKind, Pair.rule, Pair.text, Pair.span, hfits, verdict]

theorem follows_arg : Follows 0 n (.call .term) arg (Built Pair.arg) := by
  have hfloat : Follows 0 n (.call .float) (argOf floatLength? fun s => .float (floatValue s))
      (Built Pair.arg) := by
    refine follows_argOf silent_float rfl fun cs k span inner hk => ?_
    obtain ⟨negative, ds, es, r, rfl, hds, hes, _, rfl⟩ := floatLength?_eq_some hk
    have htake : (minus negative ++ ds ++ '.' :: es ++ r).take
        ((minus negative).length + ds.length + 1 + es.length) =
        minus negative ++ ds ++ '.' :: es := List.take_left' (by simp; omega)
    rw [htake]
    simp only [Pair.argKind, Pair.rule, Pair.text, floatValue, String.toList_ofList,
      read?_decimal negative hds hes]
    rfl
  have hstring : Follows 0 n (.call .string) (argOf stringLength? fun s => .quoted (stringValue s))
      (Built Pair.arg) := by
    refine follows_quoted.give ?_
    rintro ps w ⟨s, span⟩ ⟨rfl, q, rfl, hrule, hspan, hvalue⟩
    refine ⟨_, rfl, q, rfl, ?_⟩
    simp only [Pair.arg, Pair.argKind, hrule, hvalue, hspan]
    rfl
  refine Follows.rule (hfloat.orElse (follows_integer.orElse (hstring.orElse ?_))) rfl
  refine (follows_argOf (r := .wildcard) silent_wildcard rfl fun _ _ _ _ _ => rfl).orElse ?_
  exact (follows_argOf (r := .var) silent_var rfl fun _ _ _ _ _ => rfl).orElse
    (follows_argOf (r := .ident) silent_ident rfl fun _ _ _ _ _ => rfl)

end Terms

section Formulas

theorem follows_arguments :
    Follows 0 n (.seq (.text "(") (.seq (.opt (.list (.call .term) ",")) (.text ")"))) arguments
    fun ps w as => ps.mapM Pair.arg = verdict w as := by
  have hargs : Follows 0 n (.list (.call .term) ",") (separated "," arg) fun ps w as =>
    ps.mapM Pair.arg = verdict w as :=
    (follows_arg.separated "," (by decide)).imp fun _ _ _ h => h.1.mapM
  have hlist :=
    hargs.optional.closing (B := fun ps w as => ps.mapM Pair.arg = verdict w as) ")" (by decide)
    (fun args? => args?.getD []) ?_
  · exact (hlist.mark "(" (by decide)).weaken.mono (Nat.le_succ n)
  · intro ps w args? h
    cases args? with
    | none =>
      obtain ⟨rfl, rfl⟩ := h
      rfl
    | some args => exact h

theorem follows_call : Follows 0 n (.call .predicate) call (Node .predicate Pair.call) := by
  have hparts : Follows 0 n (Rule.body .predicate)
      (do let s ← name; blanks; let args? ← optional arguments; pure (s, args?))
      fun ps w x => ∃ q qs, ps = q :: qs ∧ q.text = x.1 ∧
        qs.mapM Pair.arg = verdict w (x.2.getD []) := by
    refine (follows_name.bind fun s => follows_arguments.optional.give (B := fun ps w x => x.1 = s ∧
      ps.mapM Pair.arg = verdict w (x.2.getD [])) ?_).imp ?_
    · rintro ps w args? hargs?
      refine ⟨_, rfl, rfl, ?_⟩
      cases args? with
      | none =>
        obtain ⟨rfl, rfl⟩ := hargs?
        rfl
      | some args => exact hargs?
    · rintro ps w x ⟨_, rs, _, v, s, rfl, rfl, ⟨rfl, span, inner, rfl⟩, rfl, hargs⟩
      exact ⟨_, rs, rfl, rfl, hargs⟩
  refine (hparts.node rfl).give ?_
  rintro ps w ⟨⟨s, args?⟩, span⟩ ⟨text, inner, rfl, q, qs, rfl, rfl, hargs⟩
  refine ⟨_, rfl, _, rfl, rfl, ?_⟩
  change (qs.mapM Pair.arg >>= fun args => pure _) = _
  rw [hargs]
  exact verdict_give w _ _

theorem symbolScan_of_comparatorScan {cs : List Char} {x : Comparator × Nat}
    (h : comparatorScan cs = some x) : symbolScan x.1 cs = some x := by
  have hfirst : ∀ k, symbolScan k cs = some x → symbolScan x.1 cs = some x := by
    intro k hk
    have hx : x.1 = k := by
      unfold symbolScan at hk
      split at hk <;> cases hk
      rfl
    rw [hx, hk]
  unfold comparatorScan at h
  simp only [Option.or_eq_some_iff] at h
  rcases h with h | ⟨_, h | ⟨_, h | ⟨_, h | ⟨_, h | ⟨_, h⟩⟩⟩⟩⟩ <;> exact hfirst _ h

theorem follows_comparator : Follows 0 n (.call .compareOp) comparator fun ps w op => w = none ∧
    ∃ q, ps = [q] ∧ Comparator.ofSymbol? q.text = some op := by
  have hsymbol : ∀ (k : Comparator) cs,
      Measure.text k.symbol cs = (symbolScan k cs).map Prod.snd := by
    intro k cs
    unfold Measure.text symbolScan
    split <;> rfl
  have htakes : Takes .free (Rule.body .compareOp)
      (fun cs => (comparatorScan cs).map Prod.snd) fun _ => False := by
    refine ((takes_text "==").choice
      ((takes_text "!=").choice ((takes_text "<=").choice ((takes_text ">=").choice
      ((takes_text "<").choice (takes_text ">")))))).congr fun cs => ?_
    change _ = (Measure.text Comparator.eq.symbol cs).or ((Measure.text Comparator.ne.symbol cs).or
      ((Measure.text Comparator.le.symbol cs).or ((Measure.text Comparator.ge.symbol cs).or
      ((Measure.text Comparator.lt.symbol cs).or (Measure.text Comparator.gt.symbol cs)))))
    simp only [hsymbol, comparatorScan, Option.map_or]
  rw [comparator_eq]
  refine (follows_token (r := .compareOp) htakes rfl fun _ => rfl).unspanned.imp ?_
  rintro ps w op ⟨span, rfl, cs, k, inner, hscan, rfl⟩
  refine ⟨rfl, _, rfl, ?_⟩
  have hfound := symbolScan_of_comparatorScan hscan
  simp only [symbolScan, Option.ite_none_right_eq_some, Option.some.injEq,
    Prod.mk.injEq, true_and] at hfound
  obtain ⟨hstarts, rfl⟩ := hfound
  obtain ⟨r, rfl⟩ := List.isPrefixOf_iff_prefix.mp hstarts
  rw [Pair.text, List.take_left' String.length_toList, String.ofList_toList]
  cases op <;> decide

theorem follows_comparison :
    Follows 0 n (.call .comparison) comparison (Node .comparison Pair.comparison) := by
  have hparts : Follows 0 n (Rule.body .comparison)
      (do let l ← arg; blanks; let op ← comparator; blanks; let r ← arg; pure (l, op, r))
      fun ps w x => ∃ l o r u v, ps = [l, o, r] ∧ w = u.or v ∧ l.arg = verdict u x.1 ∧
        Comparator.ofSymbol? o.text = some x.2.1 ∧ r.arg = verdict v x.2.2 := by
    have hright : ∀ (l : Arg) (op : Comparator),
        Follows 0 n (.call .term) (arg >>= fun r => pure (l, op, r))
        fun ps w x => x.1 = l ∧ x.2.1 = op ∧ Built Pair.arg ps w x.2.2 := fun l op =>
      follows_arg.give fun ps w r hr => ⟨_, rfl, rfl, rfl, hr⟩
    refine (follows_arg.bind fun l => follows_comparator.bind fun op => hright l op).imp ?_
    rintro ps w ⟨l, op, r⟩ ⟨_, _, u, _, _, rfl, rfl, ⟨q, rfl, hl⟩, _, _, _, v, _, rfl, rfl,
      ⟨rfl, o, rfl, ho⟩, rfl, rfl, q', rfl, hr⟩
    exact ⟨q, o, q', u, v, rfl, rfl, hl, ho, hr⟩
  refine (hparts.node rfl).give ?_
  rintro ps w ⟨⟨l, op, r⟩, span⟩ ⟨text, inner, rfl, ql, qo, qr, u, v, rfl, rfl, hl, ho, hr⟩
  refine ⟨_, rfl, _, rfl, rfl, ?_⟩
  simp only [Pair.comparison, Pair.inner, hl, ho, hr]
  exact verdict_bind (verdict_give v r _)

variable {f : Reader Formula}

def Grouped : Tie Formula := Node .group fun q => Pair.grouped q.inner

theorem follows_group (h : Follows 0 n (.call .formula) f (Node .formula Pair.formula)) :
    Follows 0 (n + 1) (.call .group) (group f) Grouped := by
  have hparts : Follows 0 (n + 1) (Rule.body .group) (group f) fun ps w g =>
    Pair.grouped ps = verdict w g := by
    refine ((h.closing ")" (by decide) (fun g => g) ?_).mark "(" (by decide)).weaken
    rintro ps w g ⟨q, rfl, _, hq⟩
    exact hq
  refine (hparts.node rfl).unspanned.imp ?_
  rintro ps w g ⟨span, text, inner, rfl, hg⟩
  exact ⟨_, rfl, rfl, hg⟩

theorem span_of_call {q : Pair} {c : Call} (h : q.call = .ok c) : c.span = q.span := by
  unfold Pair.call at h
  split at h
  next => cases h
  next p qs _ =>
    cases hargs : qs.mapM Pair.arg with
    | error d => rw [hargs] at h; cases h
    | ok args => rw [hargs] at h; cases h; rfl

theorem follows_denied (hgroup : Follows 0 n (.call .group) (group f) Grouped) :
    Follows 0 n (.choice (.call .group) (.call .predicate)) (denied f)
      (Built fun q => Pair.denied [q]) := by
  refine (hgroup.imp ?_).orElse (follows_call.give ?_)
  · rintro ps w g ⟨q, rfl, hrule, hg⟩
    obtain ⟨r, text, span, inner⟩ := q
    cases hrule
    exact ⟨_, rfl, hg⟩
  · rintro ps w c ⟨q, rfl, hrule, hc⟩
    obtain ⟨r, text, span, inner⟩ := q
    cases hrule
    refine ⟨_, rfl, _, rfl, ?_⟩
    change Pair.denied [_] = _
    rw [Pair.denied, hc]
    cases w with
    | none =>
      have hspan : c.span = span := span_of_call hc
      rw [hspan]
      rfl
    | some x => rfl

theorem follows_negation (hgroup : Follows 0 n (.call .group) (group f) Grouped) :
    Follows 0 n (.call .negation) (negation f) (Built Pair.literal) := by
  have hword : Follows 0 n (.call .kwNot) (keyword "not") fun ps w _ =>
    w = none ∧ ∃ q, ps = [q] ∧ q.rule = .kwNot :=
    follows_keyword rfl rfl
  have hparts : Follows 0 n (Rule.body .negation) (do keyword "not"; blanks; denied f)
      fun ps w g => Pair.denied ps = verdict w g := by
    refine (hword.bind fun _ => follows_denied hgroup).imp ?_
    rintro ps w g ⟨_, _, _, v, _, rfl, rfl, ⟨rfl, ⟨r, text, span, inner⟩, rfl, hrule⟩, q, rfl, hq⟩
    cases hrule
    rw [Option.none_or, ← hq]
    rfl
  refine (hparts.node rfl).give ?_
  rintro ps w ⟨g, span⟩ ⟨text, inner, rfl, hg⟩
  refine ⟨_, rfl, _, rfl, ?_⟩
  rw [Pair.literal, hg]
  exact verdict_give w g _

theorem follows_literal (hgroup : Follows 0 n (.call .group) (group f) Grouped) :
    Follows 0 n (.call .literal) (literal f) (Built Pair.literal) := by
  have hcompare : Follows 0 n (.call .comparison) (.compare <$> comparison)
      (Built Pair.literal) := by
    refine follows_comparison.map ?_
    rintro ps w c ⟨⟨r, text, span, inner⟩, rfl, hrule, hc⟩
    cases hrule
    exact ⟨_, rfl, by rw [Pair.literal, hc, verdict_map]⟩
  have hformula : Follows 0 n (.call .group) (.group <$> group f) (Built Pair.literal) := by
    refine hgroup.map ?_
    rintro ps w g ⟨⟨r, text, span, inner⟩, rfl, hrule, hg⟩
    cases hrule
    exact ⟨_, rfl, by rw [Pair.literal, ← verdict_map, ← hg]; rfl⟩
  have hcall : Follows 0 n (.call .predicate) (.call <$> call) (Built Pair.literal) := by
    refine follows_call.map ?_
    rintro ps w c ⟨⟨r, text, span, inner⟩, rfl, hrule, hc⟩
    cases hrule
    exact ⟨_, rfl, by rw [Pair.literal, hc, verdict_map]⟩
  exact Follows.rule ((follows_negation hgroup).orElse (hcompare.orElse (hformula.orElse hcall)))
    rfl

theorem follows_formulaOf (hgroup : Follows 0 n (.call .group) (group f) Grouped) :
    Follows 0 n (.call .formula) (formulaOf f) (Node .formula Pair.formula) := by
  have hconjunction : Follows 0 n (.call .conjunction) (separated "," (literal f))
      (Built fun q => Pair.literals q.inner) := by
    refine (Follows.node (r := .conjunction) ((follows_literal hgroup).separated "," (by decide))
      rfl).unspanned.imp ?_
    rintro ps w ls ⟨span, text, inner, rfl, hls⟩
    exact ⟨_, rfl,
      hls.1.build Pair.literals (by rw [Pair.literals]; rfl) fun q qs => by rw [Pair.literals]⟩
  refine (Follows.node (r := .formula) (hconjunction.separated ";" (by decide)) rfl).give ?_
  rintro ps w ⟨ds, span⟩ ⟨text, inner, rfl, hds⟩
  refine ⟨_, rfl, _, rfl, rfl, ?_⟩
  have hbuilt := hds.1.build Pair.disjuncts (by rw [Pair.disjuncts]; rfl) fun q qs => by
    obtain ⟨r, text, span, inner⟩ := q
    rw [Pair.disjuncts]
    rfl
  rw [Pair.formula, hbuilt]
  exact verdict_give w ds _

theorem follows_formula (n : Nat) :
    Follows 0 n (.call .formula) formula (Node .formula Pair.formula) := by
  induction n with
  | zero => exact fun _ hc => absurd hc (Nat.not_lt_zero _)
  | succ n ih =>
    rw [formula_eq]
    exact follows_formulaOf (follows_group ih)

end Formulas

section Items

theorem follows_aliasName :
    Follows 0 n (.seq (.call .kwAs) (.call .ident)) aliasName fun ps w s => w = none ∧
      ∃ k q, ps = [k, q] ∧ k.rule = .kwAs ∧ q.rule = .ident ∧ q.text = s := by
  have hword : Follows 0 n (.call .kwAs) (keyword "as") fun ps w _ =>
    w = none ∧ ∃ q, ps = [q] ∧ q.rule = .kwAs :=
    follows_keyword rfl rfl
  refine (hword.bind fun _ => follows_name).imp ?_
  rintro ps w s ⟨_, _, _, _, _, rfl, rfl, ⟨rfl, k, rfl, hk⟩, rfl, span, inner, rfl⟩
  exact ⟨rfl, k, _, rfl, hk, rfl, rfl⟩

theorem follows_label : Follows 0 n (.call .label) label (Node .label Pair.label) := by
  have hvalue : Follows 0 n (.choice (.call .ident) (.call .string)) (name <|> string) fun ps w s =>
    w = none ∧
      ∃ q, ps = [q] ∧ Pair.labelPart (none, none) q = (some s, none) := by
    refine (follows_name.imp ?_).orElse (follows_string.imp ?_)
    · rintro ps w s ⟨rfl, span, inner, rfl⟩
      exact ⟨rfl, _, rfl, rfl⟩
    · rintro ps w s ⟨rfl, q, rfl, hrule, hs⟩
      exact ⟨rfl, q, rfl, by simp [Pair.labelPart, hrule, hs]⟩
  have hparts : Follows 0 n (Rule.body .label)
      (do let v ← name <|> string; blanks; let alias? ← optional aliasName; pure (v, alias?))
      fun ps w x => w = none ∧ ps.foldl Pair.labelPart (none, none) = (some x.1, x.2) := by
    refine (hvalue.bind fun v =>
      follows_aliasName.optional.give (B := fun ps w x => w = none ∧ x.1 = v ∧
      ps.foldl Pair.labelPart (some v, none) = (some x.1, x.2)) ?_).imp ?_
    · intro ps w alias? h
      refine ⟨_, rfl, ?_⟩
      cases alias? with
      | none =>
        obtain ⟨rfl, rfl⟩ := h
        exact ⟨rfl, rfl, rfl⟩
      | some s =>
        obtain ⟨rfl, k, q, rfl, hk, hq, rfl⟩ := h
        exact ⟨rfl, rfl, by simp [Pair.labelPart, hk, hq]⟩
    · rintro ps w x ⟨_, rs, _, _, v, rfl, rfl, ⟨rfl, q, rfl, hq⟩, rfl, rfl, hx⟩
      refine ⟨rfl, ?_⟩
      rw [List.singleton_append, List.foldl_cons, hq, hx]
  refine (hparts.node rfl).give ?_
  rintro ps w ⟨⟨v, alias?⟩, span⟩ ⟨text, inner, rfl, rfl, hx⟩
  refine ⟨_, rfl, _, rfl, rfl, ?_⟩
  simp only [Pair.label, Pair.inner, hx]
  rfl

def labelKindScan : Scan LabelKind := fun cs =>
  ((wordScan "node" cs).map fun x => (.node, x.2)).or ((wordScan "edge" cs).map fun x =>
    (.edge, x.2))

theorem labelKind_eq : labelKind = scanned labelKindScan := by
  have hone : ∀ (s : String) (k : LabelKind), (keyword s *> pure k : Reader LabelKind) =
      scanned fun cs => (wordScan s cs).map fun x => (k, x.2) := by
    intro s k
    funext c
    change (keyword s >>= fun _ => pure k) c = _
    rw [keyword_eq, bind_run]
    cases h : wordScan s c.rest <;> simp [scanned, h, pure_run]
  unfold labelKind
  rw [hone, hone, scanned_orElse]
  rfl

theorem take_of_wordScan {s : String} {cs : List Char} {x : Unit × Nat}
    (h : wordScan s cs = some x) : cs.take x.2 = s.toList := by
  unfold wordScan at h
  split at h
  next hstarts =>
    cases h
    obtain ⟨r, rfl⟩ := List.isPrefixOf_iff_prefix.mp hstarts.1
    exact List.take_left' String.length_toList
  next => cases h

theorem follows_labelKind :
    Follows 0 n (.call .labelKind) labelKind fun ps w k => w = none ∧ ∃ q, ps = [q] ∧
      q.rule = .labelKind ∧
      (if "edge".toList.isPrefixOf q.text.toList then .edge else .node) = k := by
  have htakes : Takes .free (Rule.body .labelKind)
      (fun cs => (labelKindScan cs).map Prod.snd) fun _ => True := by
    refine ((Takes.leaf (r := .kwNode) (silent_word "node") rfl).choice
      (Takes.leaf (r := .kwEdge) (silent_word "edge") rfl)).congr fun cs => ?_
    simp [labelKindScan, Measure.or, Option.map_or, Function.comp_def]
  rw [labelKind_eq]
  refine (follows_token (r := .labelKind) htakes rfl fun _ => rfl).unspanned.imp ?_
  rintro ps w kind ⟨span, rfl, cs, k, inner, hscan, rfl⟩
  refine ⟨rfl, _, rfl, rfl, ?_⟩
  rw [Pair.text, String.toList_ofList]
  rcases Option.or_eq_some_iff.mp hscan with hnode | ⟨_, hedge⟩
  · obtain ⟨x, hx, heq⟩ := Option.map_eq_some_iff.mp hnode
    cases heq
    rw [take_of_wordScan hx]
    decide
  · obtain ⟨x, hx, heq⟩ := Option.map_eq_some_iff.mp hedge
    cases heq
    rw [take_of_wordScan hx]
    decide

theorem Parts.labels {ps : List Pair} {w : Excess} {ls : List Label}
    (h : Parts (Node .label Pair.label) ps w ls) (kind : Option LabelKind) (before : List Label) :
    ps.foldlM Pair.labelDeclPart (kind, before) = verdict w (kind, before ++ ls) := by
  induction h generalizing before with
  | nil =>
    rw [List.append_nil]
    rfl
  | @cons _ qs v w l ls hl _ ih =>
    obtain ⟨q, rfl, hrule, hq⟩ := hl
    have hstep : Pair.labelDeclPart (kind, before) q = verdict v (kind, before ++ [l]) := by
      simp only [Pair.labelDeclPart, hrule, hq]
      exact verdict_give v l _
    rw [List.singleton_append, List.foldlM_cons, hstep]
    refine verdict_bind ?_
    rw [ih, List.append_assoc]
    rfl

def Settled : Tie Item := fun ps w i => ∃ q, ps = [q] ∧ q.item? = some (verdict w i)

theorem follows_labelDecl : Follows 0 n (.call .labelDecl) labelDecl Settled := by
  have hword : Follows 0 n (.call .kwLabels) (keyword "labels") fun ps w _ => w = none ∧
      ∃ q, ps = [q] ∧ q.rule = .kwLabels := follows_keyword rfl rfl
  have hlabels : ∀ kind : LabelKind,
      Follows 0 n (.seq (.text ":") (.seq (.list (.call .label) ",") (.text ".")))
      (do exactly ":"; blanks; let ls ← separated "," label; blanks; exactly "."; pure (kind, ls))
      fun ps w x => x.1 = kind ∧ Parts (Node .label Pair.label) ps w x.2 := fun kind =>
    (((follows_label.separated "," (by decide)).closing "." (by decide)
      (fun ls => (kind, ls)) fun ps w ls h =>
      ⟨rfl, h.1⟩).mark ":" (by decide)).weaken.mono (Nat.le_succ n)
  have hparts := (follows_labelKind (n := n)).bind fun kind => hword.bind fun _ => hlabels kind
  refine (Follows.node (r := .labelDecl) hparts rfl).give ?_
  rintro ps w ⟨⟨kind, ls⟩, span⟩ ⟨text, inner, rfl, _, _, _, _, _, rfl, rfl,
    ⟨rfl, q, rfl, hq, hkind⟩, _, rs, _, v, _, rfl, rfl, ⟨rfl, k, rfl, hk⟩, rfl, hls⟩
  refine ⟨_, rfl, _, rfl, ?_⟩
  have hkindPart : Pair.labelDeclPart (none, []) q = .ok (some kind, []) := by
    simp only [Pair.labelDeclPart, hq, hkind]
  have hwordPart : Pair.labelDeclPart (some kind, []) k = .ok (some kind, []) := by
    simp [Pair.labelDeclPart, hk]
  have hfold : (q :: k :: rs).foldlM Pair.labelDeclPart (none, []) = verdict v (some kind, ls) := by
    rw [List.foldlM_cons, hkindPart]
    change (k :: rs).foldlM Pair.labelDeclPart (some kind, []) = _
    rw [List.foldlM_cons, hwordPart]
    exact hls.labels (some kind) []
  have hbuilt : (Pair.mk .labelDecl text span (q :: k :: rs)).labelDecl =
      verdict v ⟨kind, ls, span⟩ := by
    rw [Pair.labelDecl, Pair.inner, hfold]
    cases v <;> rfl
  change some (Item.labels <$> (Pair.mk .labelDecl text span (q :: k :: rs)).labelDecl) = _
  rw [hbuilt, verdict_map]
  rfl

theorem follows_query : Follows 0 n (.call .queryDecl) query Settled := by
  have hword : Follows 0 n (.call .kwQuery) (keyword "query") fun ps w _ => w = none ∧
      ∃ q, ps = [q] ∧ q.rule = .kwQuery := follows_keyword rfl rfl
  have hname : Follows 0 n (.call .ident) (spanned name) fun ps w x => w = none ∧
      ∃ inner, ps = [.mk .ident x.1 x.2 inner] := by
    refine (follows_taken (r := .ident) silent_ident rfl).imp ?_
    rintro ps w x ⟨rfl, _, _, inner, _, _, rfl⟩
    exact ⟨rfl, inner, rfl⟩
  have hbody : ∀ x : String × Span,
      Follows 0 n (.seq (.text ":") (.seq (.call .formula) (.text ".")))
      (do exactly ":"; blanks; let f ← formula; blanks; exactly "."; pure (x, f))
      fun ps w y => y.1 = x ∧ Node .formula Pair.formula ps w y.2 := fun x =>
    (((follows_formula n).closing "." (by decide) (fun f => (x, f)) fun ps w f h => ⟨rfl, h⟩).mark
      ":" (by decide)).weaken.mono (Nat.le_succ n)
  have hparts := hword.bind fun _ => hname.bind hbody
  refine (Follows.node (r := .queryDecl) hparts rfl).give ?_
  rintro ps w ⟨⟨⟨s, nameSpan⟩, f⟩, span⟩ ⟨text, inner, rfl, _, _, _, _, _, rfl, rfl,
    ⟨rfl, k, rfl, hk⟩, _, _, _, v, _, rfl, rfl, ⟨rfl, inner', rfl⟩, rfl, q, rfl, hq, hf⟩
  refine ⟨_, rfl, _, rfl, ?_⟩
  have hwordPart : Pair.queryPart (none, none) k = .ok (none, none) := by simp [Pair.queryPart, hk]
  have hbodyPart : Pair.queryPart (some (s, nameSpan), none) q =
      verdict v (some (s, nameSpan), some f) := by
    simp only [Pair.queryPart, hq, hf]
    exact verdict_give v f _
  have hfold : [k, .mk .ident s nameSpan inner', q].foldlM Pair.queryPart (none, none) =
      verdict v (some (s, nameSpan), some f) := by
    rw [List.foldlM_cons, hwordPart]
    change [q].foldlM Pair.queryPart (some (s, nameSpan), none) = _
    rw [List.foldlM_cons, hbodyPart]
    exact verdict_give v _ fun x => x
  have hbuilt : (Pair.mk .queryDecl text span [k, .mk .ident s nameSpan inner', q]).query =
      verdict v ⟨s, nameSpan, f, span⟩ := by
    rw [Pair.query, Pair.inner, hfold]
    cases v <;> rfl
  change some
    (Item.query <$> (Pair.mk .queryDecl text span [k, .mk .ident s nameSpan inner', q]).query) = _
  rw [hbuilt, verdict_map]
  rfl

theorem follows_rule : Follows 0 n (.call .ruleDecl) rule Settled := by
  have hantecedent : Follows 0 n (.seq (.call .formula) (.text "->")) antecedent
      (Node .formula Pair.formula) :=
    (follows_formula n).closing "->" (by decide) (fun f => f) fun _ _ _ h => h
  have hconsequence : Follows 0 n (.call .consequence) (separated "," call) fun ps w cs => cs ≠ [] ∧
      Node .consequence (fun q => q.inner.mapM Pair.call) ps w cs := by
    refine (Follows.node (r := .consequence) (follows_call.separated "," (by decide))
      rfl).unspanned.imp ?_
    rintro ps w cs ⟨span, text, inner, rfl, hcs, hne⟩
    exact ⟨hne, _, rfl, rfl, (hcs.imp fun _ _ _ => Node.built).mapM⟩
  have hend : ∀ a? : Option Formula, Follows 0 n (.seq (.call .consequence) (.text "."))
      (do let cs ← separated "," call; blanks; exactly "."; pure (a?, cs))
      fun ps w x => x.1 = a? ∧ x.2 ≠ [] ∧
        Node .consequence (fun q => q.inner.mapM Pair.call) ps w x.2 := fun a? =>
    hconsequence.closing "." (by decide) (fun cs => (a?, cs)) fun _ _ _ h => ⟨rfl, h⟩
  have hparts := hantecedent.optional.bind hend
  refine (Follows.node (r := .ruleDecl) hparts rfl).give ?_
  rintro ps w ⟨⟨a?, cs⟩, span⟩ ⟨text, inner, rfl, qs, _, u, v, _, rfl, rfl, ha,
    rfl, hne, q, rfl, hq, hcs⟩
  refine ⟨_, rfl, _, rfl, ?_⟩
  have hfirst : qs.foldlM Pair.rulePart (none, []) = verdict u (a?, []) := by
    cases a? with
    | none =>
      obtain ⟨rfl, rfl⟩ := ha
      rfl
    | some f =>
      obtain ⟨p, rfl, hp, hf⟩ := ha
      have hpart : Pair.rulePart (none, []) p = verdict u (some f, []) := by
        simp only [Pair.rulePart, hp, hf]
        exact verdict_give u f _
      rw [List.foldlM_cons, hpart]
      exact verdict_give u _ fun x => x
  have hlast : Pair.rulePart (a?, []) q = verdict v (a?, cs) := by
    simp only [Pair.rulePart, hq, hcs]
    exact verdict_give v cs _
  have hfold : (qs ++ [q]).foldlM Pair.rulePart (none, []) = verdict (u.or v) (a?, cs) := by
    rw [List.foldlM_append, hfirst]
    refine verdict_bind ?_
    rw [List.foldlM_cons, hlast]
    exact verdict_give v _ fun x => x
  have hbuilt : (Pair.mk .ruleDecl text span (qs ++ [q])).implication =
      verdict (u.or v) ⟨a?, cs, span⟩ := by
    rw [Pair.implication, Pair.inner, hfold]
    obtain ⟨c, cs, rfl⟩ := List.exists_cons_of_ne_nil hne
    cases u.or v <;> rfl
  change some (Item.rule <$> (Pair.mk .ruleDecl text span (qs ++ [q])).implication) = _
  rw [hbuilt, verdict_map]

theorem follows_item :
    Follows 0 n (.choice (.call .labelDecl) (.choice (.call .queryDecl) (.call .ruleDecl))) item
    Settled :=
  follows_labelDecl.orElse (follows_query.orElse follows_rule)

end Items

end GraphRules.Grammar
