import GraphRules.Proofs.NumberTexts
import GraphRules.Proofs.QuotedStrings
import GraphRules.Proofs.ReadBack
import GraphRules.Proofs.Recovery

/-! The canonical text of an item reads back as that item, spans aside. -/
namespace GraphRules

open Script

namespace ArgKind

/-- An argument that is written as a token that stands for it; a whole number fits a word. -/
structure Written (k : ArgKind) : Prop where
  token : ∃ t : Token, t.isSpelled ∧ t.text = k.text.toList ∧ t.arg? = some k
  fits : ∀ n, k = .int n → fitsWord n

/-- A string whose characters are shown, a number that is written plainly, or another argument. -/
def Legible : ArgKind → Prop
  | .quoted s => Text.isLegible s
  | .float x => x.Plain
  | _ => True

variable {k : ArgKind}

theorem text_of_word {c : Char} {cs : List Char} (h : (Token.word c cs).arg? = some k) :
    k.text.toList = c :: cs := by
  rw [Token.arg?] at h
  split at h
  · cases h
    simp [text]
  split at h
  · rename_i hwildcard
    cases h
    rw [hwildcard.1, hwildcard.2]
    rfl
  · cases h
    simp [text]

theorem Spelled.written (h : k.Spelled) (hlegible : k.Legible) : k.Written := by
  refine ⟨?_, h.fits⟩
  obtain ⟨t, ht, hk⟩ := h.token
  cases t with
  | word c cs => exact ⟨.word c cs, ht, (text_of_word hk).symm, hk⟩
  | integer negative ds =>
    obtain ⟨n, rfl⟩ : ∃ n, k = .int n := ⟨_, (Option.some.inj hk).symm⟩
    have hdigits := isDigits_of_forall (toDigits_ne_nil n.natAbs) (forall_toDigits n.natAbs)
    refine ⟨.integer (decide (n < 0)) (Nat.toDigits 10 n.natAbs), hdigits,
      (toString_int n).symm, ?_⟩
    rw [Token.arg?, ← toString_int, String.ofList_toList, intValue_toString]
  | float negative ds es =>
    obtain ⟨x, rfl⟩ : ∃ x, k = .float x := ⟨_, (Option.some.inj hk).symm⟩
    obtain ⟨ds, es, hds, hes, htext, hread⟩ := Binary64.render_plain hlegible
    refine ⟨.float x.isNegative ds es, by simp [Token.isSpelled, hds, hes], htext.symm, ?_⟩
    rw [Token.arg?, floatValue, String.toList_ofList, hread]
    rfl
  | quoted inner =>
    obtain ⟨s, rfl⟩ : ∃ s, k = .quoted s := ⟨_, (Option.some.inj hk).symm⟩
    obtain ⟨t, ht, htext, _, harg⟩ := Text.quote_token s
    rw [Text.heard_eq_of_legible hlegible] at harg
    exact ⟨t, ht, htext, harg⟩
  | mark s => cases hk

end ArgKind

namespace Script

def blot : Span → Span := fun _ => default

section Arguments

variable {S r : List Char}

theorem Token.apart_of_closed {t : Token} (harg : t.arg? ≠ none) (hclosed : Closed r)
    (hpoint : Pointless r) : t.Apart r := by
  cases t with
  | word _ _ => exact hclosed
  | integer _ _ => exact ⟨undigited_of_closed hclosed, hpoint⟩
  | float _ _ _ => exact undigited_of_closed hclosed
  | quoted _ => trivial
  | mark _ => exact (harg rfl).elim

theorem noted_of_fits {k : ArgKind} (h : ∀ n, k = .int n → fitsWord n) (c : Cursor) (text : String)
    (span : Span) : c.noted k text span = c := by
  unfold Cursor.noted
  split
  · rw [h _ rfl]
    rfl
  · rfl

theorem recovers_arg {a : Arg} (h : a.kind.Written) :
    Recovers S (Arg.mapSpan blot) arg a.text.toList a := by
  obtain ⟨t, ht, htext, harg⟩ := h.token
  obtain ⟨x, xs, hstart, hx⟩ := Token.text_cons ht
  refine ⟨⟨x, xs, htext.symm.trans hstart, hx.not_isGapStart⟩, fun r hr => ?_⟩
  intro c hc
  have hscan : argScan c.rest = some ((a.kind, String.ofList t.text), t.text.length) := by
    rw [hc, Arg.text, ← htext,
      Token.argScan_text ht (Token.apart_of_closed (by simp [harg]) hr.closed hr.pointless), harg]
    rfl
  have hrest : (c.advance t.text.length).rest = r := by
    change c.rest.drop t.text.length = r
    rw [hc, Arg.text, ← htext, List.drop_left]
  refine ⟨⟨a.kind, Span.between c.place (c.advance t.text.length).place⟩,
    c.advance t.text.length, ?_, congrArg skip hrest, rfl, rfl⟩
  rw [arg_eq, argBy, hscan, Option.map_some]
  dsimp only
  rw [noted_of_fits h.fits]

end Arguments

section Words

variable {r : List Char} {s w : String}

theorem IsWord.token (h : IsWord s) :
    ∃ t : Token, t.isSpelled ∧ t.text = s.toList ∧ t.name? = some s ∧ t.arg? = some (.symbol s) ∧
      ∀ r, Closed r → t.Apart r := by
  obtain ⟨c, cs, hs, hc, hcs⟩ := h
  have heq : String.ofList (c :: cs) = s := by rw [← hs, String.ofList_toList]
  refine ⟨.word c cs, by simp [Token.isSpelled, isWordStart, hc, hcs], hs.symm, ?_, ?_,
    fun _ hr => hr⟩
  · rw [Token.name?, if_pos hc, heq]
  · rw [Token.arg?, if_pos hc, heq]

theorem reads_name (h : IsWord s) (hr : Closed r) :
    Reads name (s.toList ++ r) (skip r) fun n => n = s := by
  obtain ⟨t, ht, htext, hname, _, hapart⟩ := h.token
  have hscan : nameScan (s.toList ++ r) = some (s, s.toList.length) := by
    rw [← htext, Token.nameScan_text ht (hapart r hr), hname]
    rfl
  have hreads := reads_scanned hscan
  rw [List.drop_left] at hreads
  exact name_eq ▸ hreads

theorem fails_name {x : Char} (h : x.isLower = false) (xs : List Char) : Fails name (x :: xs) := by
  rw [name_eq]
  exact fails_scanned (by simp [nameScan, textScan, nameLength?, h])

theorem reads_keyword {t : List Char} (h : w.toList = t) (hr : Closed r) :
    Reads (keyword w) (t ++ r) (skip r) fun _ => True := by
  subst h
  have hdrop : (w.toList ++ r).drop w.length = r := by rw [← String.length_toList, List.drop_left]
  have hscan : wordScan w (w.toList ++ r) = some ((), w.length) := by
    rw [wordScan, hdrop, if_pos ⟨by simp, hr⟩]
  have hreads := reads_scanned hscan
  rw [hdrop] at hreads
  exact keyword_eq w ▸ hreads.imp fun _ _ => trivial

theorem fails_keyword (hw : w ∈ words) {t : Token} (ht : t.isSpelled) (hr : t.Apart r)
    (hne : t.text ≠ w.toList) : Fails (keyword w) (t.text ++ r) := by
  rw [keyword_eq]
  exact fails_scanned (by rw [Token.wordScan_text hw ht hr, if_neg hne])

end Words

section Calls

variable {S r : List Char}

theorem Stop.head_ne {x : Char} (h : Stop S r) (hx : x ∉ S) : ∃ y ys, skip r = y :: ys ∧ y ≠ x := by
  obtain ⟨y, ys, hskip, hy⟩ := h.next
  refine ⟨y, ys, hskip, ?_⟩
  rintro rfl
  exact hx hy

theorem reads_arguments {a : Arg} {as : List Arg} (h : ∀ b ∈ a :: as, b.kind.Written)
    (r : List Char) :
    Reads arguments ('(' :: ((", ".intercalate ((a :: as).map Arg.text)).toList ++ ')' :: r))
      (skip r) fun bs => bs.map (Arg.mapSpan blot) = (a :: as).map (Arg.mapSpan blot) := by
  have hlist := recovers_separated isSeparator_comma (fun b : Arg => b.text.toList) (S := [')'])
    (fun b hb => recovers_arg (h b hb)) (by decide) (by decide)
  rw [toList_intercalate ", " ',' rfl]
  refine (reads_mark rfl _).next fun _ _ => ?_
  rw [hlist.skip_append]
  refine (hlist.reads _ (stop_cons (by decide) (by decide) (by decide) (by decide)
    r)).optional.next fun bs? hbs => ?_
  obtain ⟨bs, rfl, hbs⟩ := hbs
  rw [skip_start (by decide)]
  exact (reads_mark rfl r).give fun _ _ => hbs

theorem recovers_call {c : Call} (h : c.Made IsWord ArgKind.Written) (hS : '(' ∉ S)
    (hgap : isGapless S) : Recovers S (Call.mapSpan blot) call c.text.toList c := by
  obtain ⟨n, args, span⟩ := c
  obtain ⟨hname, hargs⟩ := h
  have hcall : ∀ s t,
      Reads (do let n ← name; blanks; let args? ← optional arguments; pure (n, args?)) s t
      (fun x => x.1 = n ∧ (x.2.getD []).map (Arg.mapSpan blot) = args.map (Arg.mapSpan blot)) →
      Reads call s t fun c => c.mapSpan blot = (⟨n, args, span⟩ : Call).mapSpan blot := by
    intro s t hparts
    refine hparts.spanned.bind fun x hx => resumes_pure ?_
    simp only [Call.mapSpan, hx.1, hx.2]
    rfl
  have hstart : ∀ cs, ∃ y ys, n.toList ++ cs = y :: ys ∧ isGapStart y = false := by
    intro cs
    obtain ⟨t, ht, htext, _⟩ := hname.token
    obtain ⟨y, ys, hy, hstarts⟩ := Token.text_cons ht
    exact ⟨y, ys ++ cs, by rw [← htext, hy]; rfl, hstarts.not_isGapStart⟩
  cases args with
  | nil =>
    change Recovers S _ call n.toList _
    refine ⟨by simpa using hstart [], fun r hr => hcall _ _ ?_⟩
    refine (reads_name hname hr.closed).next fun m hm => ?_
    obtain ⟨y, ys, hskip, hy⟩ := hr.head_ne hS
    have hfails : Fails arguments (skip r) := by
      rw [hskip]
      exact (fails_exactly rfl hy).bind _
    refine (hfails.optional (hr.skip_skip hgap)).give fun as? has => ?_
    subst has
    exact ⟨hm, rfl⟩
  | cons a as =>
    have htext : (⟨n, a :: as, span⟩ : Call).text.toList =
        n.toList ++ '(' :: ((", ".intercalate ((a :: as).map Arg.text)).toList ++ [')']) := by
      simp [Call.text]
    rw [htext]
    refine ⟨hstart _, fun r hr => hcall _ _ ?_⟩
    rw [List.append_assoc, List.cons_append, List.append_assoc]
    refine (reads_name hname (stop_cons (S :=
      ['(']) (by decide) (by decide) (by decide) (by decide) _).closed).next fun m hm => ?_
    rw [skip_start (by decide)]
    refine (reads_arguments hargs r).optional.give fun as? has => ?_
    obtain ⟨bs, rfl, hbs⟩ := has
    exact ⟨hm, hbs⟩

def comparatorStarts : List Char := ['=', '!', '<', '>']

theorem gapless_comparatorStarts : isGapless comparatorStarts := rfl

theorem symbol_cons (k : Comparator) :
    ∃ x xs, k.symbol.toList = x :: xs ∧ x ∈ comparatorStarts := by
  cases k <;> exact ⟨_, _, rfl, by decide⟩

theorem reads_comparator (k : Comparator) (r : List Char) :
    Reads comparator (k.symbol.toList ++ ' ' :: r) (skip r) fun op => op = k := by
  have hmem : k.symbol ∈ comparators := by cases k <;> decide
  have hscan : comparatorScan (k.symbol.toList ++ ' ' :: r) = some (k, k.symbol.toList.length) := by
    rw [Token.comparatorScan_mark hmem (fun _ => by simp)]
    cases k <;> rfl
  have hreads := reads_scanned hscan
  rw [List.drop_left, skip_space] at hreads
  exact comparator_eq ▸ hreads

theorem recovers_comparison {c : Comparison} (hleft : c.left.kind.Written)
    (hright : c.right.kind.Written) :
    Recovers S (Comparison.mapSpan blot) comparison c.text.toList c := by
  obtain ⟨op, left, right, span⟩ := c
  obtain ⟨x, xs, hop, hx⟩ := symbol_cons op
  have hgap := not_isGapStart_of_mem gapless_comparatorStarts hx
  have htext : (⟨op, left, right, span⟩ : Comparison).text.toList =
      left.text.toList ++ ' ' :: (op.symbol.toList ++ ' ' :: right.text.toList) := by
    simp [Comparison.text]
  have hl := recovers_arg (S := comparatorStarts) hleft
  have hr := recovers_arg (S := S) hright
  rw [htext]
  refine ⟨?_, fun r hstop => ?_⟩
  · obtain ⟨y, ys, hy, hygap⟩ := hl.start
    exact ⟨y, _, by rw [hy]; rfl, hygap⟩
  · have hparts : Reads (do
        let left ← arg
        blanks
        let op ← comparator
        blanks
        let right ← arg
        pure (left, op, right)) (left.text.toList ++ ' ' ::
        (op.symbol.toList ++ ' ' :: (right.text.toList ++ r))) (skip r)
        fun x => x.1.mapSpan blot = left.mapSpan blot ∧ x.2.1 = op ∧
          x.2.2.mapSpan blot = right.mapSpan blot := by
      refine (hl.reads _ ?_).next fun a ha => ?_
      · rw [hop]
        exact stop_space (hgap) hx
      rw [skip_space, hop, List.cons_append, skip_start (hgap), ← List.cons_append, ← hop]
      refine (reads_comparator op _).next fun k hk => ?_
      rw [hr.skip_append]
      exact (hr.reads r hstop).give fun b hb => ⟨ha, hk, hb⟩
    have heq : left.text.toList ++ ' ' :: (op.symbol.toList ++ ' ' :: right.text.toList) ++ r =
        left.text.toList ++ ' ' :: (op.symbol.toList ++ ' ' :: (right.text.toList ++ r)) := by simp
    rw [heq]
    refine hparts.spanned.bind fun x hx => resumes_pure ?_
    simp only [Comparison.mapSpan, hx.1, hx.2.1, hx.2.2]
    rfl

end Calls

def formulaStops : List Char := [')', '-', '.']

def conditionStops : List Char := ';' :: formulaStops

def literalStops : List Char := ',' :: conditionStops

section Literals

variable {f : Reader Formula} {S r : List Char} {k : ArgKind} {g : Formula}

theorem IsWord.written {s : String} (h : IsWord s) : (ArgKind.symbol s).Written := by
  obtain ⟨t, ht, htext, _, harg, _⟩ := h.token
  exact ⟨⟨t, ht, htext, harg⟩, fun n hn => by cases hn⟩

theorem call_text_append (c : Call) (hr : Stop S r) :
    ∃ r', c.text.toList ++ r = c.name.toList ++ r' ∧ Stop ('(' :: S) r' := by
  obtain ⟨n, args, span⟩ := c
  cases args with
  | nil => exact ⟨r, rfl, hr.mono fun x hx => List.mem_cons_of_mem _ hx⟩
  | cons a as =>
    refine ⟨'(' :: ((", ".intercalate ((a :: as).map Arg.text)).toList ++ ')' ::
      r), by simp [Call.text], ?_⟩
    exact stop_cons (by decide) (by decide) (by decide) (List.mem_cons_self ..) _

theorem fails_negation {t : Token} (ht : t.isSpelled) (hr : t.Apart r)
    (hne : t.text ≠ "not".toList) : Fails (negation f) (t.text ++ r) :=
  (((fails_keyword (by decide) ht hr hne).bind _).spanned).bind _

theorem fails_comparison (h : k.Written) (hr : Stop S r) (hS : S.all (· ∉ comparatorStarts)) :
    Fails comparison (k.text.toList ++ r) := by
  obtain ⟨x, xs, hskip, hx⟩ := hr.next
  refine ((((recovers_arg (a := ⟨k, default⟩) h).reads r hr).stop fun a _ => ?_).spanned).bind _
  rw [hskip, comparator_eq]
  refine (fails_scanned (Token.comparatorScan_none ?_ xs)).bind _
  exact decide_eq_false (of_decide_eq_true (List.all_eq_true.mp hS x hx))

theorem fails_group {x : Char} (hx : x ≠ '(') (xs : List Char) : Fails (group f) (x :: xs) :=
  (fails_exactly rfl hx).bind _

theorem recovers_callLiteral {c : Call} (h : c.Made IsWord ArgKind.Written)
    (hnot : c.name ≠ "not") :
    Recovers literalStops (Literal.mapSpan blot) (literal f) c.text.toList (.call c) := by
  have hcall := recovers_call (S := literalStops) h (by decide) (by decide)
  refine ⟨hcall.start, fun r hr => ?_⟩
  obtain ⟨r', htext, hr'⟩ := call_text_append c hr
  obtain ⟨t, ht, hname, _, _, hapart⟩ := h.name.token
  have hnegation : Fails (negation f) (c.text.toList ++ r) := by
    rw [htext, ← hname]
    refine fails_negation ht (hapart _ hr'.closed) ?_
    rw [hname]
    exact fun heq => hnot (String.toList_inj.mp heq)
  have hcomparison : Fails comparison (c.text.toList ++ r) := by
    rw [htext]
    exact fails_comparison (k := .symbol c.name) h.name.written hr' (by decide)
  have hgroup : Fails (group f) (c.text.toList ++ r) := by
    obtain ⟨x, xs, hx, hlower, _⟩ := h.name
    rw [htext, hx]
    refine fails_group ?_ _
    rintro rfl
    revert hlower
    decide
  refine hnegation.orElse
    ((hcomparison.map _).orElse ((hgroup.map _).orElse ((hcall.reads r hr).map fun d hd => ?_)))
  simp only [Literal.mapSpan, hd]

/-- A word before a comparison denies nothing, even the word of negations. -/
theorem fails_negation_comparison (h : k.Written) (op : Comparator) (cs : List Char) :
    Fails (negation f) (k.text.toList ++ ' ' :: (op.symbol.toList ++ cs)) := by
  obtain ⟨t, ht, htext, harg⟩ := h.token
  obtain ⟨x, xs, hop, hx⟩ := symbol_cons op
  have hgap := not_isGapStart_of_mem gapless_comparatorStarts hx
  have hstop : Stop comparatorStarts (' ' :: (op.symbol.toList ++ cs)) := by
    rw [hop]
    exact stop_space (hgap) hx
  have happart : t.Apart (' ' :: (op.symbol.toList ++ cs)) :=
    Token.apart_of_closed (by simp [harg]) hstop.closed hstop.pointless
  rw [← htext]
  by_cases hnot : t.text = "not".toList
  · rw [hnot]
    refine (((reads_keyword rfl hstop.closed).stop fun _ _ => ?_).spanned).bind _
    have hstarts : comparatorStarts.all fun y => y ≠ '(' ∧ y.isLower = false := by decide
    obtain ⟨hopen, hlower⟩ := of_decide_eq_true (List.all_eq_true.mp hstarts x hx)
    rw [skip_space, hop, List.cons_append, skip_start (hgap)]
    refine (fails_group hopen _).both ?_
    exact ((((fails_name hlower _).bind _).spanned).bind _).bind _
  · exact fails_negation ht happart hnot

theorem recovers_comparisonLiteral {c : Comparison} (hleft : c.left.kind.Written)
    (hright : c.right.kind.Written) :
    Recovers literalStops (Literal.mapSpan blot) (literal f) c.text.toList (.compare c) := by
  have hcomparison := recovers_comparison (S := literalStops) hleft hright
  refine ⟨hcomparison.start, fun r hr => ?_⟩
  have htext : c.text.toList ++ r = c.left.kind.text.toList ++ ' ' ::
      (c.op.symbol.toList ++ ' ' :: (c.right.text.toList ++ r)) := by
    simp [Comparison.text, Arg.text]
  have hnegation : Fails (negation f) (c.text.toList ++ r) := by
    rw [htext]
    exact fails_negation_comparison hleft c.op _
  refine hnegation.orElse (((hcomparison.reads r hr).map fun d hd => ?_).orElse _)
  simp only [Literal.mapSpan, hd]

theorem reads_group (h : Recovers formulaStops (Formula.mapSpan blot) f g.text.toList g)
    (r : List Char) :
    Reads (group f) ('(' :: (g.text.toList ++ ')' :: r)) (skip r) fun g' => g'.mapSpan blot =
      g.mapSpan blot := by
  refine (reads_mark rfl _).next fun _ _ => ?_
  rw [h.skip_append]
  refine (h.reads _ (stop_cons (by decide) (by decide) (by decide) (by decide) r)).next fun g' hg =>
    ?_
  rw [skip_start (by decide)]
  exact (reads_mark rfl r).give fun _ _ => hg

theorem recovers_groupLiteral (h : Recovers formulaStops (Formula.mapSpan blot) f g.text.toList g) :
    Recovers literalStops (Literal.mapSpan blot) (literal f)
      (Literal.group g).text.toList (.group g) := by
  have htext : (Literal.group g).text.toList = '(' :: (g.text.toList ++ [')']) := by
    simp [Literal.text]
  rw [htext]
  refine ⟨⟨'(', _, rfl, by decide⟩, fun r hr => ?_⟩
  rw [List.cons_append, List.append_assoc, List.singleton_append]
  have hmark : (Token.mark "(").isSpelled := by decide
  have hnegation : Fails (negation f) ('(' :: (g.text.toList ++ ')' :: r)) :=
    fails_negation (t := .mark "(") hmark (fun h => absurd h (by decide)) (by decide)
  have hcomparison : Fails comparison ('(' :: (g.text.toList ++ ')' :: r)) := by
    have hscan : argScan ('(' :: (g.text.toList ++ ')' :: r)) = none :=
      Token.argScan_text (t := .mark "(") hmark fun h => absurd h (by decide)
    have harg : Fails arg ('(' :: (g.text.toList ++ ')' :: r)) := by
      intro c hc
      rw [arg_eq, argBy, hc, hscan]
      rfl
    exact ((harg.bind _).spanned).bind _
  refine hnegation.orElse
    ((hcomparison.map _).orElse (((reads_group h r).map fun g' hg => ?_).orElse _))
  simp only [Literal.mapSpan, hg]

theorem recovers_negated
    (h : Recovers formulaStops (Formula.mapSpan blot) f g.text.toList g) (span : Span) :
    Recovers literalStops (Literal.mapSpan blot) (literal f) (Literal.negated g span).text.toList
      (.negated g span) := by
  have htext : (Literal.negated g span).text.toList = "not".toList ++ ' ' :: '(' ::
      (g.text.toList ++ [')']) := by
    simp [Literal.text]
  rw [htext]
  refine ⟨⟨'n', _, rfl, by decide⟩, fun r hr => ?_⟩
  have hparts : Reads (do keyword "not"; blanks; denied f)
      ("not".toList ++ ' ' :: '(' :: (g.text.toList ++ ')' :: r)) (skip r) fun g' =>
        g'.mapSpan blot = g.mapSpan blot := by
    refine (reads_keyword rfl (stop_space (S :=
      ['(']) (by decide) (by decide)).closed).next fun _ _ => ?_
    rw [skip_space, skip_start (by decide)]
    exact (reads_group h r).orElse _
  have heq : "not".toList ++ ' ' :: '(' :: (g.text.toList ++ [')']) ++ r =
      "not".toList ++ ' ' :: '(' :: (g.text.toList ++ ')' :: r) := by simp
  rw [heq]
  refine (hparts.spanned.bind fun x hx => resumes_pure ?_).orElse _
  simp only [Literal.mapSpan, hx]
  rfl

end Literals

section Formulas

theorem literal_texts_eq (ls : List Literal) : Literal.texts ls = ls.map Literal.text := by
  induction ls with
  | nil => rfl
  | cons l ls ih => rw [Literal.texts, ih, List.map_cons]

theorem formula_texts_eq (ds : List (List Literal)) :
    Formula.texts ds = ds.map fun c => ", ".intercalate (c.map Literal.text) := by
  induction ds with
  | nil => rfl
  | cons c cs ih => rw [Formula.texts, literal_texts_eq, ih, List.map_cons]

def IsCallName (s : String) : Prop := IsWord s ∧ s ≠ "not"

variable {f : Reader Formula}

theorem recovers_condition {c : List Literal} (hne : c ≠ [])
    (h : ∀ l ∈ c, Recovers literalStops (Literal.mapSpan blot) (literal f) l.text.toList l) :
    Recovers conditionStops (List.map (Literal.mapSpan blot)) (separated "," (literal f))
      (", ".intercalate (c.map Literal.text)).toList c := by
  obtain ⟨l, ls, rfl⟩ := List.exists_cons_of_ne_nil hne
  rw [toList_intercalate ", " ',' rfl]
  exact recovers_separated isSeparator_comma _ h (by decide) (by decide)

theorem recovers_formulaOf {ds : List (List Literal)}
    (span : Span) (hne : ds ≠ [])
    (h : ∀ c ∈ ds, c ≠ [] ∧ ∀ l ∈ c,
    Recovers literalStops (Literal.mapSpan blot) (literal f) l.text.toList l) :
    Recovers formulaStops (Formula.mapSpan blot) (formulaOf f)
      (Formula.mk ds span).text.toList (.mk ds span) := by
  obtain ⟨d, ds, rfl⟩ := List.exists_cons_of_ne_nil hne
  have hlist := recovers_separated isSeparator_semicolon
    (fun c : List Literal => (", ".intercalate (c.map Literal.text)).toList)
    (fun c hc => recovers_condition (h c hc).1 (h c hc).2) (S := formulaStops)
      (by decide) (by decide)
  rw [Formula.text, formula_texts_eq, toList_intercalate "; " ';' rfl]
  refine ⟨hlist.start, fun r hr => ?_⟩
  refine (hlist.reads r hr).spanned.bind fun x hx => resumes_pure ?_
  rw [Formula.mapSpan_mk, Formula.mapSpan_mk, hx]
  rfl

mutual

theorem recovers_literal : ∀ l : Literal, l.Made IsCallName ArgKind.Written →
    Recovers literalStops (Literal.mapSpan blot) (literal formula) l.text.toList l
  | .call _, h => recovers_callLiteral ⟨h.name.1, h.args⟩ h.name.2
  | .negated g span, h => recovers_negated (recovers_formula g h) span
  | .compare _, h => recovers_comparisonLiteral h.1 h.2
  | .group g, h => recovers_groupLiteral (recovers_formula g h)

theorem recovers_formula : ∀ g : Formula, g.Made IsCallName ArgKind.Written →
    Recovers formulaStops (Formula.mapSpan blot) formula g.text.toList g
  | .mk ds span, h => formula_eq ▸ recovers_formulaOf span h.1 (recovers_conditions ds h.2)

theorem recovers_conditions :
    ∀ ds : List (List Literal), Formula.MadeAny IsCallName ArgKind.Written ds → ∀ c ∈ ds,
    c ≠ [] ∧ ∀ l ∈ c, Recovers literalStops (Literal.mapSpan blot) (literal formula) l.text.toList l
  | [], _ => fun _ hc => by cases hc
  | c :: cs, h =>
    List.forall_mem_cons.mpr ⟨⟨h.1.1, recovers_literals c h.1.2⟩, recovers_conditions cs h.2⟩

theorem recovers_literals :
    ∀ ls : List Literal, Literal.MadeAll IsCallName ArgKind.Written ls → ∀ l ∈ ls,
    Recovers literalStops (Literal.mapSpan blot) (literal formula) l.text.toList l
  | [], _ => fun _ hl => by cases hl
  | l :: ls, h => List.forall_mem_cons.mpr ⟨recovers_literal l h.1, recovers_literals ls h.2⟩

end

end Formulas

end Script

end GraphRules
