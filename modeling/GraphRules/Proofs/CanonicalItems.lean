import GraphRules.Proofs.CanonicalText

/-! Items read back from their canonical text. The text of a rule is no label declaration and no
query, because no name follows its first word; a fact has no antecedent, because no arrow follows
its calls. -/
namespace GraphRules

open Script

namespace Script

def Wordless (s : List Char) : Prop :=
  ∀ w ∈ words, Fails (keyword w) s ∨ ∃ x xs, x.isLower = false ∧
    Reads (keyword w) s (x :: xs) fun _ => True

section Wordless

variable {S s r : List Char}

theorem fails_keyword_head {w : String} {x y : Char} {xs : List Char} (hw : w.toList.head? = some y)
    (hne : x ≠ y) : Fails (keyword w) (x :: xs) := by
  intro c hc
  have hmark := fails_exactly hw hne c hc
  simp [keyword, hmark]

theorem wordless_token {t : Token} (ht : t.isSpelled) (harg : t.arg? ≠ none) (hr : Stop S r)
    (hS : S.all fun x => !x.isLower) : Wordless (t.text ++ r) := by
  intro w hw
  by_cases htext : t.text = w.toList
  · obtain ⟨x, xs, hskip, hx⟩ := hr.next
    refine .inr ⟨x, xs, by simpa using List.all_eq_true.mp hS x hx, ?_⟩
    rw [htext, ← hskip]
    exact reads_keyword rfl hr.closed
  · exact .inl (fails_keyword hw ht (Token.apart_of_closed harg hr.closed hr.pointless) htext)

theorem wordless_literal :
    ∀ {l : Literal}, l.Made IsCallName ArgKind.Written → Stop literalStops r →
    Wordless (l.text.toList ++ r) := by
  intro l h hr
  cases l with
  | call c =>
    obtain ⟨r', htext, hr'⟩ := call_text_append c hr
    obtain ⟨t, ht, hname, _, harg, _⟩ := h.name.1.token
    change Wordless (c.text.toList ++ r)
    rw [htext, ← hname]
    exact wordless_token ht (by simp [harg]) hr' (by decide)
  | negated g span =>
    have htext : (Literal.negated g span).text.toList ++ r =
        (Token.word 'n' ['o', 't']).text ++ ' ' :: '(' :: (g.text.toList ++ ')' :: r) := by
          simp [Literal.text, Token.text]
    rw [htext]
    exact wordless_token (S := ['(']) (by decide) (by decide)
      (stop_space (by decide) (by decide)) (by decide)
  | compare c =>
    obtain ⟨t, ht, hleft, harg⟩ := h.1.token
    obtain ⟨x, xs, hop, hx⟩ := symbol_cons c.op
    have hgap := not_isGapStart_of_mem gapless_comparatorStarts hx
    have htext : (Literal.compare c).text.toList ++ r =
        t.text ++ ' ' :: x :: (xs ++ ' ' :: (c.right.text.toList ++ r)) := by
      rw [hleft]
      simp [Literal.text, Comparison.text, Arg.text, hop]
    rw [htext]
    exact wordless_token (S := comparatorStarts) ht (by simp [harg])
      (stop_space (hgap) hx) (by decide)
  | group g =>
    have htext : (Literal.group g).text.toList ++ r = '(' :: (g.text.toList ++ ')' :: r) := by
      simp [Literal.text]
    rw [htext]
    intro w hw
    have hfirst : ∀ w ∈ words, w.toList.head?.any (· ≠ '(') := by decide
    have hany := hfirst w hw
    cases hy : w.toList.head? with
    | none => simp [hy] at hany
    | some y =>
      refine .inl (fails_keyword_head hy ?_)
      rintro rfl
      simp [hy] at hany

theorem wordless_formula {g : Formula} (h : g.Made IsCallName ArgKind.Written)
    (hr : Stop formulaStops r) : Wordless (g.text.toList ++ r) := by
  obtain ⟨ds, span⟩ := g
  obtain ⟨c, cs, rfl⟩ := List.exists_cons_of_ne_nil h.1
  obtain ⟨⟨hne, hc⟩, _⟩ := h.2
  obtain ⟨l, ls, rfl⟩ := List.exists_cons_of_ne_nil hne
  rw [Formula.text, formula_texts_eq, toList_intercalate "; " ';' rfl,
    toList_intercalate ", " ',' rfl, List.append_assoc, List.append_assoc]
  exact wordless_literal hc.1
    (isSeparator_comma.stop_tail _ _ (isSeparator_semicolon.stop_tail _ _ hr))

theorem fails_labelDecl (h : Wordless s) : Fails labelDecl s := by
  have hlabels : ∀ (x : Char) (xs : List Char), x.isLower = false →
      Fails (keyword "labels") (x :: xs) := by
    intro x xs hx
    refine fails_keyword_head (y := 'l') rfl ?_
    rintro rfl
    revert hx
    decide
  have hkind : Fails labelKind s ∨ ∃ x xs, x.isLower = false ∧ Reads labelKind s (x :: xs) fun _ =>
    True := by
    rcases h "node" (by decide) with hnode | ⟨x, xs, hx, hnode⟩
    · rcases h "edge" (by decide) with hedge | ⟨x, xs, hx, hedge⟩
      · exact .inl ((hnode.bind _).both (hedge.bind _))
      · exact .inr ⟨x, xs, hx, (hnode.bind _).orElse (hedge.give fun _ h => h)⟩
    · exact .inr ⟨x, xs, hx, (hnode.give fun _ h => h).orElse _⟩
  rcases hkind with hfails | ⟨x, xs, hx, hreads⟩
  · exact ((hfails.bind _).spanned).bind _
  · exact ((hreads.stop fun _ _ => (hlabels x xs hx).bind _).spanned).bind _

theorem fails_query (h : Wordless s) : Fails query s := by
  rcases h "query" (by decide) with hfails | ⟨x, xs, hx, hreads⟩
  · exact ((hfails.bind _).spanned).bind _
  · exact ((hreads.stop fun _ _ => ((fails_name hx xs).spanned).bind _).spanned).bind _

end Wordless

theorem IsWord.skip_append {s : String} (h : IsWord s) (r : List Char) :
    skip (s.toList ++ r) = s.toList ++ r := by
  obtain ⟨t, ht, htext, _⟩ := h.token
  obtain ⟨x, xs, hx, hstarts⟩ := Token.text_cons ht
  rw [← htext, hx]
  exact skip_start hstarts.not_isGapStart

section Labels

variable {r : List Char}

theorem reads_string {s : String} (h : Text.isLegible s) (r : List Char) :
    Reads (name <|> string) ((Text.quote s).toList ++ r) (skip r) fun v => v = s := by
  obtain ⟨t, ht, htext, hstring, _⟩ := Text.quote_token s
  rw [Text.heard_eq_of_legible h] at hstring
  have hscan : quotedScan ((Text.quote s).toList ++ r) =
      some (s, (Text.quote s).toList.length) := by
    rw [← htext, Token.quotedScan_text ht, hstring]
    rfl
  have hname : Fails name ((Text.quote s).toList ++ r) := by
    have hquote : (Text.quote s).toList ++ r = '"' :: (Text.encode s.toList ++ '"' :: r) := by
      simp [Text.quote]
    rw [hquote]
    exact fails_name (by decide) _
  have hreads := reads_scanned hscan
  rw [List.drop_left, ← string_eq] at hreads
  exact hname.orElse hreads

theorem recovers_label {l : Label} (hvalue : Text.isLegible l.value)
    (halias : ∀ s ∈ l.alias?, IsWord s) :
    Recovers [',', '.'] (Label.mapSpan blot) label l.text.toList l := by
  obtain ⟨value, alias?, span⟩ := l
  have hlabel : ∀ s t, Reads (do
      let value ← name <|> string
      blanks
      let alias? ← optional aliasName
      pure (value, alias?)) s t (fun x => x.1 = value ∧ x.2 = alias?) →
      Reads label s t fun l => l.mapSpan blot = (⟨value, alias?, span⟩ : Label).mapSpan blot := by
    intro s t hparts
    refine hparts.spanned.bind fun x hx => resumes_pure ?_
    simp only [Label.mapSpan, hx.1, hx.2]
    rfl
  have hstart : ∀ cs, ∃ y ys, (Text.quote value).toList ++ cs = y :: ys ∧ isGapStart y = false :=
    fun cs => ⟨'"', Text.encode value.toList ++ '"' :: cs, by simp [Text.quote], by decide⟩
  cases alias? with
  | none =>
    change Recovers _ _ label (Text.quote value).toList _
    refine ⟨by simpa using hstart [], fun r hr => hlabel _ _ ?_⟩
    refine (reads_string hvalue r).next fun v hv => ?_
    obtain ⟨y, ys, hskip, hy⟩ := hr.head_ne (x := 'a') (by decide)
    have hfails : Fails aliasName (skip r) := by
      rw [hskip]
      exact (fails_keyword_head (y := 'a') rfl hy).bind _
    exact (hfails.optional (hr.skip_skip (by decide))).give fun a? ha => ⟨hv, ha⟩
  | some a =>
    have htext : (⟨value, some a, span⟩ : Label).text.toList =
        (Text.quote value).toList ++ ' ' :: ("as".toList ++ ' ' :: a.toList) := by simp [Label.text]
    rw [htext]
    refine ⟨hstart _, fun r hr => hlabel _ _ ?_⟩
    rw [List.append_assoc, List.cons_append, List.append_assoc, List.cons_append]
    refine (reads_string hvalue _).next fun v hv => ?_
    have halias : Reads aliasName ("as".toList ++ ' ' :: (a.toList ++ r)) (skip r) fun s =>
      s = a := by
      refine (reads_keyword rfl (by simp [Closed]; decide)).next fun _ _ => ?_
      rw [skip_space, (halias a rfl).skip_append]
      exact reads_name (halias a rfl) hr.closed
    have has : IsWord "as" := ⟨'a', ['s'], rfl, rfl, rfl⟩
    rw [skip_space, has.skip_append]
    refine halias.optional.give fun a? ha => ⟨hv, ?_⟩
    obtain ⟨s, rfl, hs⟩ := ha
    rw [hs]

end Labels

section Items

variable {d : LabelDecl}

theorem reads_labelKind (k : LabelKind) {r : List Char} (hr : Closed r) :
    Reads labelKind (k.predicate.toList ++ r) (skip r) fun k' => k' = k := by
  have hword : ∀ (w : String) (k : LabelKind),
      Reads (keyword w *> pure k) (w.toList ++ r) (skip r) fun k' => k' = k :=
    fun w k => (reads_keyword rfl hr).give fun _ _ => rfl
  cases k with
  | node => exact (hword "node" .node).orElse _
  | edge =>
    have hnode : Fails (keyword "node") ("edge".toList ++ r) :=
      fails_keyword_head (y := 'n') rfl (by decide)
    exact (hnode.bind _).orElse (hword "edge" .edge)

theorem reads_labels (hne : d.labels ≠ []) (hvalues : ∀ l ∈ d.labels, Text.isLegible l.value)
    (halias : ∀ l ∈ d.labels, ∀ s ∈ l.alias?, IsWord s) :
    Reads item (Item.labels d).text.toList [] fun j => j.mapSpan blot =
      (Item.labels d).mapSpan blot := by
  obtain ⟨kind, labels, span⟩ := d
  obtain ⟨l, ls, rfl⟩ := List.exists_cons_of_ne_nil hne
  have hlist := recovers_separated isSeparator_comma (S := ['.']) (fun l : Label => l.text.toList)
    (fun l hl => recovers_label (hvalues l hl) (halias l hl)) (by decide) (by decide)
  have htext : (Item.labels ⟨kind, l :: ls, span⟩).text.toList =
      kind.predicate.toList ++ ' ' :: ("labels".toList ++ ':' :: ' ' ::
        (l.text.toList ++ tailText ',' (fun l : Label => l.text.toList) ls ++ ['.'])) := by
    simp only [Item.text, String.toList_append, toList_intercalate ", " ',' rfl]
    simp
  have hlabels : IsWord "labels" := ⟨'l', _, rfl, rfl, rfl⟩
  rw [htext]
  have hparts : Reads (do
      let kind ← labelKind
      blanks
      keyword "labels"
      blanks
      exactly ":"
      blanks
      let labels ← separated "," label
      blanks
      exactly "."
      pure (kind, labels)) (kind.predicate.toList ++ ' ' :: ("labels".toList ++ ':' :: ' ' ::
        (l.text.toList ++ tailText ',' (fun l : Label => l.text.toList) ls ++ ['.']))) []
      fun x => x.1 = kind ∧ x.2.map (Label.mapSpan blot) = (l :: ls).map (Label.mapSpan blot) := by
    refine (reads_labelKind kind (by simp [Closed]; decide)).next fun k hk => ?_
    rw [skip_space, hlabels.skip_append]
    refine (reads_keyword rfl (by simp [Closed]; decide)).next fun _ _ => ?_
    rw [skip_start (by decide)]
    refine (reads_mark rfl _).next fun _ _ => ?_
    rw [skip_space, hlist.skip_append]
    refine (hlist.reads _ (stop_point (by decide))).next fun ls' hls => ?_
    rw [skip_start (by decide)]
    exact (reads_mark rfl []).give fun _ _ => ⟨hk, hls⟩
  refine (hparts.spanned.bind fun x hx => resumes_pure ?_).orElse _
  simp only [Item.mapSpan, hx.1, hx.2]
  rfl

theorem reads_query {q : Query} (hname : IsWord q.name)
    (hbody : q.body.Made IsCallName ArgKind.Written) :
    Reads item (Item.query q).text.toList [] fun j => j.mapSpan blot =
      (Item.query q).mapSpan blot := by
  obtain ⟨n, nameSpan, body, span⟩ := q
  have hformula := recovers_formula body hbody
  have htext : (Item.query ⟨n, nameSpan, body, span⟩).text.toList =
      "query".toList ++ ' ' :: (n.toList ++ ':' :: ' ' :: (body.text.toList ++ ['.'])) := by
    simp [Item.text]
  rw [htext]
  have hparts : Reads (do
      keyword "query"
      blanks
      let n ← spanned name
      blanks
      exactly ":"
      blanks
      let body ← formula
      blanks
      exactly "."
      pure (n, body)) ("query".toList ++ ' ' ::
      (n.toList ++ ':' :: ' ' :: (body.text.toList ++ ['.']))) []
      fun x => x.1.1 = n ∧ x.2.mapSpan blot = body.mapSpan blot := by
    refine (reads_keyword rfl (by simp [Closed]; decide)).next fun _ _ => ?_
    rw [skip_space, IsWord.skip_append hname]
    refine ((reads_name hname (by simp [Closed]; decide)).spanned).next fun m hm => ?_
    rw [skip_start (by decide)]
    refine (reads_mark rfl _).next fun _ _ => ?_
    rw [skip_space, hformula.skip_append]
    refine (hformula.reads _ (stop_point (by decide))).next fun f hf => ?_
    rw [skip_start (by decide)]
    exact (reads_mark rfl []).give fun _ _ => ⟨hm, hf⟩
  have hkind : Fails labelKind ("query".toList ++ ' ' ::
      (n.toList ++ ':' :: ' ' :: (body.text.toList ++ ['.']))) :=
    ((fails_keyword_head (w := "node") rfl (by decide)).bind _).both
      ((fails_keyword_head (w := "edge") rfl (by decide)).bind _)
  refine ((((hkind.bind _).spanned).bind _).orElse
    ((hparts.spanned.bind fun x hx => resumes_pure ?_).orElse _))
  simp only [Item.mapSpan, hx.1, hx.2]
  rfl

def consequenceText (cs : List Call) : List Char := (", ".intercalate (cs.map Call.text)).toList

section Rules

variable {cs : List Call}

theorem recovers_consequence (hne : cs ≠ []) (h : ∀ c ∈ cs, c.Made IsCallName ArgKind.Written) :
    Recovers ['.'] (List.map (Call.mapSpan blot)) (separated "," call) (consequenceText cs) cs := by
  obtain ⟨c, cs, rfl⟩ := List.exists_cons_of_ne_nil hne
  rw [consequenceText, toList_intercalate ", " ',' rfl]
  refine recovers_separated isSeparator_comma (fun d : Call =>
    d.text.toList) (S := ['.']) (fun d hd => ?_) (by decide)
    (by decide)
  exact recovers_call ⟨(h d hd).name.1, (h d hd).args⟩ (by decide) (by decide)

def callsFormula (cs : List Call) : Formula := .mk [cs.map .call] default

theorem text_callsFormula (cs : List Call) :
    (callsFormula cs).text.toList = consequenceText cs := by
  have hmap : (cs.map Literal.call).map Literal.text = cs.map Call.text := by
    rw [List.map_map]
    rfl
  rw [callsFormula, Formula.text, formula_texts_eq, List.map_singleton, hmap,
    String.intercalate_singleton]
  rfl

theorem made_callsFormula {P : String → Prop} {Q : ArgKind → Prop} (hne : cs ≠ [])
    (h : ∀ c ∈ cs, c.Made P Q) : (callsFormula cs).Made P Q := by
  refine ⟨by simp, ⟨by simpa using hne, Literal.madeAll_iff.mpr fun l hl => ?_⟩, trivial⟩
  obtain ⟨c, hc, rfl⟩ := List.mem_map.mp hl
  exact h c hc

theorem fails_antecedent (hne : cs ≠ []) (h : ∀ c ∈ cs, c.Made IsCallName ArgKind.Written) :
    Fails antecedent (consequenceText cs ++ ['.']) := by
  have hformula := recovers_formula _ (made_callsFormula hne h)
  rw [text_callsFormula] at hformula
  refine (hformula.reads _ (stop_point (by decide))).stop fun _ _ => ?_
  rw [skip_start (by decide)]
  exact (fails_exactly (y := '-') rfl (by decide)).bind _

theorem reads_antecedent {f : Formula} (hf : f.Made IsCallName ArgKind.Written) (hne : cs ≠ [])
    (h : ∀ c ∈ cs, c.Made IsCallName ArgKind.Written) :
    Reads antecedent (f.text.toList ++ ' ' :: '-' :: '>' :: ' ' :: (consequenceText cs ++ ['.']))
      (consequenceText cs ++ ['.']) fun g => g.mapSpan blot = f.mapSpan blot := by
  have harrow : Reads (exactly "->") ('-' :: '>' :: ' ' :: (consequenceText cs ++ ['.']))
      (skip (' ' :: (consequenceText cs ++ ['.']))) fun _ => True :=
        reads_exactly (t := ['-', '>']) rfl _
  rw [skip_space, (recovers_consequence hne h).skip_append] at harrow
  refine ((recovers_formula f hf).reads _ (stop_space (by decide) (by decide))).next fun g hg => ?_
  rw [skip_space, skip_start (by decide)]
  exact harrow.give fun _ _ => hg

theorem reads_consequence {s : List Char} {f? : Option Formula} (span : Span) (hne : cs ≠ [])
    (h : ∀ c ∈ cs, c.Made IsCallName ArgKind.Written)
    (hcondition : Reads (optional antecedent) s (consequenceText cs ++ ['.'])
      fun g? => g?.map (Formula.mapSpan blot) = f?.map (Formula.mapSpan blot)) :
    Reads rule s [] fun j => j.mapSpan blot = (Item.rule ⟨f?, cs, span⟩).mapSpan blot := by
  have hlist := recovers_consequence hne h
  have hparts : Reads (do
      let antecedent? ← optional antecedent
      blanks
      let consequence ← separated "," call
      blanks
      exactly "."
      pure (antecedent?, consequence)) s [] fun x =>
        x.1.map (Formula.mapSpan blot) = f?.map (Formula.mapSpan blot) ∧
        x.2.map (Call.mapSpan blot) = cs.map (Call.mapSpan blot) := by
    refine hcondition.next fun g? hg => ?_
    refine (hlist.reads _ (stop_point (by decide))).next fun ds hds => ?_
    rw [skip_start (by decide)]
    exact (reads_mark rfl []).give fun _ _ => ⟨hg, hds⟩
  refine hparts.spanned.bind fun x hx => resumes_pure ?_
  simp only [Item.mapSpan, hx.1, hx.2]
  rfl

theorem reads_rule {d : Rule} (hf : ∀ f ∈ d.antecedent?, f.Made IsCallName ArgKind.Written)
    (hne : d.consequence ≠ []) (h : ∀ c ∈ d.consequence, c.Made IsCallName ArgKind.Written) :
    Reads item (Item.rule d).text.toList [] fun j => j.mapSpan blot =
      (Item.rule d).mapSpan blot := by
  obtain ⟨f?, cs, span⟩ := d
  cases f? with
  | none =>
    have htext : (Item.rule ⟨none, cs, span⟩).text.toList = consequenceText cs ++ ['.'] := by
      simp [Item.text, consequenceText]
    have hwordless : Wordless (consequenceText cs ++ ['.']) := by
      rw [← text_callsFormula]
      exact wordless_formula (made_callsFormula hne h) (stop_point (by decide))
    have hskip := (recovers_consequence hne h).skip_append ['.']
    rw [htext]
    refine (fails_labelDecl hwordless).orElse
      ((fails_query hwordless).orElse (reads_consequence span hne h ?_))
    exact ((fails_antecedent hne h).optional hskip).imp fun g? hg => by rw [hg]
  | some f =>
    have htext : (Item.rule ⟨some f, cs, span⟩).text.toList =
        f.text.toList ++ ' ' :: '-' :: '>' :: ' ' :: (consequenceText cs ++ ['.']) := by
      simp [Item.text, consequenceText]
    have hwordless : Wordless (f.text.toList ++ ' ' :: '-' :: '>' :: ' ' ::
        (consequenceText cs ++ ['.'])) :=
      wordless_formula (hf f rfl) (stop_space (by decide) (by decide))
    rw [htext]
    refine (fails_labelDecl hwordless).orElse
      ((fails_query hwordless).orElse (reads_consequence span hne h ?_))
    refine (reads_antecedent (hf f rfl) hne h).optional.imp fun g? hg => ?_
    obtain ⟨g, rfl, hg⟩ := hg
    rw [Option.map_some, Option.map_some, hg]

end Rules

/-- An item is read back from its text. -/
theorem reads_item {i : Item} (h : i.Made IsCallName ArgKind.Written)
    (hvalues : ∀ s ∈ i.labelValues, Text.isLegible s) :
    Reads item i.text.toList [] fun j => j.mapSpan blot = i.mapSpan blot := by
  cases i with
  | labels d => exact reads_labels h.1 (fun l hl => hvalues _ (List.mem_map_of_mem hl)) h.2
  | rule d => exact reads_rule h.1 h.2.1 h.2.2
  | query d => exact reads_query h.1 h.2

theorem skip_item {i : Item} (h : i.Made IsCallName ArgKind.Written) :
    skip i.text.toList = i.text.toList := by
  cases i with
  | labels d =>
    have hkind : ∀ k : LabelKind, IsWord k.predicate := by
      intro k
      cases k <;> exact ⟨_, _, rfl, rfl, rfl⟩
    simpa [Item.text] using (hkind d.kind).skip_append _
  | rule d =>
    obtain ⟨f?, cs, span⟩ := d
    cases f? with
    | none =>
      simpa [Item.text, consequenceText] using (recovers_consequence h.2.1 h.2.2).skip_append ['.']
    | some f => simpa [Item.text] using (recovers_formula f (h.1 f rfl)).skip_append _
  | query d =>
    have hquery : IsWord "query" := ⟨_, _, rfl, rfl, rfl⟩
    simpa [Item.text] using hquery.skip_append _

theorem parse_of_reads {s : String} {Q : Item → Prop} (h : Reads item s.toList [] Q)
    (hskip : skip s.toList = s.toList) : ∃ i, parse s = .ok ⟨[i]⟩ ∧ Q i := by
  obtain ⟨start, hstart⟩ : ∃ start : Cursor, start = { rest := s.toList } := ⟨_, rfl⟩
  have hrest : (start.advance (blankLength start.rest)).rest = s.toList := by
    rw [hstart]; exact hskip
  obtain ⟨i, c, hitem, hend, hnone, hi⟩ :=
    h { start.advance (blankLength start.rest) with oversized? := none } hrest
  have hfirst : nextStatement start = some (.item i, c) := by
    rw [nextStatement_eq]
    exact statement_of_item hitem hnone
  have hlast : nextStatement c = none := by
    rw [nextStatement_eq]
    exact statement_nil hend
  have hall : statements s = [.item i] := by
    rw [statements_eq, ← hstart, statementsAt_of_some hfirst, statementsAt_of_none hlast]
  have hparse : parse s = .ok ⟨(statements s).filterMap Statement.item?⟩ :=
    parse_of_nil (by rw [hall]; rfl)
  rw [hall] at hparse
  exact ⟨i, hparse, hi⟩

end Items

end Script

/-- What can be read back from the canonical text of an item: no predicate has the name of
negations, strings and label values have only characters that are shown, and numbers with a point
are written plainly. -/
structure Item.Legible (i : Item) : Prop where
  names : ∀ c ∈ i.calls, c.name ≠ "not"
  args : ∀ a ∈ i.args, a.kind.Legible
  labels : ∀ s ∈ i.labelValues, Text.isLegible s

instance : DecidablePred ArgKind.Legible
  | .quoted s => inferInstanceAs (Decidable (Text.isLegible s = true))
  | .float x => inferInstanceAs (Decidable x.Plain)
  | .var _ => isTrue trivial
  | .wildcard => isTrue trivial
  | .symbol _ => isTrue trivial
  | .int _ => isTrue trivial

instance (i : Item) : Decidable i.Legible :=
  decidable_of_iff ((∀ c ∈ i.calls, c.name ≠ "not") ∧ (∀ a ∈ i.args, a.kind.Legible) ∧
    ∀ s ∈ i.labelValues, Text.isLegible s) ⟨fun h => ⟨h.1, h.2.1, h.2.2⟩, fun h =>
      ⟨h.names, h.args, h.labels⟩⟩

theorem Item.Legible.made {i : Item} (h : i.Legible) (hmade : i.Made IsWord ArgKind.Spelled) :
    i.Made IsCallName ArgKind.Written :=
  hmade.imp (fun c hc hname => ⟨hname, h.names c hc⟩) fun a ha hspelled =>
    hspelled.written (h.args a ha)

namespace Script

theorem exists_script_all (text : String) {p : Item → Bool}
    (h : statements text ≠ [] ∧ (statements text).all fun s => s.item?.any p) :
    ∃ script, parse text = .ok script ∧ script.items ≠ [] ∧ ∀ i ∈ script.items, p i := by
  have hitem : ∀ s ∈ statements text, ∃ i, s = .item i ∧ p i := by
    intro s hs
    have hp := List.all_eq_true.mp h.2 s hs
    cases s with
    | item i => exact ⟨i, rfl, hp⟩
    | oversized _ _ => cases hp
    | malformed _ _ => cases hp
  have hnone : (statements text).filterMap Statement.diagnostic? = [] := by
    refine List.filterMap_eq_nil_iff.mpr fun s hs => ?_
    obtain ⟨i, rfl, _⟩ := hitem s hs
    rfl
  refine ⟨_, parse_of_nil hnone, ?_, fun i hi => ?_⟩
  · obtain ⟨s, ss, hss⟩ := List.exists_cons_of_ne_nil h.1
    obtain ⟨i, rfl, _⟩ := hitem s (by simp [hss])
    simp [hss, Statement.item?]
  · obtain ⟨s, hs, hsome⟩ := List.mem_filterMap.mp hi
    obtain ⟨j, rfl, hj⟩ := hitem s hs
    cases hsome
    exact hj

theorem canonical_text_reads_back {source : String} {script : Script}
    (h : parse source = .ok script) {i : Item} (hi : i ∈ script.items) (hlegible : i.Legible) :
    ∃ j, parse i.text = .ok ⟨[j]⟩ ∧ j.mapSpan blot = i.mapSpan blot := by
  have hmade := hlegible.made (made_of_parse h i hi)
  exact parse_of_reads (reads_item hmade hlegible.labels) (skip_item hmade)

def mixedSource : String :=
  "node labels: a, \"a \\\"b\\\"\" as c. % ab\n" ++
    "not p(), ((X<=-0.5); q(\"\\t\")) -> query(X), labels( ). query not: not==-7."

theorem canonical_text_reads_back_mixed : ∃ script,
    parse mixedSource = .ok script ∧ (∃ i ∈ script.items, i.Legible) ∧
    ∀ i ∈ script.items, i.Legible → ∃ j, parse i.text = .ok ⟨[j]⟩ ∧
      j.mapSpan blot = i.mapSpan blot := by
  obtain ⟨script, h, hne, hlegible⟩ := exists_script_all mixedSource
    (p := fun i => decide i.Legible) (by decide +kernel)
  obtain ⟨i, is, hitems⟩ := List.exists_cons_of_ne_nil hne
  have hi : i ∈ script.items := by simp [hitems]
  exact ⟨script, h, ⟨i, hi, of_decide_eq_true (hlegible i hi)⟩,
    fun _ => canonical_text_reads_back h⟩

end Script

end GraphRules
