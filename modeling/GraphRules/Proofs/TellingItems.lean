import GraphRules.Proofs.TellingTexts

/-! What the text of an item tells about it. What stands after the word, number or string at its
start shows which kind of literal or declaration it is, and from there on every part can be told.
Items with one text are the same but for their spans and for infinity. -/
namespace GraphRules

open Script

mutual

def Literal.shown : Literal → Literal
  | .call c => .call c.shown
  | .negated f _ => .negated f.shown default
  | .compare c => .compare c.shown
  | .group f => .group f.shown

def Formula.shown : Formula → Formula
  | .mk ds _ => .mk (Formula.shownAny ds) default

def Formula.shownAny : List (List Literal) → List (List Literal)
  | [] => []
  | c :: cs => Literal.shownAll c :: Formula.shownAny cs

def Literal.shownAll : List Literal → List Literal
  | [] => []
  | l :: ls => l.shown :: Literal.shownAll ls

end

/-- An item as its text shows it: without spans, and with infinity as the symbol that it looks like.
-/
def Item.shown : Item → Item
  | .labels d => .labels ⟨d.kind, d.labels.map (Label.mapSpan blot), default⟩
  | .rule r => .rule ⟨r.antecedent?.map Formula.shown, r.consequence.map Call.shown, default⟩
  | .query q => .query ⟨q.name, default, q.body.shown, default⟩

theorem Literal.shownAll_eq (ls : List Literal) : Literal.shownAll ls = ls.map Literal.shown := by
  induction ls with
  | nil => rfl
  | cons l ls ih => rw [Literal.shownAll, ih, List.map_cons]

theorem Formula.shown_mk (ds : List (List Literal)) (s : Span) :
    (Formula.mk ds s).shown = .mk (ds.map (List.map Literal.shown)) default := by
  have hany : Formula.shownAny ds = ds.map (List.map Literal.shown) := by
    induction ds with
    | nil => rfl
    | cons c cs ih => rw [Formula.shownAny, Literal.shownAll_eq, ih, List.map_cons]
  rw [Formula.shown, hany]

namespace Script

inductive Form where
  | call | negated | compare | group | word

def Form.of (w : List Char) : List Char → Form
  | ' ' :: c :: _ => if c = '(' then .negated else if c = '-' then .call
    else if c.isLower then .word else .compare
  | _ => if w = [] then .group else .call

def Form.keyword? (w : List Char) : Form → Option String
  | .word => some (String.ofList w)
  | _ => none

section Literals

variable {l l' : Literal} {r s : List Char}

theorem form_call {w : List Char} (hw : w ≠ []) (h : Follows ('(' :: literalMarks) r) :
    Form.of w r = .call := by
  cases h with
  | stop => exact if_neg hw
  | arrow r => rfl
  | @mark c hc r =>
    have hmarks : ('(' :: literalMarks).all (· ≠ ' ') := by decide
    have hspace := of_decide_eq_true (List.all_eq_true.mp hmarks c hc)
    unfold Form.of
    split
    · rename_i heq
      exact (hspace (List.cons.inj heq).1).elim
    · exact if_neg hw

theorem text_negated (f : Formula) (span : Span) (r : List Char) :
    (Literal.negated f span).text.toList ++ r =
      "not".toList ++ ' ' :: '(' :: (f.text.toList ++ ')' :: r) := by
  simp [Literal.text]

theorem text_group (f : Formula) (r : List Char) :
    (Literal.group f).text.toList ++ r = [] ++ '(' :: (f.text.toList ++ ')' :: r) := by
  simp [Literal.text]

theorem text_compare (c : Comparison) (r : List Char) :
    (Literal.compare c).text.toList ++ r =
      c.left.text.toList ++ ' ' :: (c.op.symbol.toList ++ ' ' :: (c.right.text.toList ++ r)) := by
  simp [Literal.text, Comparison.text]

end Literals

end Script

def Literal.opening : Literal → List Char
  | .call c => c.name.toList
  | .negated _ _ => "not".toList
  | .compare c => c.left.text.toList
  | .group _ => []

def Literal.form : Literal → Form
  | .call _ => .call
  | .negated _ _ => .negated
  | .compare _ => .compare
  | .group _ => .group

def Item.keyword? : Item → Option String
  | .labels d => some d.kind.predicate
  | .query _ => some "query"
  | .rule _ => none

namespace Script

section Literals

variable {l l' : Literal} {r s : List Char} {f : Formula} {span : Span}

theorem text_literal (h : l.Made IsWord ArgKind.Spelled) (hr : Follows literalMarks r) :
    ∃ rest, l.text.toList ++ r = l.opening ++ rest ∧ Opening l.opening ∧ Parted rest ∧
      Form.of l.opening rest = l.form := by
  cases l with
  | call c =>
    obtain ⟨n, args, span⟩ := c
    obtain ⟨hopening, hne⟩ := opening_name h.name
    have hrest : ∃ rest, (Call.mk n args span).text.toList ++ r = n.toList ++ rest ∧
        Follows ('(' :: literalMarks) rest := by
      cases args with
      | nil => exact ⟨r, rfl, hr.mono (List.subset_cons_self ..)⟩
      | cons a as => exact ⟨_, text_call n a as span r, .mark (List.mem_cons_self ..) _⟩
    obtain ⟨rest, htext, hfollows⟩ := hrest
    exact ⟨rest, htext, hopening, hfollows.parted (List.Subset.refl _), form_call hne hfollows⟩
  | negated f span => exact ⟨_, text_negated f span r, .run rfl, parted_space _, rfl⟩
  | compare c =>
    refine ⟨_, text_compare c r, opening_arg h.1, parted_space _, ?_⟩
    cases c.op <;> rfl
  | group f => exact ⟨_, text_group f r, .run rfl, parted_open _, rfl⟩

/-- What literals with one text start with is the same, and so is their form. -/
theorem form_eq (h : l.Made IsWord ArgKind.Spelled) (h' : l'.Made IsWord ArgKind.Spelled)
    (hr : Follows literalMarks r) (hs : Follows literalMarks s)
    (heq : l.text.toList ++ r = l'.text.toList ++ s) :
    l.opening = l'.opening ∧ l.form = l'.form := by
  obtain ⟨rest, htext, hopening, hparted, hform⟩ := text_literal h hr
  obtain ⟨rest', htext', hopening', hparted', hform'⟩ := text_literal h' hs
  obtain ⟨hsame, hrest⟩ := hopening.tells hopening' hparted hparted' (htext ▸ htext' ▸ heq)
  exact ⟨hsame, by rw [← hform, ← hform', hsame, hrest]⟩

abbrev TellsLiteral : Literal → Prop :=
  Tells (Literal.Made IsWord ArgKind.Spelled) (Follows literalMarks)
    (fun l => l.text.toList) Literal.shown

abbrev TellsFormula : Formula → Prop :=
  Tells (Formula.Made IsWord ArgKind.Spelled) (Follows [')']) (fun f => f.text.toList) Formula.shown

theorem tells_callLiteral {c : Call} (h : c.Made IsWord ArgKind.Spelled) :
    TellsLiteral (.call c) := by
  intro l r s hl hr hs heq
  have hform := (form_eq (l := .call c) h hl hr hs heq).2
  cases l with
  | call d =>
    obtain ⟨hshown, hrest⟩ := tells_call h d r s hl hr hs heq
    exact ⟨by rw [Literal.shown, hshown, Literal.shown], hrest⟩
  | negated f span => cases hform
  | compare d => cases hform
  | group f => cases hform

theorem tells_negated (h : f.Made IsWord ArgKind.Spelled) (hf : TellsFormula f) :
    TellsLiteral (.negated f span) := by
  intro l r s hl hr hs heq
  have hform := (form_eq (l := .negated f span) h hl hr hs heq).2
  cases l with
  | negated g span' =>
    dsimp only at heq
    rw [text_negated, text_negated, List.append_cancel_left_eq] at heq
    obtain ⟨hshown, hrest⟩ :=
      hf g _ _ hl (.mark (List.mem_singleton_self _) r) (.mark (List.mem_singleton_self _) s)
      (List.cons.inj (List.cons.inj heq).2).2
    exact ⟨by rw [Literal.shown, hshown, Literal.shown], (List.cons.inj hrest).2⟩
  | call d => cases hform
  | compare d => cases hform
  | group f => cases hform

theorem tells_group (h : f.Made IsWord ArgKind.Spelled) (hf : TellsFormula f) :
    TellsLiteral (.group f) := by
  intro l r s hl hr hs heq
  have hform := (form_eq (l := .group f) h hl hr hs heq).2
  cases l with
  | group g =>
    dsimp only at heq
    rw [text_group, text_group, List.append_cancel_left_eq] at heq
    obtain ⟨hshown, hrest⟩ :=
      hf g _ _ hl (.mark (List.mem_singleton_self _) r) (.mark (List.mem_singleton_self _) s)
      (List.cons.inj heq).2
    exact ⟨by rw [Literal.shown, hshown, Literal.shown], (List.cons.inj hrest).2⟩
  | call d => cases hform
  | compare d => cases hform
  | negated f span => cases hform

theorem symbol_tells {op op' : Comparator}
    (h : op.symbol.toList ++ ' ' :: r = op'.symbol.toList ++ ' ' :: s) : op = op' ∧ r = s := by
  have hspace : ∀ k : Comparator, ' ' ∉ k.symbol.toList := by
    intro k
    cases k <;> decide
  obtain ⟨hsymbol, hrest⟩ := Text.split_at_mark (hspace op) (hspace op') h
  refine ⟨?_, hrest⟩
  cases op <;> cases op' <;> first | rfl | cases hsymbol

theorem tells_compare {c : Comparison} (hleft : c.left.kind.Spelled)
    (hright : c.right.kind.Spelled) : TellsLiteral (.compare c) := by
  intro l r s hl hr hs heq
  obtain ⟨hopening, hform⟩ := form_eq (l := .compare c) ⟨hleft, hright⟩ hl hr hs heq
  cases l with
  | compare d =>
    dsimp only at heq
    have hkind : c.left.shown = d.left.shown := by
      rw [Arg.shown, Arg.shown, shown_of_text hleft hl.1 hopening]
    rw [text_compare, text_compare, show c.left.text.toList = d.left.text.toList from hopening,
      List.append_cancel_left_eq] at heq
    obtain ⟨hop, hrest⟩ := symbol_tells (List.cons.inj heq).2
    obtain ⟨hshown, hend⟩ :=
      tells_arg hright d.right r s hl.2 (hr.parted (List.subset_cons_self ..))
      (hs.parted (List.subset_cons_self ..)) hrest
    exact ⟨by
      rw [Literal.shown, Literal.shown, Comparison.shown, Comparison.shown, hop, hkind, hshown],
      hend⟩
  | call d => cases hform
  | negated f span => cases hform
  | group f => cases hform

theorem tells_condition {c : List Literal} (hne : c ≠ []) (h : ∀ l ∈ c, TellsLiteral l) :
    Tells (fun d => d ≠ [] ∧ ∀ l ∈ d, l.Made IsWord ArgKind.Spelled) (Follows [';', ')'])
      (fun d => (", ".intercalate (d.map Literal.text)).toList) (List.map Literal.shown) c :=
  tells_separated ", " rfl hne h (by decide) (by decide)

theorem tells_formulaOf {ds : List (List Literal)} (hne : ds ≠ [])
    (h : ∀ c ∈ ds, c ≠ [] ∧ ∀ l ∈ c, TellsLiteral l) : TellsFormula (.mk ds span) := by
  rintro ⟨ds', span'⟩ r s hf hr hs heq
  have htells :=
    tells_separated "; " (S := [')']) rfl hne (fun c hc => tells_condition (h c hc).1 (h c hc).2)
    (by decide) (by decide)
  simp only [Formula.text, formula_texts_eq] at heq
  obtain ⟨hshown, hrest⟩ := htells ds' r s ⟨hf.1, Formula.madeAny_iff.mp hf.2⟩ hr hs heq
  exact ⟨by rw [Formula.shown_mk, Formula.shown_mk, hshown], hrest⟩

end Literals

mutual

theorem tells_literal : ∀ l : Literal, l.Made IsWord ArgKind.Spelled → TellsLiteral l
  | .call _, h => tells_callLiteral h
  | .negated f _, h => tells_negated h (tells_formula f h)
  | .compare _, h => tells_compare h.1 h.2
  | .group f, h => tells_group h (tells_formula f h)

theorem tells_formula : ∀ f : Formula, f.Made IsWord ArgKind.Spelled → TellsFormula f
  | .mk ds _, h => tells_formulaOf h.1 (tells_conditions ds h.2)

theorem tells_conditions : ∀ ds : List (List Literal), Formula.MadeAny IsWord ArgKind.Spelled ds →
    ∀ c ∈ ds, c ≠ [] ∧ ∀ l ∈ c, TellsLiteral l
  | [], _ => fun _ hc => by cases hc
  | c :: cs, h =>
    List.forall_mem_cons.mpr ⟨⟨h.1.1, tells_literals c h.1.2⟩, tells_conditions cs h.2⟩

theorem tells_literals :
    ∀ ls : List Literal, Literal.MadeAll IsWord ArgKind.Spelled ls → ∀ l ∈ ls, TellsLiteral l
  | [], _ => fun _ hl => by cases hl
  | l :: ls, h => List.forall_mem_cons.mpr ⟨tells_literal l h.1, tells_literals ls h.2⟩

end

section Labels

theorem text_label (value : String) (n : String) (span : Span) (r : List Char) :
    (Label.mk value (some n) span).text.toList ++ r =
      (Text.quote value).toList ++ ' ' :: 'a' :: 's' :: ' ' :: (n.toList ++ r) := by
  simp [Label.text]

theorem tells_label {l : Label} (h : ∀ n ∈ l.alias?, IsWord n) :
    Tells (fun m : Label => ∀ n ∈ m.alias?, IsWord n) (Follows [',']) (fun m => m.text.toList)
      (Label.mapSpan blot) l := by
  intro m r s hm hr hs heq
  obtain ⟨value, alias?, span⟩ := l
  obtain ⟨value', alias'?, span'⟩ := m
  have hr' := hr.parted (by decide)
  have hs' := hs.parted (by decide)
  -- after a value without a name stands no word
  have hword : ∀ {t : List Char}, Follows [','] t → ∀ cs, t ≠ ' ' :: 'a' :: cs := by
    intro t ht cs heq
    cases ht <;> cases heq
    exact absurd ‹_› (by decide)
  have hquoted : ∀ v, Opening (Text.quote v).toList := fun v => .quoted v rfl
  cases alias? with
  | none =>
    cases alias'? with
    | none =>
      obtain ⟨hvalue, hrest⟩ := (hquoted value).tells (hquoted value') hr' hs' heq
      exact ⟨by rw [Label.mapSpan, quote_injective hvalue]; rfl, hrest⟩
    | some n =>
      dsimp only at heq
      rw [text_label] at heq
      obtain ⟨_, hrest⟩ := (hquoted value).tells (hquoted value') hr' (parted_space _) heq
      exact (hword hr _ hrest).elim
  | some n =>
    dsimp only at heq
    rw [text_label] at heq
    cases alias'? with
    | none =>
      obtain ⟨_, hrest⟩ := (hquoted value).tells (hquoted value') (parted_space _) hs' heq
      exact (hword hs _ hrest.symm).elim
    | some n' =>
      rw [text_label] at heq
      obtain ⟨hvalue, hrest⟩ :=
        (hquoted value).tells (hquoted value') (parted_space _) (parted_space _) heq
      simp only [List.cons.injEq, true_and] at hrest
      obtain ⟨hname, hend⟩ :=
        (opening_name (h n rfl)).1.tells (opening_name (hm n' rfl)).1 hr' hs' hrest
      exact ⟨by rw [Label.mapSpan, quote_injective hvalue, String.toList_inj.mp hname]; rfl, hend⟩

end Labels

section Items

variable {i j : Item}

theorem text_labels (d : LabelDecl) : (Item.labels d).text.toList = d.kind.predicate.toList ++
    ' ' :: ("labels: ".toList ++
      ((", ".intercalate (d.labels.map Label.text)).toList ++ ['.'])) := by
  simp [Item.text]

theorem text_query (q : Query) : (Item.query q).text.toList =
    "query".toList ++ ' ' :: (q.name.toList ++ ':' :: ' ' :: (q.body.text.toList ++ ['.'])) := by
  simp [Item.text]

theorem text_fact (cs : List Call) (span : Span) :
    (Item.rule ⟨none, cs, span⟩).text.toList = (callsFormula cs).text.toList ++ ['.'] := by
  simp [Item.text, text_callsFormula, consequenceText]

theorem text_rule (f : Formula) (cs : List Call) (span : Span) :
    (Item.rule ⟨some f, cs, span⟩).text.toList =
    f.text.toList ++ ' ' :: '-' :: '>' :: ' ' :: ((callsFormula cs).text.toList ++ ['.']) := by
  simp [Item.text, text_callsFormula, consequenceText]

theorem text_formula {f : Formula} (h : f.Made IsWord ArgKind.Spelled) {r : List Char}
    (hr : Follows [')'] r) :
    ∃ w rest, f.text.toList ++ r = w ++ rest ∧ Opening w ∧ Parted rest ∧
      (Form.of w rest).keyword? w = none := by
  obtain ⟨ds, span⟩ := f
  obtain ⟨c, cs, rfl⟩ := List.exists_cons_of_ne_nil h.1
  obtain ⟨⟨hne, hc⟩, _⟩ := h.2
  obtain ⟨l, ls, rfl⟩ := List.exists_cons_of_ne_nil hne
  rw [Formula.text, formula_texts_eq, toList_intercalate "; " ';' rfl,
    toList_intercalate ", " ',' rfl, List.append_assoc, List.append_assoc]
  obtain ⟨rest, htext, hopening, hparted, hform⟩ :=
    text_literal hc.1 ((hr.tail ';' _ cs).tail ',' _ ls)
  refine ⟨l.opening, rest, htext, hopening, hparted, ?_⟩
  rw [hform]
  cases l <;> rfl

theorem tells_labels {d e : LabelDecl} (hd : (Item.labels d).Made IsWord ArgKind.Spelled)
    (he : (Item.labels e).Made IsWord ArgKind.Spelled)
    (h : (Item.labels d).text = (Item.labels e).text) :
    (Item.labels d).shown = (Item.labels e).shown := by
  have hkind : ∀ k : LabelKind, Opening k.predicate.toList := by
    intro k
    cases k <;> exact .run rfl
  have htext := congrArg String.toList h
  rw [text_labels, text_labels] at htext
  obtain ⟨hpredicate, hrest⟩ :=
    (hkind d.kind).tells (hkind e.kind) (parted_space _) (parted_space _) htext
  have hsame : d.kind = e.kind := by
    cases hk : d.kind <;> cases hk' : e.kind <;> rw [hk,
      hk'] at hpredicate <;> first | rfl | cases hpredicate
  obtain ⟨hlabels, _⟩ :=
    tells_separated ", " (S := []) rfl hd.1 (fun l hl => tells_label (hd.2 l hl)) (by decide)
    (by decide) e.labels _ _ ⟨he.1, he.2⟩ .stop .stop
      (List.append_cancel_left (List.cons.inj hrest).2)
  rw [Item.shown, Item.shown, hsame, hlabels]

theorem tells_query {q p : Query} (hq : (Item.query q).Made IsWord ArgKind.Spelled)
    (hp : (Item.query p).Made IsWord ArgKind.Spelled)
    (h : (Item.query q).text = (Item.query p).text) :
    (Item.query q).shown = (Item.query p).shown := by
  have hcolon : ∀ r, Parted (':' :: r) := fun r => .inr ⟨':', r, rfl, by decide, by decide⟩
  have htext := congrArg String.toList h
  rw [text_query, text_query, List.append_cancel_left_eq] at htext
  obtain ⟨hname, hrest⟩ :=
    (opening_name hq.1).1.tells (opening_name hp.1).1 (hcolon _) (hcolon _) (List.cons.inj htext).2
  obtain ⟨hbody, _⟩ :=
    tells_formula q.body hq.2 p.body _ _ hp.2 .stop .stop (List.cons.inj (List.cons.inj hrest).2).2
  rw [Item.shown, Item.shown, String.toList_inj.mp hname, hbody]

theorem shown_callsFormula {cs ds : List Call}
    (h : (callsFormula cs).shown = (callsFormula ds).shown) :
    cs.map Call.shown = ds.map Call.shown := by
  have hcalls : ∀ cs : List Call,
      (cs.map Literal.call).map Literal.shown = (cs.map Call.shown).map Literal.call := by
    intro cs
    rw [List.map_map, List.map_map]
    rfl
  rw [callsFormula, callsFormula, Formula.shown_mk, Formula.shown_mk, List.map_singleton,
    List.map_singleton, hcalls, hcalls] at h
  exact List.map_injective_iff.mpr (fun _ _ => Literal.call.inj)
    (List.cons.inj (Formula.mk.inj h).1).1

theorem tells_rule {d e : Rule} (hd : (Item.rule d).Made IsWord ArgKind.Spelled)
    (he : (Item.rule e).Made IsWord ArgKind.Spelled) (h : (Item.rule d).text = (Item.rule e).text) :
    (Item.rule d).shown = (Item.rule e).shown := by
  obtain ⟨f?, cs, span⟩ := d
  obtain ⟨g?, ds, span'⟩ := e
  obtain ⟨hf, hne, hcs⟩ := hd
  obtain ⟨hg, hne', hds⟩ := he
  have hcalls := made_callsFormula hne hcs
  have hcalls' := made_callsFormula hne' hds
  have htext := congrArg String.toList h
  cases f? with
  | none =>
    rw [text_fact] at htext
    cases g? with
    | none =>
      rw [text_fact] at htext
      obtain ⟨hshown, _⟩ := tells_formula _ hcalls _ _ _ hcalls' .stop .stop htext
      rw [Item.shown, shown_callsFormula hshown]
      rfl
    | some g =>
      rw [text_rule] at htext
      obtain ⟨_, hrest⟩ := tells_formula _ hcalls g _ _ (hg g rfl) .stop (.arrow _) htext
      cases hrest
  | some f =>
    rw [text_rule] at htext
    cases g? with
    | none =>
      rw [text_fact] at htext
      obtain ⟨_, hrest⟩ := tells_formula f (hf f rfl) _ _ _ hcalls' (.arrow _) .stop htext
      cases hrest
    | some g =>
      rw [text_rule] at htext
      obtain ⟨hshown, hrest⟩ :=
        tells_formula f (hf f rfl) g _ _ (hg g rfl) (.arrow _) (.arrow _) htext
      simp only [List.cons.injEq, true_and] at hrest
      obtain ⟨hconsequence, _⟩ := tells_formula _ hcalls _ _ _ hcalls' .stop .stop hrest
      rw [Item.shown, Item.shown, shown_callsFormula hconsequence, Option.map_some,
        Option.map_some, hshown]

theorem text_item (h : i.Made IsWord ArgKind.Spelled) :
    ∃ w rest, i.text.toList = w ++ rest ∧ Opening w ∧ Parted rest ∧
      (Form.of w rest).keyword? w = i.keyword? := by
  cases i with
  | labels d =>
    refine ⟨_, _, text_labels d, ?_, parted_space _, congrArg some String.ofList_toList⟩
    cases d.kind <;> exact .run rfl
  | query q =>
    obtain ⟨c, cs, hname, hc, _⟩ := h.1
    have hform :
        Form.of "query".toList
          (' ' :: (q.name.toList ++ ':' :: ' ' :: (q.body.text.toList ++ ['.']))) = .word := by
      have hopen : c ≠ '(' := by rintro rfl; cases hc
      have hminus : c ≠ '-' := by rintro rfl; cases hc
      rw [hname, List.cons_append, Form.of, if_neg hopen, if_neg hminus, if_pos hc]
    exact ⟨_, _, text_query q, .run rfl, parted_space _, by rw [hform]; rfl⟩
  | rule d =>
    obtain ⟨f?, cs, span⟩ := d
    cases f? with
    | none =>
      obtain ⟨w, rest, htext, hw, hrest, hform⟩ :=
        text_formula (made_callsFormula h.2.1 h.2.2) .stop
      exact ⟨w, rest, (text_fact cs span).trans htext, hw, hrest, hform⟩
    | some f =>
      obtain ⟨w, rest, htext, hw, hrest, hform⟩ := text_formula (h.1 f rfl) (.arrow _)
      exact ⟨w, rest, (text_rule f cs span).trans htext, hw, hrest, hform⟩

theorem shown_of_text_eq (h : i.Made IsWord ArgKind.Spelled) (h' : j.Made IsWord ArgKind.Spelled)
    (htext : i.text = j.text) : i.shown = j.shown := by
  have hkeyword : i.keyword? = j.keyword? := by
    obtain ⟨w, rest, hi, hw, hrest, hkeyword⟩ := text_item h
    obtain ⟨w', rest', hj, hw', hrest', hkeyword'⟩ := text_item h'
    obtain ⟨rfl, rfl⟩ := hw.tells hw' hrest hrest' (by rw [← hi, ← hj, htext])
    rw [← hkeyword, ← hkeyword']
  have hquery : ∀ k : LabelKind, some k.predicate ≠ some "query" := by
    intro k
    cases k <;> decide
  cases i with
  | labels d =>
    cases j with
    | labels e => exact tells_labels h h' htext
    | query p => exact (hquery _ hkeyword).elim
    | rule e => cases hkeyword
  | query q =>
    cases j with
    | labels e => exact (hquery _ hkeyword.symm).elim
    | query p => exact tells_query h h' htext
    | rule e => cases hkeyword
  | rule d =>
    cases j with
    | labels e => cases hkeyword
    | query p => cases hkeyword
    | rule e => exact tells_rule h h' htext

end Items

end Script

section Shown

theorem ArgKind.text_shown (k : ArgKind) : k.shown.text = k.text := by
  cases k with
  | float x =>
    rw [shown]
    split_ifs with hx
    · subst hx
      exact String.toList_inj.mp (Binary64.render_infinity false).symm
    · rfl
  | var _ => rfl
  | wildcard => rfl
  | symbol _ => rfl
  | quoted _ => rfl
  | int _ => rfl

theorem Arg.text_shown (a : Arg) : a.shown.text = a.text := a.kind.text_shown

theorem Call.text_shown (c : Call) : c.shown.text = c.text := by
  obtain ⟨n, args, span⟩ := c
  have hargs : (args.map Arg.shown).map Arg.text = args.map Arg.text := by
    rw [List.map_map]
    exact List.map_congr_left fun a _ => a.text_shown
  cases args with
  | nil => rfl
  | cons a as =>
    rw [List.map_cons] at hargs
    simp only [Call.shown, Call.text, List.map_cons] at hargs ⊢
    rw [hargs]

mutual

theorem Literal.text_shown : ∀ l : Literal, l.shown.text = l.text
  | .call c => c.text_shown
  | .negated f _ => by rw [Literal.shown, Literal.text, Formula.text_shown f, Literal.text]
  | .compare c => by
    simp only [Literal.shown, Literal.text, Comparison.text, Comparison.shown, Arg.text_shown]
  | .group f => by rw [Literal.shown, Literal.text, Formula.text_shown f, Literal.text]

theorem Formula.text_shown : ∀ f : Formula, f.shown.text = f.text
  | .mk ds _ => by rw [Formula.shown, Formula.text, Formula.texts_shown ds, Formula.text]

theorem Formula.texts_shown :
    ∀ ds : List (List Literal), Formula.texts (Formula.shownAny ds) = Formula.texts ds
  | [] => rfl
  | c :: cs => by
    rw [Formula.shownAny, Formula.texts, Literal.texts_shown c,
      Formula.texts_shown cs, Formula.texts]

theorem Literal.texts_shown :
    ∀ ls : List Literal, Literal.texts (Literal.shownAll ls) = Literal.texts ls
  | [] => rfl
  | l :: ls => by
    rw [Literal.shownAll, Literal.texts, Literal.text_shown l,
      Literal.texts_shown ls, Literal.texts]

end

/-- The text of an item is a matter of how it looks. -/
theorem Item.text_shown (i : Item) : i.shown.text = i.text := by
  cases i with
  | labels d =>
    have hlabels : (d.labels.map (Label.mapSpan blot)).map Label.text =
        d.labels.map Label.text := by
      rw [List.map_map]
      rfl
    simp only [Item.shown, Item.text, hlabels]
  | query q => simp only [Item.shown, Item.text, Formula.text_shown]
  | rule r =>
    obtain ⟨f?, cs, span⟩ := r
    have hcalls : (cs.map Call.shown).map Call.text = cs.map Call.text := by
      rw [List.map_map]
      exact List.map_congr_left fun c _ => c.text_shown
    cases f? with
    | none => simp only [Item.shown, Item.text, hcalls, Option.map_none]
    | some f => simp only [Item.shown, Item.text, hcalls, Option.map_some, Formula.text_shown]

end Shown

section Finite

def FiniteArgs (as : List Arg) : Prop := ∀ a ∈ as, a.kind ≠ .float (.infinity false)

instance (as : List Arg) : Decidable (FiniteArgs as) := inferInstanceAs (Decidable (∀ a ∈ as, _))

variable {as bs : List Arg}

theorem FiniteArgs.left (h : FiniteArgs (as ++ bs)) : FiniteArgs as :=
  fun a ha => h a (List.mem_append_left _ ha)

theorem FiniteArgs.right (h : FiniteArgs (as ++ bs)) : FiniteArgs bs :=
  fun a ha => h a (List.mem_append_right _ ha)

theorem Arg.shown_eq {a : Arg} (h : a.kind ≠ .float (.infinity false)) :
    a.shown = a.mapSpan blot := by
  have hkind : a.kind.shown = a.kind := by
    cases hk : a.kind with
    | float x => exact if_neg fun hx => h (by rw [hk, hx])
    | var _ => rfl
    | wildcard => rfl
    | symbol _ => rfl
    | quoted _ => rfl
    | int _ => rfl
  rw [Arg.shown, hkind]
  rfl

theorem Call.shown_eq {c : Call} (h : FiniteArgs c.args) : c.shown = c.mapSpan blot := by
  rw [Call.shown, List.map_congr_left fun a ha => Arg.shown_eq (h a ha)]
  rfl

mutual

theorem Literal.shown_eq : ∀ l : Literal, FiniteArgs l.args → l.shown = l.mapSpan blot
  | .call c, h => by rw [Literal.shown, Literal.mapSpan, Call.shown_eq h]
  | .negated f _, h => by rw [Literal.shown, Literal.mapSpan, Formula.shown_eq f h]; rfl
  | .compare c, h => by
    rw [Literal.shown, Literal.mapSpan, Comparison.shown,
      Arg.shown_eq (h c.left (by simp [Literal.args])),
      Arg.shown_eq (h c.right (by simp [Literal.args]))]
    rfl
  | .group f, h => by rw [Literal.shown, Literal.mapSpan, Formula.shown_eq f h]

theorem Formula.shown_eq : ∀ f : Formula, FiniteArgs f.args → f.shown = f.mapSpan blot
  | .mk ds _, h => by rw [Formula.shown, Formula.mapSpan, Formula.shownAny_eq ds h]; rfl

theorem Formula.shownAny_eq : ∀ ds : List (List Literal), FiniteArgs (Formula.argsAny ds) →
    Formula.shownAny ds = Formula.mapSpanAny blot ds
  | [], _ => rfl
  | c :: cs, h => by
    rw [Formula.shownAny, Formula.mapSpanAny, Literal.shownAll_eq_mapSpanAll c h.left,
      Formula.shownAny_eq cs h.right]

theorem Literal.shownAll_eq_mapSpanAll : ∀ ls : List Literal, FiniteArgs (Literal.argsAll ls) →
    Literal.shownAll ls = Literal.mapSpanAll blot ls
  | [], _ => rfl
  | l :: ls, h => by
    rw [Literal.shownAll, Literal.mapSpanAll, Literal.shown_eq l h.left,
      Literal.shownAll_eq_mapSpanAll ls h.right]

end

theorem FiniteArgs.of_flatMap {α : Type} {xs : List α} {g : α → List Arg}
    (h : FiniteArgs (xs.flatMap g)) {x : α} (hx : x ∈ xs) :
    FiniteArgs (g x) := fun a ha => h a (List.mem_flatMap.mpr ⟨x, hx, ha⟩)

/-- Without that number, an item looks like itself but for its spans. -/
theorem Item.shown_eq {i : Item} (h : FiniteArgs i.args) : i.shown = i.mapSpan blot := by
  cases i with
  | labels d => rfl
  | query q =>
    rw [Item.shown, Item.mapSpan, Formula.shown_eq q.body h]
    rfl
  | rule r =>
    obtain ⟨f?, cs, span⟩ := r
    have hcalls : cs.map Call.shown = cs.map (Call.mapSpan blot) :=
      List.map_congr_left fun c hc => Call.shown_eq (h.right.of_flatMap hc)
    cases f? with
    | none =>
      rw [Item.shown, Item.mapSpan, hcalls]
      rfl
    | some f =>
      have hf : f.shown = f.mapSpan blot :=
        Formula.shown_eq f (h.left.of_flatMap (List.mem_singleton_self f))
      rw [Item.shown, Item.mapSpan, hcalls, Option.map_some, hf]
      rfl

end Finite

end GraphRules
