import GraphRules.Proofs.CanonicalText
import GraphRules.Proofs.Coverage

/-! Goals and queries. A goal is a formula with nothing after it, and a query ends with a point; but
both read the same formula from the same text, in whatever it ends: a number, a comment, a group, or
something that is not complete. -/
namespace GraphRules.Script

open Grammar (ending)

def closing : List Char := ['\n', '.']

section Closing

variable {cs r : List Char} {t : Token}

theorem append_closing_ne {x : Char} (hx : x ≠ '\n') (h : ∀ ds, cs ≠ x :: ds) :
    ∀ ds, cs ++ closing ≠ x :: ds := by
  rintro ds heq
  cases cs with
  | nil => exact hx (List.cons.inj heq).1.symm
  | cons y ys => exact h ys (by rw [(List.cons.inj heq).1])

/-- The closing is passed up to its point where the text before it is all blank, and is of no
concern elsewhere. -/
theorem blankLength_closing (w : List Char) :
    blankLength (w ++ closing) = if w.length ≤ blankLength w then w.length + 1
      else blankLength w := by
  refine (blankLength.mutual_induct
    (fun w => blankLength (w ++ closing) = if w.length ≤ blankLength w then w.length + 1
    else blankLength w)
    (fun w => blockLength? (w ++ closing) = (blockLength? w).map fun n =>
      if w.length ≤ n then w.length + 1 else n)
    (fun w => lineLength (w ++ closing) = if w.length ≤ lineLength w then w.length + 1
    else lineLength w)
    ?_ ?_ ?_ ?_ ?_ ?_ ?_ ?_ ?_ ?_ ?_ ?_ ?_).1 w
  · simp [blankLength, closing]
  · intro cs ih
    simp only [List.cons_append, blankLength, ih, List.length_cons]
    split <;> split <;> omega
  · intro cs ih
    simp only [List.cons_append, blankLength, ih, List.length_cons]
    split <;> split <;> omega
  · intro cs n hn ih
    simp only [List.cons_append, blankLength, ih, hn, Option.map_some, List.length_cons]
    split <;> split <;> omega
  · intro cs hn ih
    simp only [List.cons_append, blankLength, ih, hn, Option.map_none, List.length_cons]
    split <;> omega
  · intro c cs hpercent hslash hstar hc ih
    have hcons : ∀ ds, blankLength (c :: ds) = blankLength ds + 1 := by
      intro ds
      rcases hc with rfl | rfl | rfl | rfl <;> simp [blankLength]
    rw [List.cons_append, hcons, hcons, ih, List.length_cons]
    split <;> split <;> omega
  · intro c cs hpercent hslash hstar hc
    have hslash' : ∀ ds, c = '/' → cs ++ closing ≠ '/' :: ds := fun ds h =>
      append_closing_ne (by decide) (fun ds => hslash ds h) ds
    have hstar' : ∀ ds, c = '/' → cs ++ closing ≠ '*' :: ds := fun ds h =>
      append_closing_ne (by decide) (fun ds => hstar ds h) ds
    rw [List.cons_append, blankLength.eq_5 c _ hpercent hslash' hstar',
      blankLength.eq_5 c cs hpercent hslash hstar]
    simp only [if_neg hc, List.length_cons]
    split <;> omega
  · rfl
  · intro cs ih
    simp only [List.cons_append, blockLength?, ih, Option.map_some,
      List.length_cons, Option.some.injEq]
    split <;> split <;> omega
  · intro c cs hmark ih
    have hmark' : ∀ ds, c = '*' → cs ++ closing ≠ '/' :: ds := fun ds h =>
      append_closing_ne (by decide) (fun ds => hmark ds h) ds
    rw [List.cons_append, blockLength?.eq_3 c _ hmark', blockLength?.eq_3 c cs hmark, ih,
      Option.map_map, Option.map_map]
    refine congrArg (Option.map · _) (funext fun n => ?_)
    simp only [Function.comp_apply, List.length_cons]
    split <;> split <;> omega
  · simp [lineLength, blankLength, closing]
  · intro c cs hc ih
    simp only [List.cons_append, lineLength, if_pos hc, ih, List.length_cons]
    split <;> split <;> omega
  · intro c cs hc ih
    simp only [List.cons_append, lineLength, if_neg hc, ih, List.length_cons]
    split <;> split <;> omega

theorem Token.apart_closing : t.Apart (r ++ closing) ↔ t.Apart r := by
  have hhead : ∀ {P : Char → Prop}, P '\n' →
      ((∀ x ∈ (r ++ closing).head?, P x) ↔ ∀ x ∈ r.head?, P x) := by
    intro P hbreak
    cases r with
    | nil => simpa [closing] using hbreak
    | cons x xs => simp
  have hundigited : Undigited (r ++ closing) ↔ Undigited r := hhead (by decide)
  cases t with
  | word c ds => exact hhead (by decide)
  | integer negative ds =>
    refine and_congr hundigited ⟨fun h => ?_, pointless_append_break⟩
    rintro ds rfl x hx
    cases ds with
    | nil => cases hx
    | cons y ys => exact h (y :: ys ++ closing) rfl x hx
  | float negative ds es => exact hundigited
  | quoted inner => exact Iff.rfl
  | mark s =>
    refine imp_congr_right fun _ => ?_
    cases r with
    | nil => simp [closing]
    | cons x xs => simp

theorem Token.getLast_text (h : t.isSpelled) : ∀ x ∈ t.text.getLast?, x ∉ closing := by
  have hname : ∀ x, isNameChar x → x ∉ closing := by
    intro x hx hmem
    simp only [closing, List.mem_cons, List.not_mem_nil, or_false] at hmem
    rcases hmem with rfl | rfl <;> revert hx <;> decide
  have hdigits : ∀ {a b : List Char}, isDigits b → ∀ x ∈ (a ++ b).getLast?, x ∉ closing := by
    intro a b hb x hx
    obtain ⟨d, ds, rfl, -⟩ := isDigits_cons hb
    rw [List.getLast?_append_of_ne_nil a (List.cons_ne_nil d ds)] at hx
    have hall : ∀ y ∈ d :: ds, y.isDigit := by simpa [isDigits] using hb
    exact hname x (isNameChar_of_isDigit (hall x (List.mem_of_getLast? hx)))
  intro x hx
  cases t with
  | word c ds =>
    simp only [isSpelled, Bool.and_eq_true, List.all_eq_true] at h
    rcases List.mem_cons.mp (List.mem_of_getLast? hx) with rfl | hmem
    · intro hmem
      simp only [closing, List.mem_cons, List.not_mem_nil, or_false] at hmem
      rcases hmem with rfl | rfl <;> exact absurd h.1 (by decide)
    · exact hname x (h.2 x hmem)
  | integer negative ds => exact hdigits h x hx
  | float negative ds es =>
    simp only [isSpelled, Bool.and_eq_true] at h
    exact hdigits (a := minus negative ++ ds ++ ['.']) h.2 x (by simpa [text] using hx)
  | quoted inner =>
    rw [text, List.getLast?_concat] at hx
    obtain rfl := Option.some.inj hx
    decide
  | mark s =>
    have hmarks : ∀ s ∈ marks ++ comparators, s.toList.getLast?.all fun x => x ∉ closing := by
      decide
    have hall := hmarks s (of_decide_eq_true h)
    rw [show s.toList.getLast? = some x from hx] at hall
    simpa using hall

/-- A token before the closing is no part of it. -/
theorem Token.split_closing (ht : t.isSpelled) (h : cs ++ closing = t.text ++ r) :
    ∃ r', cs = t.text ++ r' ∧ r = r' ++ closing := by
  rcases List.append_eq_append_iff.mp h with ⟨a, htext, hclosing⟩ | ⟨r', hcs, hr⟩
  · rcases List.eq_nil_or_concat a with rfl | ⟨a, x, rfl⟩
    · exact ⟨[], by simpa using htext.symm, by simpa using hclosing.symm⟩
    · have hx : x ∈ closing := by simp [hclosing]
      exact (t.getLast_text ht x (by simp [htext]) hx).elim
  · exact ⟨r', hcs, hr⟩

theorem Tokenwise.closing {m : Scan α} (hm : Tokenwise m) (cs : List Char) :
    m (cs ++ closing) = m cs := by
  have hsame : ∀ {t : Token} {r : List Char}, t.isSpelled → t.Apart r →
      m (t.text ++ r ++ Script.closing) = m (t.text ++ r) := by
    intro t r ht hr
    obtain ⟨a?, ha⟩ := hm.atToken t ht
    rw [List.append_assoc, ha _ (Token.apart_closing.mpr hr), ha r hr]
  cases hfound : m cs with
  | some x =>
    obtain ⟨t, r, rfl, ht, hr, -⟩ := hm.found _ _ hfound
    rw [hsame ht hr, hfound]
  | none =>
    cases hlonger : m (cs ++ Script.closing) with
    | none => rfl
    | some x =>
      obtain ⟨t, r, hsplit, ht, hr, -⟩ := hm.found _ _ hlonger
      obtain ⟨r', rfl, rfl⟩ := t.split_closing ht hsplit
      rw [← hlonger, hsame ht (Token.apart_closing.mp hr), hfound]

end Closing

def BeforeClosing (c d : Cursor) : Prop :=
  d.oversized?.isSome = c.oversized?.isSome ∧
    (d.rest = c.rest ++ closing ∨ c.rest = [] ∧ d.rest = ['.'])

def BeforePoint (c d : Cursor) : Prop :=
  d.oversized?.isSome = c.oversized?.isSome ∧
    (c.rest ≠ [] ∧ d.rest = c.rest ++ closing ∨ c.rest = [] ∧ d.rest = ['.'])

variable {c c' : Cursor} {f : Formula}

theorem BeforePoint.beforeClosing {d : Cursor} (h : BeforePoint c d) : BeforeClosing c d :=
  ⟨h.1, h.2.imp And.right id⟩

theorem moves_closing {m : Scan α} (hm : Tokenwise m) : Moves BeforeClosing BeforeClosing m := by
  rintro c d ⟨hoversized, hrest | ⟨hc, hd⟩⟩
  · refine ⟨by rw [hrest, hm.closing], fun x hx => ⟨hoversized, .inl ?_⟩⟩
    obtain ⟨t, r, hcs, -, -, hlen⟩ := hm.found _ _ hx
    have hle : x.2 ≤ c.rest.length := by simp [hcs, hlen]
    simp only [Cursor.advance, hrest, List.drop_append_of_le_length hle]
  · have hnil : m [] = none := by
      cases h : m [] with
      | none => rfl
      | some x =>
        obtain ⟨t, r, htext, ht, -⟩ := hm.found _ _ h
        obtain ⟨y, ys, hy, -⟩ := Token.text_cons ht
        simp [hy] at htext
    rw [hc, hd, hnil, hm.elsewhere (.inr rfl)]
    exact ⟨rfl, fun x hx => by cases hx⟩

theorem agree_blanks_closing : Agree 0 BeforeClosing BeforePoint id id blanks blanks := by
  rintro c d ⟨hoversized, hrest⟩
  have hpassed : BeforePoint (c.advance (blankLength c.rest)) (d.advance (blankLength d.rest)) := by
    refine ⟨hoversized, ?_⟩
    rcases hrest with hrest | ⟨hc, hd⟩
    · simp only [Cursor.advance, hrest, blankLength_closing]
      by_cases hall : c.rest.length ≤ blankLength c.rest
      · rw [if_pos hall]
        exact .inr ⟨List.drop_of_length_le hall, by simp [List.drop_append, closing]⟩
      · rw [if_neg hall, List.drop_append_of_le_length (by omega)]
        exact .inl ⟨by simpa using hall, rfl⟩
    · simp only [Cursor.advance, hc, hd]
      exact .inr ⟨rfl, rfl⟩
  refine .some ⟨rfl, hpassed, ?_, ?_⟩ <;> simp only [Cursor.length_advance] <;> omega

theorem respected_closing : Respected blot blot BeforeClosing where
  span := fun _ _ => rfl
  noted := by
    rintro c d ⟨hoversized, hrest⟩ k text s s' -
    refine ⟨?_, by rwa [Respected.rest_noted, Respected.rest_noted]⟩
    cases k with
    | int n =>
      by_cases hn : fitsWord n || c.oversized?.isSome <;> simp [Cursor.noted, hoversized, hn]
    | _ => exact hoversized
  atBlank := agree_blanks_closing.imp (fun _ _ => id) fun _ _ => BeforePoint.beforeClosing
  atName := moves_closing tokenwise_nameScan
  atString := moves_closing tokenwise_quotedScan
  atComparator := moves_closing tokenwise_comparatorScan
  atArg := moves_closing tokenwise_argScan
  atWord := fun _ hs => moves_closing (tokenwise_wordScan hs)
  atMark := fun _ hs => moves_closing (tokenwise_markScan hs)

def surrounded : Reader Formula := do
  blanks
  let f ← formula
  blanks
  pure f

theorem agree_surrounded :
    Agree 0 BeforeClosing BeforePoint (Formula.mapSpan blot) (Formula.mapSpan blot)
      surrounded surrounded :=
  respected_closing.atBlank.bind fun _ _ _ => respected_closing.agree_formula.bind fun _ _ hf =>
    agree_blanks_closing.bind fun _ _ _ => .give hf

theorem blankLength_drop (cs : List Char) : blankLength (cs.drop (blankLength cs)) = 0 := by
  rcases gapsAt_blankLength cs with hall | ⟨gs, r, hcs, hgaps, hchain, hlen⟩
  · rw [List.drop_of_length_le hall, blankLength]
  · have hgs := blankLength_gaps hgaps hchain
    rw [← hcs] at hgs
    have hr : cs.drop (blankLength cs) = r := by rw [hlen, hcs, List.drop_left]
    rw [hr]
    omega

theorem Cursor.advance_zero (c : Cursor) : c.advance 0 = c := by
  simp [Cursor.advance]

/-- Nothing blank is left after the blanks that follow a formula. -/
theorem blankLength_of_surrounded (h : surrounded c = some (f, c')) : blankLength c'.rest = 0 := by
  simp only [surrounded, bind_run, Option.bind_eq_some_iff] at h
  obtain ⟨_, _, y, _, z, hz, h⟩ := h
  cases hz
  cases h
  exact blankLength_drop _

def goalWithPoint : Reader (Formula × Bool) := do
  let f ← surrounded
  let point? ← optional (exactly ".")
  blanks
  ending
  pure (f, point?.isSome)

theorem blanks_run (c : Cursor) : blanks c = some ((), c.advance (blankLength c.rest)) := rfl

theorem optional_run (p : Reader α) (c : Cursor) :
    optional p c = some (((p c).map Prod.fst), ((p c).map Prod.snd).getD c) := by
  cases h : p c <;> simp [optional, orElse_run, map_run, h, pure_run]

theorem goal_eq_map : goal = Prod.fst <$> goalWithPoint := by
  funext c
  rw [map_run, goalWithPoint, surrounded]
  unfold goal
  simp only [bind_run, pure_run, blanks_run, optional_run, Option.bind_some]
  cases formula (c.advance (blankLength c.rest)) with
  | none => rfl
  | some x =>
    simp only [Option.bind_some, ending]
    split <;> rfl

theorem blanks_of_zero (h : blankLength c.rest = 0) : blanks c = some ((), c) := by
  rw [blanks_run, h, Cursor.advance_zero]

theorem goalWithPoint_eq :
    goalWithPoint c = some ((f, false), c') ↔ surrounded c = some (f, c') ∧ c'.rest = [] := by
  simp only [goalWithPoint, bind_run, Option.bind_eq_some_iff, optional_run]
  constructor
  · rintro ⟨⟨g, d⟩, hg, x, hx, y, hy, z, hz, h⟩
    cases hx
    cases hpoint : exactly "." d with
    | some w => simp [hpoint, pure_run] at h
    | none =>
      simp only [hpoint, Option.map_none, Option.getD_none] at hy h
      rw [blanks_of_zero (blankLength_of_surrounded hg)] at hy
      cases hy
      simp only [ending, Option.ite_none_right_eq_some, Option.some.injEq] at hz
      obtain ⟨hend, rfl⟩ := hz
      cases h
      exact ⟨hg, by simpa using hend⟩
  · rintro ⟨h, hend⟩
    have hpoint : exactly "." c' = none := by simp [exactly, hend]
    have hblanks : blanks c' = some ((), c') := blanks_of_zero (by rw [hend, blankLength])
    refine ⟨(f, c'), h, (none, c'), ?_, ((), c'), hblanks, ((), c'), ?_, rfl⟩
    · rw [hpoint, Option.map_none, Option.map_none, Option.getD_none]
    · simp [ending, hend]

def asking (cs : List Char) : Cursor :=
  { rest := 'q' :: 'u' :: 'e' :: 'r' :: 'y' :: ' ' :: 'q' :: ':' :: ' ' :: (cs ++ closing) }

def queryOf (f : Formula) (stop : Place) : Query := ⟨"q", ⟨6, 7, 1, 7⟩, f, .between {} stop⟩

theorem blanks_space {r : List Char} (h : c.rest = ' ' :: r) : blanks c = blanks (c.advance 1) := by
  have hone : (c.advance 1).rest = r := by simp [Cursor.advance, h]
  have hlen : blankLength (' ' :: r) = 1 + blankLength r := by simp [blankLength, Nat.add_comm]
  rw [blanks_run, blanks_run, hone, h, hlen, Cursor.advance_advance]

/-- What is read as an item is a query, whose formula is read where the text starts. -/
theorem item_asking (cs : List Char) :
    item (asking cs) =
      ((do let f ← surrounded; exactly "."; pure f : Reader Formula) ((asking cs).advance 9)).map
      fun x => (.query (queryOf x.1 x.2.place), x.2) := by
  have hlabels : labelDecl (asking cs) = none := rfl
  have hrule : rule (asking cs) = none := by rfl
  have hword : keyword "query" (asking cs) = some ((), (asking cs).advance 5) := rfl
  have hgap : blanks ((asking cs).advance 5) = some ((), (asking cs).advance 6) := rfl
  have hname : spanned name ((asking cs).advance 6) = some (("q", ⟨6, 7, 1, 7⟩),
      (asking cs).advance 7) := rfl
  have hnone : blanks ((asking cs).advance 7) = some ((), (asking cs).advance 7) := rfl
  have hcolon : exactly ":" ((asking cs).advance 7) = some ((), (asking cs).advance 8) := rfl
  have hspace : blanks ((asking cs).advance 8) = blanks ((asking cs).advance 9) := by
    rw [blanks_space (r := cs ++ closing) rfl, Cursor.advance_advance]
  have hparts : (do
      keyword "query"
      blanks
      let name ← spanned name
      blanks
      exactly ":"
      blanks
      let body ← formula
      blanks
      exactly "."
      pure (name, body) : Reader ((String × Span) × Formula)) (asking cs) =
      ((do let f ← surrounded; exactly "."; pure f : Reader Formula) ((asking cs).advance 9)).map
        fun x => ((("q", ⟨6, 7, 1, 7⟩), x.1), x.2) := by
    simp only [bind_run, hword, hgap, hname, hnone, hcolon, hspace,
      Option.bind_some, surrounded, pure_run, Option.bind_assoc, Option.map_bind,
      Function.comp_def, Option.map_some]
  rw [item, orElse_run, orElse_run, hlabels, hrule, Option.none_or, Option.or_none, query,
    bind_run, spanned, hparts]
  cases (do let f ← surrounded; exactly "."; pure f : Reader Formula) ((asking cs).advance 9) with
  | none => rfl
  | some x => rfl

def UsesPoint (text : String) : Prop :=
  ∃ f c, goalWithPoint { rest := text.toList } = some ((f, true), c)

theorem beforeClosing_start (cs : List Char) :
    BeforeClosing { rest := cs } ((asking cs).advance 9) := ⟨rfl, .inl rfl⟩

theorem statements_asking (s : String) :
    statements ("query q: " ++ s ++ "\n.") = statementsAt (asking s.toList) := by
  have hopening : "query q: ".toList = ['q', 'u', 'e', 'r', 'y', ' ', 'q', ':', ' '] := by decide
  have hclosing : "\n.".toList = closing := by decide
  rw [statements_eq, String.toList_append, String.toList_append, hopening,
    hclosing, List.append_assoc]
  rfl

theorem nextStatement_asking (cs : List Char) :
    nextStatement (asking cs) = statement (asking cs) := by
  rw [nextStatement_eq, show blankLength (asking cs).rest = 0 from rfl, Cursor.advance_zero]

/-- What is left after a point in the text is never all blank. -/
theorem exists_nextStatement_closing {r : List Char} (h : c.rest = r ++ closing) :
    ∃ s c', nextStatement c = some (s, c') := by
  rw [nextStatement_eq]
  refine exists_statement fun hnil => ?_
  have hlen := congrArg List.length hnil
  rw [Cursor.length_advance, h, blankLength_closing, List.length_append] at hlen
  simp only [closing, List.length_cons, List.length_nil] at hlen
  split at hlen <;> omega

theorem parseGoal_eq_ok {text : String} :
    parseGoal text = .ok f ↔ ∃ c, goal { rest := text.toList } = some (f, c) ∧
      c.oversized? = none := by
  unfold parseGoal
  cases goal { rest := text.toList } with
  | none => simp
  | some x => cases ho : x.2.oversized? <;> simp [ho, Prod.ext_iff]

theorem exactly_point :
    exactly "." c = some ((), c') ↔ (∃ r, c.rest = '.' :: r) ∧ c.advance 1 = c' := by
  have htext : ".".toList = ['.'] := by decide
  have hlength : ".".length = 1 := by decide
  unfold exactly
  rw [htext, hlength]
  cases c.rest with
  | nil => simp
  | cons x xs =>
    by_cases hx : '.' = x
    · simp [← hx]
    · simp [hx, Ne.symm hx]

/-- A goal and the query made of it read the same formula; they differ in what they want to stand
after it. -/
theorem surrounded_asking (cs : List Char) :
    Option.Rel (fun x y => y.1.mapSpan blot = x.1.mapSpan blot ∧
      BeforePoint x.2 y.2) (surrounded { rest := cs }) (surrounded ((asking cs).advance 9)) :=
  rel_imp (agree_surrounded _ _ (beforeClosing_start cs)) fun _ _ h => ⟨h.1, h.2.1⟩

theorem parseGoal_unpointed {s : String} :
    parseGoal s = .ok f ∧ ¬ UsesPoint s ↔
      ∃ c, surrounded { rest := s.toList } = some (f, c) ∧ c.rest = [] ∧ c.oversized? = none := by
  rw [parseGoal_eq_ok, goal_eq_map]
  simp only [map_run, Option.map_eq_some_iff]
  constructor
  · rintro ⟨⟨c, ⟨⟨⟨g, pointed⟩, c'⟩, hgoal, heq⟩, hnone⟩, hpoint⟩
    cases heq
    cases pointed with
    | true => exact (hpoint ⟨_, _, hgoal⟩).elim
    | false =>
      obtain ⟨hc, hend⟩ := goalWithPoint_eq.mp hgoal
      exact ⟨c', hc, hend, hnone⟩
  · rintro ⟨c, hc, hend, hnone⟩
    have hgoal := goalWithPoint_eq.mpr ⟨hc, hend⟩
    refine ⟨⟨c, ⟨_, hgoal, rfl⟩, hnone⟩, ?_⟩
    rintro ⟨g, c', hpointed⟩
    rw [hgoal] at hpointed
    cases hpointed

/-- A query that is the only item of its text is a formula up to the last point. -/
theorem statementsAt_asking {cs : List Char} {i : Item} :
    statementsAt (asking cs) = [.item i] ↔ ∃ g d, surrounded ((asking cs).advance 9) = some (g, d) ∧
      d.rest = ['.'] ∧ d.oversized? = none ∧ i = .query (queryOf g (d.advance 1).place) := by
  constructor
  · intro h
    cases hnext : nextStatement (asking cs) with
    | none => simp [statementsAt_of_none hnext] at h
    | some x =>
      obtain ⟨st, d'⟩ := x
      rw [statementsAt_of_some hnext] at h
      obtain ⟨rfl, hmore⟩ := List.cons.inj h
      rw [nextStatement_asking] at hnext
      obtain ⟨hitem, hnone⟩ := item_of_statement hnext
      rw [show ({ asking cs with oversized? := none } : Cursor) = asking cs from rfl,
        item_asking] at hitem
      obtain ⟨x, hx, heq⟩ := Option.map_eq_some_iff.mp hitem
      cases heq
      simp only [bind_run, Option.bind_eq_some_iff] at hx
      obtain ⟨⟨g, d⟩, hd, ⟨⟨⟩, e⟩, he, hpure⟩ := hx
      cases hpure
      obtain ⟨-, rfl⟩ := exactly_point.mp he
      refine ⟨g, d, hd, ?_, hnone, rfl⟩
      have hrel := surrounded_asking cs
      rw [hd] at hrel
      generalize surrounded { rest := cs } = y at hrel
      cases hrel with
      | some hy =>
        -- a point in the text would end the query too early
        rcases hy.2.2 with ⟨hne, hclosing⟩ | ⟨-, hdot⟩
        · obtain ⟨z, zs, hzs⟩ := List.exists_cons_of_ne_nil hne
          have hrest : d.rest = z :: zs ++ closing := hzs ▸ hclosing
          have hafter : (d.advance 1).rest = zs ++ closing := by simp [Cursor.advance, hrest]
          obtain ⟨st, e, hst⟩ := exists_nextStatement_closing hafter
          rw [statementsAt_of_some hst] at hmore
          cases hmore
        · exact hdot
  · rintro ⟨g, d, hd, hdot, hnone, rfl⟩
    have hpoint : exactly "." d = some ((), d.advance 1) := exactly_point.mpr ⟨⟨[], hdot⟩, rfl⟩
    have hitem : item (asking cs) = some (.query (queryOf g (d.advance 1).place), d.advance 1) := by
      rw [item_asking]
      simp only [bind_run, hd, hpoint, pure_run, Option.bind_some, Option.map_some]
    have hnext := (nextStatement_asking cs).trans (statement_of_item hitem hnone)
    have hlast : nextStatement (d.advance 1) = none := by
      rw [nextStatement_eq]
      exact statement_nil (by simp [Cursor.advance, hdot])
    rw [statementsAt_of_some hnext, statementsAt_of_none hlast]

/-- A goal and the query made of it accept the same formulas: a query that is the only item of its
text comes from a goal without its point, and such a goal makes a query. The bodies are the same,
spans aside. -/
theorem queries_of_goals (s : String) :
    (∀ i, parse ("query q: " ++ s ++ "\n.") = .ok ⟨[i]⟩ →
      ∃ q f, i = .query q ∧ parseGoal s = .ok f ∧ ¬ UsesPoint s ∧
        q.body.mapSpan blot = f.mapSpan blot) ∧
    ∀ f, parseGoal s = .ok f → ¬ UsesPoint s →
      ∃ q, parse ("query q: " ++ s ++ "\n.") = .ok ⟨[.query q]⟩ ∧
        q.body.mapSpan blot = f.mapSpan blot := by
  have hrel := surrounded_asking s.toList
  refine ⟨fun i hi => ?_, fun f hf hpoint => ?_⟩
  · rw [parse_eq_ok_iff, statements_asking] at hi
    obtain ⟨g, d, hd, hdot, hnone, rfl⟩ := statementsAt_asking.mp hi
    rw [hd] at hrel
    cases hc : surrounded { rest := s.toList } with
    | none => rw [hc] at hrel; cases hrel
    | some x =>
      rw [hc] at hrel
      cases hrel with
      | some hx =>
        obtain ⟨hbody, hoversized, hrest⟩ := hx
        have hend : x.2.rest = [] := by
          rcases hrest with ⟨hne, hclosing⟩ | ⟨hend, -⟩
          · obtain ⟨z, zs, hzs⟩ := List.exists_cons_of_ne_nil hne
            simp [hdot, hzs, closing] at hclosing
          · exact hend
        have hgoal := parseGoal_unpointed.mpr ⟨x.2, hc, hend, by simpa [hnone] using hoversized⟩
        exact ⟨_, x.1, rfl, hgoal.1, hgoal.2, hbody⟩
  · obtain ⟨c, hc, hend, hnone⟩ := parseGoal_unpointed.mp ⟨hf, hpoint⟩
    rw [hc] at hrel
    obtain ⟨⟨g, d⟩, hd, hbody, hoversized, hrest⟩ := rel_some_left hrel
    have hdot : d.rest = ['.'] := (hrest.resolve_left fun hne => hne.1 hend).2
    have hitem := statementsAt_asking.mpr ⟨g, d, hd, hdot, by simpa [hnone] using hoversized, rfl⟩
    exact ⟨_, parse_eq_ok_iff.mpr ((statements_asking s).trans hitem), hbody⟩

def remark : String := "a(X, \"b.\"); (not c(Y), 1.5 < Y) % d. e"

theorem queries_of_goals_remark :
    (∃ f q, parseGoal remark = .ok f ∧ ¬ UsesPoint remark ∧
      parse ("query q: " ++ remark ++ "\n.") = .ok ⟨[.query q]⟩ ∧
      q.body.mapSpan blot = f.mapSpan blot) ∧
    UsesPoint "a. % b" ∧ ∀ i, parse ("query q: " ++ "a. % b" ++ "\n.") ≠ .ok ⟨[i]⟩ := by
  have hremark : (surrounded { rest := remark.toList }).any fun x =>
    x.2.rest.isEmpty && x.2.oversized?.isNone := by
    decide +kernel
  have hpoint : (goalWithPoint { rest := "a. % b".toList }).any fun x => x.1.2 := by decide +kernel
  have huses : UsesPoint "a. % b" := by
    obtain ⟨⟨⟨f, pointed⟩, c⟩, hgoal, htrue⟩ := (Option.any_eq_true _ _).mp hpoint
    obtain rfl : pointed = true := htrue
    exact ⟨f, c, hgoal⟩
  obtain ⟨⟨f, c⟩, hc, hend⟩ := (Option.any_eq_true _ _).mp hremark
  simp only [Bool.and_eq_true, List.isEmpty_iff, Option.isNone_iff_eq_none] at hend
  obtain ⟨hgoal, hunused⟩ := parseGoal_unpointed.mpr ⟨c, hc, hend⟩
  obtain ⟨q, hq, hbody⟩ := (queries_of_goals remark).2 f hgoal hunused
  refine ⟨⟨f, q, hgoal, hunused, hq, hbody⟩, huses, fun i hi => ?_⟩
  obtain ⟨_, _, _, _, hnot, _⟩ := (queries_of_goals "a. % b").1 i hi
  exact hnot huses

end GraphRules.Script
