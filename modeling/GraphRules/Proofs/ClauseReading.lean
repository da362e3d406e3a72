import GraphRules.Proofs.Flat
import GraphRules.Proofs.Numerals
import GraphRules.Term.Text

/-! Reading clauses from their text. A clause whose names, numbers and variables are of the kinds
that have a text of their own is found again in front of whatever follows, so its text tells it from
every other clause. -/
namespace GraphRules

open Script (isNameChar isUpperStart isDigits minus Closed)

namespace ClauseReading

abbrev Reading (α : Type) := List Char → Option (α × List Char)

def after : List Char → List Char → Option (List Char)
  | [], cs => some cs
  | _ :: _, [] => none
  | m :: ms, c :: cs => if c = m then after ms cs else none

def word (first : Char → Bool) : Reading String
  | [] => none
  | c :: cs =>
    if first c then some (String.ofList (c :: cs.takeWhile isNameChar), cs.dropWhile isNameChar)
    else none

def quoted : Reading (List Char)
  | [] => none
  | '\'' :: cs => some ([], cs)
  | '\\' :: 'n' :: cs => (quoted cs).map (Prod.map ('\n' :: ·) id)
  | '\\' :: c :: cs => (quoted cs).map (Prod.map (c :: ·) id)
  | c :: cs => (quoted cs).map (Prod.map (c :: ·) id)

def name : Reading String := fun cs =>
  ((after ['\''] cs).bind quoted).map (Prod.map String.ofList id) <|> word Char.isLower cs

def constant? (s : List Char) : Option Number :=
  if s.any fun c => c = '.' || c = 'e' then (Binary64.read? s).map .float
  else some (.int (Script.intValue (String.ofList s)))

def number : Reading Number := fun cs =>
  let s := cs.takeWhile Numeral.isChar
  let r := cs.dropWhile Numeral.isChar
  if r.head? = some '\n' then (constant? s.dropLast).map (·, '.' :: r) else (constant? s).map (·, r)

def comparator : Reading String := fun cs =>
  comparisonNames.findSome? fun f => (after (' ' :: f.toList ++ [' ']) cs).map (f, ·)

def comparison (operand : Reading Term) : Reading Term := fun cs =>
  (operand cs).bind fun a =>
    ((comparator a.2).bind fun f => (operand f.2).map fun b => (.compound f.1 [a.1, b.1], b.2)) <|>
      some a

def second (term : Reading Term) (f : String) (mark : List Char) (a : Term × List Char) :
    Option (Term × List Char) :=
  (after mark a.2).bind fun r => (term r).bind fun b => (after [')'] b.2).map
    (.compound f [a.1, b.1], ·)

def group (term : Reading Term) : Reading Term := fun cs =>
  (after ['('] cs).bind fun r => (term r).bind fun a =>
    second term "," [',', ' '] a <|> second term ";" [' ', ';', ' '] a

def application (args : Reading (List Term)) : Reading Term := fun cs =>
  (name cs).bind fun f =>
    ((after ['('] f.2).bind args).map (Prod.map (.compound f.1) id) <|> some (.atom f.1, f.2)

def series (close : List Char) (term : Reading Term) (rest : Reading (List Term)) :
    Reading (List Term) := fun cs =>
  (term cs).bind fun a =>
    ((after [',', ' '] a.2).bind rest).map (Prod.map (a.1 :: ·) id) <|>
      (after close a.2).map ([a.1], ·)

mutual

def term : Nat → Reading Term
  | 0 => fun _ => none
  | n + 1 => comparison (operand n)

def operand : Nat → Reading Term
  | 0 => fun _ => none
  | n + 1 => fun cs =>
    group (term n) cs <|> application (terms [')'] n) cs <|>
      (word isUpperStart cs).map (Prod.map .named id) <|>
      (number cs).map (Prod.map .number id)

def terms (close : List Char) : Nat → Reading (List Term)
  | 0 => fun _ => none
  | n + 1 => series close (term n) (terms close n)

end

def clause (n : Nat) : Reading Clause := fun cs =>
  (term n cs).bind fun h =>
    (after ['.', '\n'] h.2).map (⟨h.1, []⟩, ·) <|>
      ((after [' ', ':', '-', ' '] h.2).bind (terms ['.', '\n'] n)).map
        (Prod.map (Clause.mk h.1) id)

variable {r cs : List Char}

theorem after_append (m r : List Char) : after m (m ++ r) = some r := by
  induction m with
  | nil => rfl
  | cons c m ih => simp [after, ih]

theorem word_append {first : Char → Bool} {c : Char} (hc : first c) (hcs : cs.all isNameChar)
    (hr : Closed r) : word first (c :: cs ++ r) = some (String.ofList (c :: cs), r) := by
  have hall := List.all_eq_true.mp hcs
  simp [word, hc, Script.takeWhile_closed hall hr, Script.dropWhile_closed hall hr]

theorem quoted_append (s r : List Char) :
    quoted (s.flatMap escapeName ++ '\'' :: r) = some (s, r) := by
  induction s with
  | nil => simp [quoted]
  | cons c s ih =>
    rw [List.flatMap_cons, List.append_assoc]
    generalize s.flatMap escapeName ++ '\'' :: r = rest at ih ⊢
    unfold escapeName
    split_ifs with hquote hslash hline
    · subst hquote
      simp [quoted, ih]
    · subst hslash
      simp [quoted, ih]
    · subst hline
      simp [quoted, ih]
    · simp [quoted, ih, hslash]

theorem name_append (s : String) (hr : Closed r) :
    name ((nameText s).toList ++ r) = some (s, r) := by
  unfold nameText
  split_ifs with hplain
  · unfold isPlainName at hplain
    cases hs : s.toList with
    | nil => simp [hs] at hplain
    | cons c cs =>
      simp only [hs, Bool.and_eq_true] at hplain
      have hne : c ≠ '\'' := by
        rintro rfl
        exact absurd hplain.1 (by decide)
      have hword : word Char.isLower (c :: cs ++ r) = _ := word_append hplain.1 hplain.2 hr
      rw [← hs, String.ofList_toList, hs, List.cons_append] at hword
      simp [name, after, hne, hword]
  · have hquoted := quoted_append s.toList r
    simp [name, after, hquoted]

/-- What may follow an operand: a mark of a clause, or a point at the end of a line. -/
def Stops (r : List Char) : Prop :=
  ∃ c cs, r = c :: cs ∧ (c ∈ [',', ')', ' '] ∨ c = '.' ∧ cs.head? = some '\n')

structure Ends (r : List Char) : Prop where
  stops : Stops r
  comparator : comparator r = none

theorem Stops.closed (h : Stops r) : Closed r := by
  obtain ⟨c, cs, rfl, h⟩ := h
  intro x hx
  cases hx
  rcases h with h | ⟨rfl, _⟩
  · revert h
    simp only [List.mem_cons, List.not_mem_nil, or_false]
    rintro (rfl | rfl | rfl) <;> decide
  · decide

theorem Stops.after_open (h : Stops r) : after ['('] r = none := by
  obtain ⟨c, cs, rfl, h⟩ := h
  have hne : c ≠ '(' := by
    rintro rfl
    simp at h
  simp [after, hne]

theorem ends_comma (r : List Char) : Ends (',' :: r) := ⟨⟨',', r, rfl, by simp⟩, rfl⟩

theorem ends_close (r : List Char) : Ends (')' :: r) := ⟨⟨')', r, rfl, by simp⟩, rfl⟩

theorem ends_point (r : List Char) : Ends ('.' :: '\n' :: r) :=
  ⟨⟨'.', '\n' :: r, rfl, by simp⟩, rfl⟩

theorem ends_semicolon (r : List Char) : Ends (' ' :: ';' :: r) :=
  ⟨⟨' ', ';' :: r, rfl, by simp⟩, rfl⟩

theorem ends_arrow (r : List Char) : Ends (' ' :: ':' :: r) := ⟨⟨' ', ':' :: r, rfl, by simp⟩, rfl⟩

theorem comparator_append {f : String} (hf : f ∈ comparisonNames) (r : List Char) :
    comparator (' ' :: f.toList ++ [' '] ++ r) = some (f, r) := by
  simp only [comparisonNames, List.mem_cons, List.not_mem_nil, or_false] at hf
  rcases hf with rfl | rfl | rfl | rfl | rfl | rfl <;> rfl

theorem number_append {negative : Bool} {ds : List Char} (hds : isDigits ds)
    (hcs : ∀ c ∈ cs, Numeral.isChar c) {x : Number}
    (hx : constant? (minus negative ++ ds ++ cs) = some x) (hr : Stops r) :
    number (minus negative ++ ds ++ cs ++ r) = some (x, r) := by
  have hall : ∀ c ∈ minus negative ++ ds ++ cs, Numeral.isChar c := by
    intro c hc
    rcases List.mem_append.mp hc with hc | hc
    · rcases List.mem_append.mp hc with hc | hc
      · exact Numeral.isChar_minus negative c hc
      · exact Numeral.isChar_of_isDigit (forall_isDigit hds c hc)
    · exact hcs c hc
  generalize minus negative ++ ds ++ cs = s at hx hall ⊢
  obtain ⟨c, rest, rfl, h⟩ := hr
  rcases h with h | ⟨rfl, h⟩
  · have hc : Numeral.isChar c = false ∧ c ≠ '\n' := by
      simp only [List.mem_cons, List.not_mem_nil, or_false] at h
      rcases h with rfl | rfl | rfl <;> decide
    have hstop : ∀ x ∈ (c :: rest).head?, Numeral.isChar x = false := by simp [hc.1]
    unfold number
    simp [Script.takeWhile_closed hall hstop, Script.dropWhile_closed hall hstop, hc.2, hx]
  · -- the point is taken along and given back
    obtain ⟨rest, rfl⟩ : ∃ rest', rest = '\n' :: rest' := List.head?_eq_some_iff.mp h
    have hpoint : ∀ c ∈ s ++ ['.'], Numeral.isChar c := by
      intro c hc
      rcases List.mem_append.mp hc with hc | hc
      · exact hall c hc
      · rw [List.mem_singleton.mp hc]
        rfl
    have hstop : ∀ x ∈ ('\n' :: rest).head?, Numeral.isChar x = false := by
      have hline : Numeral.isChar '\n' = false := by decide
      simp [hline]
    have hsplit : s ++ '.' :: '\n' :: rest = (s ++ ['.']) ++ '\n' :: rest := by simp
    unfold number
    rw [hsplit, Script.takeWhile_closed hpoint hstop, Script.dropWhile_closed hpoint hstop]
    simp [hx]

end ClauseReading

def Number.isFinite : Number → Bool
  | .int _ => true
  | .float x => x.isFinite

def IsVariable (s : String) : Prop :=
  ∃ c cs, s.toList = c :: cs ∧ isUpperStart c ∧ cs.all isNameChar

namespace ClauseReading

variable {α : Type} {r s u close mark : List Char} {a b : Term} {f : String}
  {read : Nat → Reading α} {as : List Term}

theorem exists_number_text {x : Number} (h : x.isFinite) :
    ∃ negative ds cs, isDigits ds ∧ (∀ c ∈ cs, Numeral.isChar c) ∧
    x.text.toList = minus negative ++ ds ++ cs ∧ constant? x.text.toList = some x := by
  cases x with
  | int n =>
    have hdigits := isDigits_of_forall (toDigits_ne_nil n.natAbs) (forall_toDigits n.natAbs)
    have htext : (Number.int n).text.toList = minus (decide (n < 0)) ++ Nat.toDigits 10 n.natAbs :=
      toString_int n
    have hmark : ((Number.int n).text.toList.any fun c => c = '.' || c = 'e') = false := by
      rw [htext, List.any_append, Bool.or_eq_false_iff, List.any_eq_false, List.any_eq_false]
      refine ⟨fun c hc => ?_, fun c hc => ?_⟩
      · unfold minus at hc
        split_ifs at hc
        · rw [List.mem_singleton.mp hc]
          decide
        · cases hc
      · have hd := forall_toDigits _ c hc
        simp only [Bool.or_eq_true, decide_eq_true_eq]
        rintro (rfl | rfl)
        · exact absurd hd (by decide)
        · exact absurd hd (by decide)
    refine ⟨_, _, [], hdigits, by simp, by rw [htext, List.append_nil], ?_⟩
    unfold constant?
    rw [hmark, if_neg (by decide), String.ofList_toList]
    exact congrArg (fun m => some (Number.int m)) (intValue_toString n)
  | float x =>
    obtain ⟨n, hn, htext, hvalue⟩ := Binary64.render_numeral h
    have htext' : (Number.float x).text.toList = n.text := htext
    have hmark : (n.text.any fun c => c = '.' || c = 'e') = true := by
      rw [Numeral.text, List.any_append, Numeral.mark_suffix hn, Bool.or_true]
    refine ⟨_, _, _, hn.whole, Numeral.isChar_suffix hn, htext', ?_⟩
    unfold constant?
    rw [htext', if_pos hmark, Numeral.read?_text hn, hvalue]
    rfl

theorem group_none {c : Char} (hc : c ≠ '(') (t : Reading Term) : group t (c :: s) = none := by
  simp [group, after, hc]

theorem application_none {c : Char} (hc : c ≠ '\'') (hlower : c.isLower = false)
    (args : Reading (List Term)) : application args (c :: s) = none := by
  simp [application, name, after, word, hc, hlower]

theorem exists_cons_nameText (f : String) : ∃ c cs, (nameText f).toList = c :: cs ∧ c ≠ '(' := by
  unfold nameText
  split_ifs with hplain
  · unfold isPlainName at hplain
    cases hf : f.toList with
    | nil => simp [hf] at hplain
    | cons c cs =>
      refine ⟨c, cs, rfl, ?_⟩
      rintro rfl
      simp [hf] at hplain
  · exact ⟨'\'', _, String.toList_ofList .., by decide⟩

def Reads (read : Nat → Reading α) (s : List Char) (x : α) (r : List Char) : Prop :=
  ∃ k, ∀ n, k ≤ n → read n (s ++ r) = some (x, r)

theorem reads_succ {x : α} (h : ∃ k, ∀ n, k ≤ n → read (n + 1) (s ++ r) = some (x, r)) :
    Reads read s x r := by
  obtain ⟨k, hk⟩ := h
  refine ⟨k + 1, fun n hn => ?_⟩
  obtain ⟨m, rfl⟩ : ∃ m, n = m + 1 := ⟨n - 1, by omega⟩
  exact hk m (by omega)

/-- The same text holds the same thing, with the same text left. -/
theorem Reads.unique {x y : α} {r' : List Char} (h : Reads read s x r) (h' : Reads read u y r')
    (heq : s ++ r = u ++ r') : x = y ∧ r = r' := by
  obtain ⟨k, hk⟩ := h
  obtain ⟨k', hk'⟩ := h'
  have hx := hk (max k k') (Nat.le_max_left ..)
  have hy := hk' (max k k') (Nat.le_max_right ..)
  rw [heq, hy] at hx
  cases hx
  exact ⟨rfl, rfl⟩

theorem reads_number {x : Number} (h : x.isFinite) (hr : Stops r) :
    Reads operand x.text.toList (.number x) r := by
  obtain ⟨negative, ds, cs, hds, hcs, htext, hvalue⟩ := exists_number_text h
  rw [htext] at hvalue ⊢
  have hnumber := number_append hds hcs hvalue hr
  obtain ⟨c, rest, hstart, hparen, hquote, hlower, hupper⟩ : ∃ c rest,
    minus negative ++ ds ++ cs ++ r = c :: rest ∧
      c ≠ '(' ∧ c ≠ '\'' ∧ c.isLower = false ∧ isUpperStart c = false := by
    obtain ⟨d, ds', rfl, hd⟩ := Script.isDigits_cons hds
    cases negative with
    | true => exact ⟨'-', _, rfl, by decide⟩
    | false =>
      refine ⟨d, _, rfl, ?_, ?_, Script.isLower_of_isDigit hd, Script.isUpperStart_of_isDigit hd⟩
      · rintro rfl
        exact absurd hd (by decide)
      · rintro rfl
        exact absurd hd (by decide)
  refine reads_succ ⟨0, fun n _ => ?_⟩
  rw [hstart] at hnumber ⊢
  simp [operand, group_none hparen, application_none hquote hlower, word, hupper, hnumber]

theorem reads_named {x : String} (h : IsVariable x) (hr : Closed r) :
    Reads operand x.toList (.named x) r := by
  obtain ⟨c, cs, hx, hc, hcs⟩ := h
  have hword := word_append hc hcs hr
  rw [← hx, String.ofList_toList, hx] at hword
  have hlower : c.isLower = false := by
    cases hlower : c.isLower with
    | false => rfl
    | true => rw [Script.isUpperStart_of_isLower hlower] at hc; cases hc
  have hparen : c ≠ '(' := by
    rintro rfl
    exact absurd hc (by decide)
  have hquote : c ≠ '\'' := by
    rintro rfl
    exact absurd hc (by decide)
  refine reads_succ ⟨0, fun n _ => ?_⟩
  rw [hx]
  rw [List.cons_append] at hword ⊢
  simp [operand, group_none hparen, application_none hquote hlower, hword]

theorem operand_of_application {n : Nat} {x : Term × List Char}
    (h : application (terms [')'] n) ((nameText f).toList ++ r) = some x) :
    operand (n + 1) ((nameText f).toList ++ r) = some x := by
  obtain ⟨c, cs, hstart, hc⟩ := exists_cons_nameText f
  rw [hstart, List.cons_append] at h ⊢
  simp [operand, group_none hc, h]

theorem reads_atom (f : String) (hr : Stops r) : Reads operand (nameText f).toList (.atom f) r := by
  refine reads_succ ⟨0, fun n _ => operand_of_application ?_⟩
  simp [application, name_append f hr.closed, hr.after_open]

theorem reads_application (h : Reads (terms [')']) s as r) :
    Reads operand ((nameText f).toList ++ '(' :: s) (.compound f as) r := by
  obtain ⟨k, hk⟩ := h
  refine reads_succ ⟨k, fun n hn => ?_⟩
  have hopen : Closed ('(' :: (s ++ r)) := by
    intro x hx
    cases hx
    decide
  rw [List.append_assoc]
  refine operand_of_application ?_
  rw [List.cons_append]
  simp [application, name_append f hopen, after, hk n hn]

theorem reads_term (h : Reads operand s a r) (hr : Ends r) : Reads term s a r := by
  obtain ⟨k, hk⟩ := h
  refine reads_succ ⟨k, fun n hn => ?_⟩
  simp [term, comparison, hk n hn, hr.comparator]

theorem reads_comparison (hf : f ∈ comparisonNames)
    (ha : Reads operand s a (' ' :: f.toList ++ [' '] ++ (u ++ r))) (hb : Reads operand u b r) :
    Reads term (s ++ (' ' :: f.toList ++ [' '] ++ u)) (.compound f [a, b]) r := by
  obtain ⟨k, hk⟩ := ha
  obtain ⟨k', hk'⟩ := hb
  refine reads_succ ⟨max k k', fun n hn => ?_⟩
  have hleft := hk n (by omega)
  have hright := hk' n (by omega)
  have hmark := comparator_append hf (u ++ r)
  rw [List.append_assoc, List.append_assoc]
  simp only [term, comparison, hleft, Option.bind_some, hmark, hright, Option.map_some,
    Option.orElse_eq_orElse, Option.orElse_some]

def connectives : List (String × List Char) := [(",", [',', ' ']), (";", [' ', ';', ' '])]

theorem ends_connective (hf : (f, mark) ∈ connectives) (r : List Char) : Ends (mark ++ r) := by
  simp only [connectives, List.mem_cons, List.not_mem_nil, or_false, Prod.mk.injEq] at hf
  rcases hf with ⟨-, rfl⟩ | ⟨-, rfl⟩
  · exact ends_comma _
  · exact ends_semicolon _

theorem reads_group (hf : (f, mark) ∈ connectives) (ha : Reads term s a (mark ++ (u ++ ')' :: r)))
    (hb : Reads term u b (')' :: r)) :
    Reads operand ('(' :: (s ++ (mark ++ (u ++ [')'])))) (.compound f [a, b]) r := by
  obtain ⟨k, hk⟩ := ha
  obtain ⟨k', hk'⟩ := hb
  refine reads_succ ⟨max k k', fun n hn => ?_⟩
  have hleft := hk n (by omega)
  have hright := hk' n (by omega)
  have htext : '(' :: (s ++ (mark ++ (u ++ [')']))) ++ r =
      '(' :: (s ++ (mark ++ (u ++ ')' :: r))) := by simp
  have hgroup : group (term n) ('(' :: (s ++ (mark ++ (u ++ ')' :: r)))) =
      some (.compound f [a, b], r) := by
    simp only [connectives, List.mem_cons, List.not_mem_nil, or_false, Prod.mk.injEq] at hf
    rcases hf with ⟨rfl, rfl⟩ | ⟨rfl, rfl⟩
    · simp only [group, after, if_true, Option.bind_some, hleft]
      simp [second, after, hright]
    · simp only [group, after, if_true, Option.bind_some, hleft]
      simp [second, after, hright]
  rw [htext]
  simp [operand, hgroup]

theorem reads_last (h : Reads term s a (close ++ r))
    (hcomma : after [',', ' '] (close ++ r) = none) : Reads (terms close) (s ++ close) [a] r := by
  obtain ⟨k, hk⟩ := h
  refine reads_succ ⟨k, fun n hn => ?_⟩
  have hterm := hk n hn
  rw [List.append_assoc]
  simp [terms, series, hterm, hcomma, after_append]

theorem reads_cons (h : Reads term s a (',' :: ' ' :: (u ++ r))) (hs : Reads (terms close) u as r) :
    Reads (terms close) (s ++ ',' :: ' ' :: u) (a :: as) r := by
  obtain ⟨k, hk⟩ := h
  obtain ⟨k', hk'⟩ := hs
  refine reads_succ ⟨max k k', fun n hn => ?_⟩
  have hfirst := hk n (by omega)
  have hrest := hk' n (by omega)
  rw [List.append_assoc, List.cons_append, List.cons_append]
  simp [terms, series, hfirst, after, hrest]

theorem reads_terms (hne : as ≠ []) (has : ∀ a ∈ as, ∀ r, Ends r → Reads term a.text.toList a r)
    (hclose : Ends (close ++ r)) (hcomma : after [',', ' '] (close ++ r) = none) :
    Reads (terms close) ((", ".intercalate (as.map Term.text)).toList ++ close) as r := by
  induction as with
  | nil => exact (hne rfl).elim
  | cons a as ih =>
    cases as with
    | nil =>
      rw [List.map_singleton, String.intercalate_singleton]
      exact reads_last (has a (List.mem_cons_self ..) _ hclose) hcomma
    | cons b as =>
      have hseparator : (", " : String).toList = [',', ' '] := rfl
      have hrest := ih (List.cons_ne_nil b as) fun c hc => has c (List.mem_cons_of_mem _ hc)
      rw [List.map_cons, List.map_cons, String.intercalate_cons_cons, ← List.map_cons,
        String.toList_append, String.toList_append, hseparator,
        List.append_assoc, List.append_assoc]
      exact reads_cons (has a (List.mem_cons_self ..) _ (ends_comma _)) hrest

theorem reads_fact (h : Reads term s a ('.' :: '\n' :: r)) :
    Reads clause (s ++ ['.', '\n']) ⟨a, []⟩ r := by
  obtain ⟨k, hk⟩ := h
  refine ⟨k, fun n hn => ?_⟩
  have hhead := hk n hn
  rw [List.append_assoc, List.cons_append, List.cons_append, List.nil_append]
  simp [clause, hhead, after]

theorem reads_rule {goals : List Term} (h : Reads term s a (' ' :: ':' :: '-' :: ' ' :: (u ++ r)))
    (hgoals : Reads (terms ['.', '\n']) u goals r) :
    Reads clause (s ++ ' ' :: ':' :: '-' :: ' ' :: u) ⟨a, goals⟩ r := by
  obtain ⟨k, hk⟩ := h
  obtain ⟨k', hk'⟩ := hgoals
  refine ⟨max k k', fun n hn => ?_⟩
  have hhead := hk n (by omega)
  have hbody := hk' n (by omega)
  rw [List.append_assoc, List.cons_append, List.cons_append, List.cons_append, List.cons_append]
  simp [clause, hhead, after, hbody]

end ClauseReading

namespace Term

theorem textList_eq_map (as : List Term) : textList as = as.map text := by
  induction as with
  | nil => rfl
  | cons a as ih => rw [textList, ih, List.map_cons]

def isComparison : Term → Bool
  | .compound f [_, _] => decide (f ∈ comparisonNames)
  | _ => false

/-- A term whose text shows what it is: numbers are finite, variables begin as variables do, and the
operands of a comparison are no comparisons. -/
inductive Legible : Term → Prop
  | atom (name : String) : Legible (.atom name)
  | number {x : Number} (h : x.isFinite) : Legible (.number x)
  | named {name : String} (h : IsVariable name) : Legible (.named name)
  | compound {f : String} {as : List Term} (hne : as ≠ []) (has : ∀ a ∈ as, Legible a)
    (hoperands : isComparison (.compound f as) → ∀ a ∈ as, a.isComparison = false) :
    Legible (.compound f as)

variable {f : String}

theorem text_comparison (hf : f ∈ comparisonNames) (a b : Term) :
    (compound f [a, b]).text.toList =
      a.text.toList ++ (' ' :: f.toList ++ [' '] ++ b.text.toList) := by
  have hblank : (" " : String).toList = [' '] := rfl
  simp [text, textList, hf, hblank]

open ClauseReading in
theorem text_group {mark : List Char} (hf : (f, mark) ∈ connectives) (a b : Term) :
    (compound f [a, b]).text.toList =
      '(' :: (a.text.toList ++ (mark ++ (b.text.toList ++ [')']))) := by
  simp only [connectives, List.mem_cons, List.not_mem_nil, or_false, Prod.mk.injEq] at hf
  rcases hf with ⟨rfl, rfl⟩ | ⟨rfl, rfl⟩
  · simp [text, textList, comparisonNames]
  · simp [text, textList, comparisonNames]

open ClauseReading in
theorem text_application {as : List Term} (hcompare : isComparison (.compound f as) = false)
    (hgroup : ¬ ∃ mark a b, (f, mark) ∈ connectives ∧ as = [a, b]) :
    (compound f as).text.toList =
      (nameText f).toList ++ '(' :: ((", ".intercalate (as.map text)).toList ++ [')']) := by
  unfold text
  rw [textList_eq_map]
  split
  · rename_i a b has
    obtain ⟨x, y, rfl⟩ : ∃ x y, as = [x, y] :=
      List.length_eq_two.mp (by rw [← List.length_map, has]; rfl)
    cases has
    have hf : f ∉ comparisonNames := of_decide_eq_false hcompare
    have hcomma : f ≠ "," := by
      rintro rfl
      exact hgroup ⟨_, x, y, List.mem_cons_self .., rfl⟩
    have hsemicolon : f ≠ ";" := by
      rintro rfl
      exact hgroup ⟨_, x, y, List.mem_cons_of_mem _ (List.mem_cons_self ..), rfl⟩
    simp [hf, hcomma, hsemicolon]
  · simp

open ClauseReading in
/-- A legible term is found in its text, as an operand too unless it is a comparison. -/
theorem Legible.reads {t : Term} (h : t.Legible) :
    (t.isComparison = false → ∀ r, Stops r → Reads operand t.text.toList t r) ∧ ∀ r, Ends r →
      Reads term t.text.toList t r := by
  have hoperand : ∀ u : Term, (∀ r, Stops r → Reads operand u.text.toList u r) →
      (u.isComparison = false → ∀ r, Stops r → Reads operand u.text.toList u r) ∧
        ∀ r, Ends r → Reads term u.text.toList u r :=
    fun u hu => ⟨fun _ => hu, fun r hr => reads_term (hu r hr.stops) hr⟩
  induction h with
  | atom name => exact hoperand _ fun r hr => reads_atom name hr
  | number hx => exact hoperand _ fun r hr => reads_number hx hr
  | named hname => exact hoperand _ fun r hr => reads_named hname hr.closed
  | @compound f as hne has hoperands ih =>
    by_cases hcompare : isComparison (.compound f as) = true
    · obtain ⟨a, b, rfl⟩ : ∃ a b, as = [a, b] := by
        unfold isComparison at hcompare
        split at hcompare
        · rename_i hab
          cases hab
          exact ⟨_, _, rfl⟩
        · cases hcompare
      have hf : f ∈ comparisonNames := of_decide_eq_true hcompare
      have hleft : a ∈ [a, b] := List.mem_cons_self ..
      have hright : b ∈ [a, b] := List.mem_cons_of_mem _ (List.mem_cons_self ..)
      refine ⟨fun hnot => absurd hcompare (by rw [hnot]; decide), fun r hr => ?_⟩
      rw [text_comparison hf]
      have hblank : Stops (' ' :: f.toList ++ [' '] ++ (b.text.toList ++ r)) :=
        ⟨' ', _, rfl, by simp⟩
      exact reads_comparison hf ((ih a hleft).1 (hoperands hcompare a hleft) _ hblank)
        ((ih b hright).1 (hoperands hcompare b hright) r hr.stops)
    · refine hoperand _ fun r hr => ?_
      by_cases hgroup : ∃ mark a b, (f, mark) ∈ connectives ∧ as = [a, b]
      · obtain ⟨mark, a, b, hf, rfl⟩ := hgroup
        rw [text_group hf]
        exact reads_group hf ((ih a (List.mem_cons_self ..)).2 _ (ends_connective hf _))
          ((ih b (List.mem_cons_of_mem _ (List.mem_cons_self ..))).2 _ (ends_close r))
      · rw [text_application (Bool.eq_false_iff.mpr hcompare) hgroup]
        exact reads_application (reads_terms hne (fun a ha => (ih a ha).2) (ends_close r) rfl)

end Term

namespace Clause

structure Legible (c : Clause) : Prop where
  head : c.head.Legible
  body : ∀ g ∈ c.body, g.Legible

open ClauseReading in
/-- A legible clause is found in its line. -/
theorem Legible.reads {c : Clause} (h : c.Legible) (r : List Char) :
    Reads clause (c.text.toList ++ ['\n']) c r := by
  obtain ⟨head, body⟩ := c
  cases body with
  | nil =>
    have htext : (Clause.mk head []).text.toList ++ ['\n'] = head.text.toList ++ ['.', '\n'] := by
      simp [text]
    rw [htext]
    exact reads_fact (h.head.reads.2 _ (ends_point r))
  | cons g gs =>
    have htext : (Clause.mk head (g :: gs)).text.toList ++ ['\n'] =
        head.text.toList ++ ' ' :: ':' :: '-' :: ' ' ::
        ((", ".intercalate ((g :: gs).map Term.text)).toList ++ ['.', '\n']) := by
      simp [text, Term.textList_eq_map]
    have hgoals : Reads (terms ['.', '\n']) ((", ".intercalate ((g :: gs).map Term.text)).toList ++
        ['.', '\n']) (g :: gs) r :=
      reads_terms (List.cons_ne_nil g gs) (fun a ha => (h.body a ha).reads.2) (ends_point r) rfl
    rw [htext]
    exact reads_rule (h.head.reads.2 _ (ends_arrow _)) hgoals

end Clause

end GraphRules
