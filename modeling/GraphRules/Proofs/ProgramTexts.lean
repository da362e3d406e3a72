import GraphRules.Proofs.ClauseReading
import GraphRules.Proofs.DeclaredQueries
import GraphRules.Proofs.ItemParts

/-! The text of a program tells its clauses. Whatever a script is lowered to is legible, as long as
its numbers are finite; so programs with the same text, or with the same bytes to hash, have the
same clauses. -/
namespace GraphRules

open Lowering
open Script (IsWord isNameChar isUpperStart)

def ArgKind.Showable : ArgKind → Prop
  | .var name => IsVariable name
  | .float x => x.isFinite
  | _ => True

def ArgKind.isInfinite : ArgKind → Bool
  | .float x => x.isInfinite
  | _ => false

def Script.overflows (s : Script) : Bool :=
  s.items.any fun i => i.args.any fun a => a.kind.isInfinite

theorem ArgKind.Spelled.showable {k : ArgKind} (h : k.Spelled) (hfinite : k.isInfinite = false) :
    k.Showable := by
  obtain ⟨t, ht, hk⟩ := h.token
  cases t with
  | word c cs =>
    rw [Script.Token.arg?] at hk
    split_ifs at hk with hlower hwildcard
    · cases hk
      trivial
    · cases hk
      trivial
    · cases hk
      simp only [Script.Token.isSpelled, Script.isWordStart, hlower,
        Bool.false_or, Bool.and_eq_true] at ht
      exact ⟨c, cs, String.toList_ofList .., ht⟩
  | integer negative ds =>
    cases hk
    trivial
  | float negative ds es =>
    cases hk
    simp only [Script.Token.isSpelled, Bool.and_eq_true] at ht
    have hvalue : Script.floatValue (String.ofList (Script.minus negative ++ ds ++ '.' :: es)) =
        .ofDecimal negative (digitsValue (ds ++ es)) (-es.length) := by
      rw [Script.floatValue, String.toList_ofList, read?_decimal _ ht.1 ht.2]
      rfl
    simp only [isInfinite, hvalue] at hfinite
    simp only [Showable, hvalue]
    have hnan := Binary64.isNaN_ofDecimal negative (digitsValue (ds ++ es)) (-es.length)
    exact decide_eq_true (Nat.lt_of_le_of_ne (Nat.le_of_not_lt (of_decide_eq_false hnan))
      (of_decide_eq_false hfinite))
  | quoted inner =>
    cases hk
    trivial
  | mark s => cases hk

namespace Term

variable {f : String} {as : List Term}

theorem not_mem_comparisonNames (h : IsWord f) : f ∉ comparisonNames := by
  obtain ⟨c, cs, hf, hc, _⟩ := h
  have hnames : comparisonNames.all fun g => g.toList.head?.all fun d => !d.isLower := by decide
  intro hmem
  have hfirst := List.all_eq_true.mp hnames f hmem
  rw [hf] at hfirst
  simp [hc] at hfirst

theorem isComparison_of_not_mem (hf : f ∉ comparisonNames) (as : List Term) :
    isComparison (.compound f as) = false := by
  unfold isComparison
  split
  · rename_i heq
    cases heq
    exact decide_eq_false hf
  · rfl

theorem legible_compound (hf : f ∉ comparisonNames) (hne : as ≠ []) (h : ∀ a ∈ as, a.Legible) :
    (compound f as).Legible := by
  refine .compound hne h fun hcompare => ?_
  rw [isComparison_of_not_mem hf] at hcompare
  cases hcompare

theorem legible_apply (hf : f ∉ comparisonNames) (h : ∀ a ∈ as, a.Legible) :
    (apply f as).Legible := by
  cases as with
  | nil => exact .atom f
  | cons a as => exact legible_compound hf (List.cons_ne_nil a as) h

theorem legible_pair (hf : f ∉ comparisonNames) {a b : Term} (ha : a.Legible) (hb : b.Legible) :
    (compound f [a, b]).Legible :=
  legible_compound hf (List.cons_ne_nil a [b]) (by simpa using ⟨ha, hb⟩)

theorem legible_comparison (f : String) {a b : Term} (ha : a.Legible ∧ a.isComparison = false)
    (hb : b.Legible ∧ b.isComparison = false) : (compound f [a, b]).Legible := by
  refine .compound (List.cons_ne_nil a [b]) ?_ fun _ => ?_
  · simpa using ⟨ha.1, hb.1⟩
  · simpa using ⟨ha.2, hb.2⟩

end Term

namespace Lowering

theorem isVariable_wildcardName (n : Nat) : IsVariable (wildcardName n) := by
  refine ⟨'_', 'G' :: (toString n).toList, by simp [wildcardName], rfl, ?_⟩
  have hdigits : (toString n).toList = Nat.toDigits 10 n := by simp [Nat.repr_eq_ofList_toDigits]
  rw [List.all_cons, hdigits]
  exact List.all_eq_true.mpr fun c hc => Script.isNameChar_of_isDigit (forall_toDigits n c hc)

theorem lowerArg_legible {a : Arg} (h : a.kind.Showable) (taken : List String) (n : Nat) :
    (lowerArg taken a n).1.Legible ∧ (lowerArg taken a n).1.isComparison = false := by
  unfold lowerArg
  cases hk : a.kind with
  | var x =>
    rw [hk] at h
    exact ⟨.named h, rfl⟩
  | wildcard => exact ⟨.named (isVariable_wildcardName _), rfl⟩
  | symbol s => exact ⟨.atom s, rfl⟩
  | quoted s => exact ⟨.atom s, rfl⟩
  | int x => exact ⟨.number rfl, rfl⟩
  | float x =>
    rw [hk] at h
    exact ⟨.number h, rfl⟩

theorem lowerArgs_legible {as : List Arg} (h : ∀ a ∈ as, a.kind.Showable) (taken : List String)
    (n : Nat) : ∀ t ∈ (lowerArgs taken as n).1, t.Legible := by
  induction as generalizing n with
  | nil => intro t ht; cases ht
  | cons a as ih =>
    intro t ht
    rcases List.mem_cons.mp ht with rfl | ht
    · exact (lowerArg_legible (h a (List.mem_cons_self ..)) taken n).1
    · exact ih (fun b hb => h b (List.mem_cons_of_mem _ hb)) _ t ht

theorem lowerCall_legible {c : Call} (h : c.Made IsWord ArgKind.Showable) (taken : List String)
    (n : Nat) : (lowerCall taken c n).1.Legible :=
  Term.legible_apply (Term.not_mem_comparisonNames h.name) (lowerArgs_legible h.args taken n)

mutual

theorem lowerLiteral_legible (taken : List String) :
    ∀ {l : Literal}, l.Made IsWord ArgKind.Showable → ∀ n, (lowerLiteral taken l n).1.Legible
  | .call _, h, n => lowerCall_legible h taken n
  | .negated f _, h, n =>
    Term.legible_compound (by decide) (List.cons_ne_nil (lowerFormula taken f n).1 [])
      (by simpa using lowerFormula_legible taken (f := f) h n)
  | .compare c, h, n =>
    Term.legible_comparison c.op.symbol (lowerArg_legible h.1 taken n)
      (lowerArg_legible h.2 taken (lowerArg taken c.left n).2)
  | .group f, h, n => lowerFormula_legible taken (f := f) h n

theorem lowerFormula_legible (taken : List String) :
    ∀ {f : Formula}, f.Made IsWord ArgKind.Showable → ∀ n, (lowerFormula taken f n).1.Legible
  | .mk _ _, h, n => Term.Joins.disjunction.induct (.atom _) (Term.legible_pair (by decide))
    (lowerDisjuncts_legible taken h.2 n)

theorem lowerDisjuncts_legible (taken : List String) :
    ∀ {ds : List (List Literal)}, Formula.MadeAny IsWord ArgKind.Showable ds →
    ∀ n, ∀ t ∈ (lowerDisjuncts taken ds n).1, t.Legible
  | [], _, _, _, ht => by cases ht
  | c :: _, h, n, t, ht => by
    rcases List.mem_cons.mp ht with rfl | ht
    · exact Term.Joins.conjunction.induct (.atom _) (Term.legible_pair (by decide))
        (lowerLiterals_legible taken h.1.2 n)
    · exact lowerDisjuncts_legible taken h.2 (lowerLiterals taken c n).2 t ht

theorem lowerLiterals_legible (taken : List String) :
    ∀ {ls : List Literal}, Literal.MadeAll IsWord ArgKind.Showable ls →
    ∀ n, ∀ t ∈ (lowerLiterals taken ls n).1, t.Legible
  | [], _, _, _, ht => by cases ht
  | l :: _, h, n, t, ht => by
    rcases List.mem_cons.mp ht with rfl | ht
    · exact lowerLiteral_legible taken h.1 n
    · exact lowerLiterals_legible taken h.2 (lowerLiteral taken l n).2 t ht

end

variable {alternative : List Literal}

theorem ruleClause_legible {head : Call} (hhead : head.Made IsWord ArgKind.Showable)
    (h : Literal.MadeAll IsWord ArgKind.Showable alternative) :
    (ruleClause head alternative).Legible :=
  ⟨lowerCall_legible hhead _ _, lowerLiterals_legible _ h _⟩

theorem queryClause_legible {name : String} {vars : List String} (hname : IsWord name)
    (hvars : ∀ x ∈ vars, IsVariable x) (h : Literal.MadeAll IsWord ArgKind.Showable alternative) :
    (queryClause name vars alternative).Legible := by
  refine ⟨Term.legible_apply (Term.not_mem_comparisonNames hname) fun t ht => ?_,
    lowerLiterals_legible _ h _⟩
  obtain ⟨x, hx, rfl⟩ := List.mem_map.mp ht
  exact .named (hvars x hx)

theorem labelClause_legible (kind : LabelKind) (l : Label) : (labelClause kind l).Legible := by
  have hx : (Term.named "X").Legible := .named ⟨'X', [], rfl, rfl, rfl⟩
  have hone : ∀ f, (Term.compound f [.named "X"]).Legible :=
    fun f => .compound (by simp) (by simpa using hx) fun h => by cases h
  refine ⟨hone _, fun g hg => ?_⟩
  simp only [labelClause, List.mem_cons, List.not_mem_nil, or_false] at hg
  rcases hg with rfl | rfl
  · exact hone _
  · refine .compound (by simp) ?_ fun h => by cases h
    simpa using ⟨hx, .atom _, .atom _⟩

theorem itemClauses_legible {i : Item} (h : i.Made IsWord ArgKind.Showable) :
    ∀ c ∈ itemClauses i, c.Legible := by
  intro c hc
  cases i with
  | labels d =>
    obtain ⟨l, _, rfl⟩ := List.mem_map.mp hc
    exact labelClause_legible d.kind l
  | rule r =>
    obtain ⟨hantecedent, _, hconsequence⟩ := h
    change c ∈ ruleClauses r at hc
    unfold ruleClauses at hc
    split at hc
    · obtain ⟨head, hhead, rfl⟩ := List.mem_map.mp hc
      exact ⟨lowerCall_legible (hconsequence head hhead) _ _, fun g hg => by cases hg⟩
    · rename_i f hf
      obtain ⟨head, hhead, hc⟩ := List.mem_flatMap.mp hc
      obtain ⟨a, ha, rfl⟩ := List.mem_map.mp hc
      exact ruleClause_legible (hconsequence head hhead)
        ((hantecedent f hf).of_mem_alternatives a ha)
  | query q =>
    rcases List.mem_cons.mp hc with rfl | hc
    · exact ⟨Term.legible_pair (by decide) (.atom _) (.number rfl), fun g hg => by cases hg⟩
    · obtain ⟨a, ha, rfl⟩ := List.mem_map.mp hc
      exact queryClause_legible h.1 (fun x hx => h.2.of_mem_visible x (List.mem_eraseDups.mp hx))
        (h.2.of_mem_alternatives a ha)

end Lowering

theorem Script.legible_of_parse {source : String} {s : Script}
    (hparse : Script.parse source = .ok s) (hfinite : s.overflows = false) :
    ∀ c ∈ s.items.flatMap itemClauses, c.Legible := by
  intro c hc
  obtain ⟨i, hi, hc⟩ := List.mem_flatMap.mp hc
  refine itemClauses_legible
    ((Script.made_of_parse hparse i hi).imp (fun _ _ h => h) fun a ha hspelled => ?_) c hc
  have hitem := List.any_eq_false.mp hfinite i hi
  exact hspelled.showable
    (Bool.eq_false_iff.mpr (List.any_eq_false.mp (Bool.eq_false_iff.mpr hitem) a ha))

namespace Program

theorem toList_text (p : Program) :
    p.text.toList = p.clauses.flatMap fun c => c.text.toList ++ ['\n'] := by
  simp [text, List.flatMap_map]

open ClauseReading in
/-- Lines of legible clauses tell the clauses, one after the other. -/
theorem clauses_of_lines {cs cs' : List Clause} (h : ∀ c ∈ cs, c.Legible)
    (h' : ∀ c ∈ cs', c.Legible)
    (heq : (cs.flatMap fun c => c.text.toList ++ ['\n']) =
    cs'.flatMap fun c => c.text.toList ++ ['\n']) : cs = cs' := by
  induction cs generalizing cs' with
  | nil =>
    cases cs' with
    | nil => rfl
    | cons c cs' => simp at heq
  | cons c cs ih =>
    cases cs' with
    | nil => simp at heq
    | cons c' cs' =>
      rw [List.flatMap_cons, List.flatMap_cons] at heq
      have hread :=
        (h c (List.mem_cons_self ..)).reads (cs.flatMap fun c => c.text.toList ++ ['\n'])
      have hread' :=
        (h' c' (List.mem_cons_self ..)).reads (cs'.flatMap fun c => c.text.toList ++ ['\n'])
      obtain ⟨rfl, hrest⟩ := hread.unique hread' heq
      rw [ih (fun d hd => h d (List.mem_cons_of_mem _ hd))
        (fun d hd => h' d (List.mem_cons_of_mem _ hd)) hrest]

end Program

theorem toList_loop (bs : ByteArray) (i : Nat) (r : List UInt8) :
    ByteArray.toList.loop bs i r = r.reverse ++ bs.data.toList.drop i := by
  fun_induction ByteArray.toList.loop bs i r with
  | case1 i r hi ih =>
    have hlength : i < bs.data.toList.length := hi
    have hbyte : bs.get! i = bs.data.toList[i] := by simp [ByteArray.get!, hi]
    rw [ih, List.drop_eq_getElem_cons hlength, hbyte]
    simp
  | case2 i r hi =>
    have hlength : bs.data.toList.length ≤ i := Nat.le_of_not_lt hi
    rw [List.drop_of_length_le hlength, List.append_nil]

theorem toList_eq_data (bs : ByteArray) : bs.toList = bs.data.toList := toList_loop bs 0 []

theorem toList_toUTF8_inj {s t : String} : s.toUTF8.toList = t.toUTF8.toList ↔ s = t := by
  rw [toList_eq_data, toList_eq_data, Array.toList_inj]
  exact ⟨fun h => String.toByteArray_inj.mp (ByteArray.ext h), fun h => by rw [h]⟩

/-- Compiled programs without infinite numbers have the same text exactly when they have the same
clauses, and so have the bytes that their fingerprints are taken of. -/
theorem Program.text_eq_iff_clauses_eq {c c' : Compiler} {source source' : String} {s s' : Script}
    {p p' : Program} (hparse : Script.parse source = .ok s) (hcompile : c.compile source = .ok p)
    (hfinite : s.overflows = false) (hparse' : Script.parse source' = .ok s')
    (hcompile' : c'.compile source' = .ok p') (hfinite' : s'.overflows = false) :
    (p.text = p'.text ↔ p.clauses = p'.clauses) ∧
      (p.text.toUTF8.toList = p'.text.toUTF8.toList ↔ p.clauses = p'.clauses) := by
  have htext : p.text = p'.text ↔ p.clauses = p'.clauses := by
    refine ⟨fun heq => ?_, fun heq => by rw [Program.text, Program.text, heq]⟩
    have hlegible := Script.legible_of_parse hparse hfinite
    have hlegible' := Script.legible_of_parse hparse' hfinite'
    rw [← (Compiler.compile_eq_ok hparse hcompile).2.1] at hlegible
    rw [← (Compiler.compile_eq_ok hparse' hcompile').2.1] at hlegible'
    refine clauses_of_lines hlegible hlegible' ?_
    rw [← toList_text, ← toList_text, heq]
  exact ⟨htext, toList_toUTF8_inj.trans htext⟩

def joinedSource : String := "near(\"a, b\", 0.00001).\n"

def splitSource : String := "near(a, b, 0.00001).\n"

theorem Program.text_eq_iff_clauses_eq_joined :
    ∃ s s' p p', Script.parse joinedSource = .ok s ∧
      (Compiler.standard 16).compile joinedSource = .ok p ∧ s.overflows = false ∧
      Script.parse splitSource = .ok s' ∧ (Compiler.standard 16).compile splitSource = .ok p' ∧
      s'.overflows = false ∧ (p.text = p'.text ↔ p.clauses = p'.clauses) ∧
      p.text.toUTF8.toList ≠ p'.text.toUTF8.toList := by
  obtain ⟨s, p, hparse, hcompile, hs⟩ := Compiler.exists_ok_of_check 16 joinedSource
    (P := fun s =>
      !s.overflows && (s.items.flatMap itemClauses).map (·.signature?) = [some ⟨"near", 2⟩]) (by
        decide +kernel)
  obtain ⟨s', p', hparse', hcompile', hs'⟩ := Compiler.exists_ok_of_check 16 splitSource
    (P := fun s =>
      !s.overflows && (s.items.flatMap itemClauses).map (·.signature?) = [some ⟨"near", 3⟩]) (by
        decide +kernel)
  rw [Bool.and_eq_true, Bool.not_eq_true', decide_eq_true_eq] at hs hs'
  obtain ⟨htext, hbytes⟩ := text_eq_iff_clauses_eq hparse hcompile hs.1 hparse' hcompile' hs'.1
  refine ⟨s, s', p, p', hparse, hcompile, hs.1, hparse', hcompile', hs'.1, htext, fun heq => ?_⟩
  have hclauses := hbytes.mp heq
  rw [(Compiler.compile_eq_ok hparse hcompile).2.1,
    (Compiler.compile_eq_ok hparse' hcompile').2.1] at hclauses
  have hsignatures := hs.2
  rw [hclauses, hs'.2] at hsignatures
  cases hsignatures

end GraphRules
