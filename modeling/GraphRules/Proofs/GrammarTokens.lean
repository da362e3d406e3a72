import GraphRules.Proofs.GrammarMeasures
import GraphRules.Proofs.Statements

/-! Tokens by the grammar. The measures of the rules of tokens are those by which the readers go.
The same holds of the gaps between tokens and of the rule that takes a malformed statement. -/
namespace GraphRules.Grammar

open Script

section Names

variable {m : Mode}

theorem silent_identChar : Silent m (.call .identChar) (.one isNameChar) := by
  refine Takes.call (((takes_one Char.isAlphanum).choice (takes_text "_")).congr fun cs => ?_) rfl
  rw [Measure.text_one '_' "_" rfl, Measure.or_one]
  rfl

theorem silent_identChars (hm : m ≠ .free) :
    Silent m (.star (.call .identChar)) fun cs => some (cs.takeWhile isNameChar).length :=
  (silent_identChar.star hm (Measure.advances_one _)).congr fun cs => by
    rw [Measure.star, Measure.many_one]

theorem silent_name {e : Expr} {f : Char → Bool} (h : Silent .atomic e (.one f)) :
    Silent .atomic (.seq e (.star (.call .identChar))) (nameLength? f) := by
  refine (h.seq (by decide) (silent_identChars (by decide))).congr fun cs => ?_
  cases cs with
  | nil => rfl
  | cons c cs =>
    by_cases hc : f c
    · simp [Measure.seq, Measure.one, nameLength?, hc, Nat.add_comm]
    · simp [Measure.seq, Measure.one, nameLength?, hc]

theorem silent_ident : Silent .atomic (Rule.body .ident) (nameLength? Char.isLower) :=
  silent_name (takes_one _)

theorem silent_var : Silent .atomic (Rule.body .var) (nameLength? isUpperStart) := by
  refine silent_name (((takes_one Char.isUpper).choice (takes_text "_")).congr fun cs => ?_)
  rw [Measure.text_one '_' "_" rfl, Measure.or_one]
  rfl

theorem silent_wildcard : Silent .atomic (Rule.body .wildcard) wildcardLength? := by
  refine ((takes_text "_").seq (by decide) silent_identChar.absent).congr fun cs => ?_
  rw [Measure.text_one '_' "_" rfl]
  cases cs with
  | nil => rfl
  | cons c cs =>
    by_cases hc : c = '_'
    · subst hc
      cases cs with
      | nil => rfl
      | cons x xs =>
        by_cases hx : isNameChar x <;> simp [Measure.seq, Measure.one,
          Measure.absent, wildcardLength?, hx]
    · simp [Measure.seq, Measure.one, wildcardLength?_none hc, hc]

theorem silent_word (s : String) :
    Silent .atomic (.word s) fun cs => (wordScan s cs).map Prod.snd := by
  refine ((takes_text s).seq (by decide) silent_identChar.absent).congr fun cs => ?_
  by_cases hs : s.toList.isPrefixOf cs
  · by_cases hclosed : Closed (cs.drop s.length) <;>
      simp [wordScan, hs, hclosed, Measure.seq, Measure.text, Measure.absent_name]
  · simp [wordScan, hs, Measure.seq, Measure.text]

end Names

section Numbers

def digitsLength? : Measure := fun cs =>
  if (cs.takeWhile Char.isDigit).length = 0 then none else some (cs.takeWhile Char.isDigit).length

theorem silent_digits : Silent .atomic (.plus .digit) digitsLength? := by
  have hdigit : Silent .atomic .digit (.one Char.isDigit) := takes_one _
  refine (hdigit.seq (by decide) (hdigit.star (by decide) (Measure.advances_one _))).congr fun cs =>
    ?_
  cases cs with
  | nil => rfl
  | cons c cs =>
    by_cases hc : c.isDigit
    · simp [digitsLength?, Measure.seq, Measure.one, Measure.star,
        Measure.many_one, hc, Nat.add_comm]
    · simp [digitsLength?, Measure.seq, Measure.one, hc]

theorem measure_integer : (Measure.text "-").opt.seq digitsLength? = integerLength? := by
  funext cs
  rw [Measure.text_one '-' "-" rfl]
  cases cs with
  | nil => rfl
  | cons c cs =>
    by_cases hc : c = '-'
    · subst hc
      rw [integerLength?_minus]
      by_cases hcs : (cs.takeWhile Char.isDigit).length = 0 <;>
        simp [Measure.seq, Measure.opt, Measure.one, digitsLength?, hcs, -List.length_eq_zero_iff]
    · rw [integerLength?_plain (by simpa using hc)]
      by_cases hcs : ((c :: cs).takeWhile Char.isDigit).length = 0 <;>
        simp [Measure.seq, Measure.opt, Measure.one, digitsLength?, hcs, hc,
          -List.length_eq_zero_iff]

theorem measure_float :
    Measure.seq integerLength? ((Measure.text ".").seq digitsLength?) = floatLength? := by
  funext cs
  rw [Measure.text_one '.' "." rfl]
  unfold floatLength? Measure.seq
  cases integerLength? cs with
  | none => rfl
  | some n =>
    cases hds : cs.drop n with
    | nil => simp [hds, Measure.one]
    | cons x xs =>
      have hxs : cs.drop (n + 1) = xs := by rw [← List.drop_drop, hds]; rfl
      by_cases hx : x = '.'
      · by_cases hnil : (xs.takeWhile Char.isDigit).length = 0 <;>
          simp [hds, Measure.one, digitsLength?, hx, hxs, hnil, Nat.add_assoc,
            -List.length_eq_zero_iff]
      · simp [hds, Measure.one, hx]

theorem silent_integer : Silent .atomic (Rule.body .integer) integerLength? :=
  ((takes_text "-").opt.seq (by decide) silent_digits).congr fun cs => by rw [measure_integer]

theorem silent_float : Silent .atomic (Rule.body .float) floatLength? := by
  have hminus : Silent .atomic (.opt (.text "-")) (Measure.text "-").opt := (takes_text "-").opt
  refine (hminus.seq (by decide)
    (silent_digits.seq (by decide) ((takes_text ".").seq (by decide) silent_digits))).congr
    fun cs => ?_
  rw [Measure.seq_assoc, measure_integer, measure_float]

end Numbers

section Strings

def innerStep : Measure
  | [] => none
  | '"' :: _ => none
  | ['\\'] => none
  | '\\' :: _ :: _ => some 2
  | _ :: _ => some 1

theorem advances_innerStep : innerStep.Advances := by
  intro cs n h
  unfold innerStep at h
  split at h
  all_goals cases h
  all_goals simp

theorem silent_innerStep :
    Silent .atomic (.choice (.seq (.absent (.choice (.text "\"") (.text "\\"))) .any)
      (.seq (.text "\\") .any)) innerStep := by
  have hany : Silent .atomic .any (.one fun _ => true) := takes_one _
  have hquote : Silent .atomic (.choice (.text "\"") (.text "\\")) (.one fun c =>
    c = '"' || c = '\\') := by
    refine ((takes_text "\"").choice (takes_text "\\")).congr fun cs => ?_
    rw [Measure.text_one '"' "\"" rfl, Measure.text_one '\\' "\\" rfl, Measure.or_one]
  refine ((hquote.absent.seq (by decide) hany).choice
    ((takes_text "\\").seq (by decide) hany)).congr fun cs => ?_
  rw [Measure.text_one '\\' "\\" rfl]
  unfold innerStep
  split
  next => rfl
  next => simp [Measure.or, Measure.seq, Measure.absent, Measure.one]
  next => rfl
  next => simp [Measure.or, Measure.seq, Measure.absent, Measure.one]
  next c cs h1 h2 h3 =>
    have hq : c ≠ '"' := fun h => h1 h
    have hs : c ≠ '\\' := by
      intro h
      cases cs with
      | nil => exact h2 h rfl
      | cons x xs => exact h3 x xs h rfl
    simp [Measure.or, Measure.seq, Measure.absent, Measure.one, hq, hs]

/-- A string is closed where no more of it can be taken. -/
theorem innerLength?_eq (cs : List Char) :
    innerLength? cs =
      ((Measure.one (· = '"')) (cs.drop (innerStep.many cs))).map fun _ => innerStep.many cs := by
  have hmore : ∀ (cs : List Char) (k : Nat), innerStep cs = some k →
      innerLength? (cs.drop k) =
        ((Measure.one (· = '"')) ((cs.drop k).drop (innerStep.many (cs.drop k)))).map
        (fun _ => innerStep.many (cs.drop k)) →
      (innerLength? (cs.drop k)).map (· + k) =
        ((Measure.one (· = '"')) (cs.drop (innerStep.many cs))).map fun _ => innerStep.many cs := by
    intro cs k hk ih
    rw [ih, Measure.many_of_some advances_innerStep hk, List.drop_drop, Option.map_map]
    cases Measure.one (· = '"') (cs.drop (k + innerStep.many (cs.drop k))) with
    | none => rfl
    | some n => simp [Nat.add_comm]
  fun_induction innerLength? cs with
  | case1 => rfl
  | case2 cs => rw [Measure.many_of_none rfl]; rfl
  | case3 => rfl
  | case4 c cs ih => exact hmore ('\\' :: c :: cs) 2 rfl ih
  | case5 c cs h1 h2 h3 ih =>
    refine hmore (c :: cs) 1 ?_ ih
    unfold innerStep
    split <;> simp_all

theorem dropLast_take {cs r : List Char} {n : Nat} {c : Char} (h : cs.drop n = c :: r) :
    (cs.take (n + 1)).dropLast = cs.take n := by
  have hc : cs[n]? = some c := by rw [← List.head?_drop, h]; rfl
  rw [List.take_add_one, hc]
  simp

/-- The node of a string has a node for what stands between the quotes. -/
theorem matches_string (p : Spot) : ∃ o, Matches .compound (Rule.body .string) p o ∧
    Option.Rel (fun n (x : Spot × List Pair) => x.1 = p.advance n ∧
      ∃ q, x.2 = [q] ∧ q.text = String.ofList ((p.rest.take n).drop 1).dropLast)
        (stringLength? p.rest) o := by
  have hinner : Silent .atomic (Rule.body .stringInner) innerStep.star :=
    silent_innerStep.star (by decide) advances_innerStep
  cases hrest : p.rest with
  | nil => exact ⟨_, .seq_miss (.text_miss (by simp [hrest])), .none⟩
  | cons c cs =>
    by_cases hc : c = '"'
    · subst hc
      have hfirst : (p.advance 1).rest = cs := by simp [Spot.advance, hrest]
      have hopen : Matches .compound (.text "\"") p (some (p.advance 1, [])) :=
        .text_hit (by simp [hrest])
      obtain ⟨o, ho, hrel⟩ := hinner.node (m := .compound) (r := .stringInner) rfl (p.advance 1)
      obtain ⟨x, rfl, hx, inner, hnode⟩ := rel_some_left hrel
      rw [hfirst] at hx hnode
      have hlast : x.1.rest = cs.drop (innerStep.many cs) := by rw [hx, Spot.advance, hfirst]
      obtain ⟨o', ho', hrel'⟩ := takes_text (m := .compound) (Q := fun _ => False) "\"" x.1
      refine ⟨_, .seq hopen (matches_gap (by decide) _) (.seq ho (matches_gap (by decide) _) ho'),
        ?_⟩
      rw [stringLength?, innerLength?_eq]
      rw [hlast, Measure.text_one '"' "\"" rfl] at hrel'
      cases hquote : cs.drop (innerStep.many cs) with
      | nil =>
        rw [hquote] at hrel'
        cases hrel'
        exact .none
      | cons y ys =>
        by_cases hy : y = '"'
        · subst hy
          rw [hquote] at hrel'
          obtain ⟨z, rfl, hz, hzs⟩ := rel_some_left hrel'
          have hnil : z.2 = [] := List.eq_nil_iff_forall_not_mem.mpr hzs
          have hspot : z.1 = p.advance (innerStep.many cs + 2) := by
            rw [hz, hx, Spot.advance_advance, Spot.advance_advance]
            exact congrArg p.advance (by omega)
          have hnodes : [] ++ [] ++ (x.2 ++ [] ++ z.2) = x.2 := by simp [hnil]
          refine .some ⟨hspot, _, hnodes.trans hnode, ?_⟩
          simp [Pair.text, dropLast_take hquote]
        · rw [hquote] at hrel'
          simp only [Measure.one, hy, decide_false] at hrel' ⊢
          cases hrel'
          exact .none
    · have hc' : '"' ≠ c := fun h => hc h.symm
      rw [stringLength?_none hc]
      exact ⟨_, .seq_miss (.text_miss (by simp [hrest, hc'])), .none⟩

end Strings

section Gaps

def isBlank (c : Char) : Bool := c = ' ' || c = '\t' || c = '\r' || c = '\n'

def inLine (c : Char) : Bool := !(c = '\n' || c = '\r')

def closeLength? : Measure
  | [] => none
  | '*' :: '/' :: _ => some 2
  | _ :: cs => (closeLength? cs).map (· + 1)

def commentLength? : Measure
  | '%' :: cs => some ((cs.takeWhile inLine).length + 1)
  | '/' :: '/' :: cs => some ((cs.takeWhile inLine).length + 2)
  | '/' :: '*' :: cs => (closeLength? cs).map (· + 2)
  | _ => none

theorem blankLength_cons {c : Char} (h : isBlank c) (cs : List Char) :
    blankLength (c :: cs) = blankLength cs + 1 := by
  have hc : c = ' ' ∨ c = '\t' ∨ c = '\r' ∨ c = '\n' := by simpa [isBlank, or_assoc] using h
  rcases hc with rfl | rfl | rfl | rfl <;> simp [blankLength]

theorem blankLength_blanks (cs : List Char) :
    blankLength cs =
      (cs.takeWhile isBlank).length + blankLength (cs.drop (cs.takeWhile isBlank).length) := by
  induction cs with
  | nil => rfl
  | cons c cs ih =>
    by_cases hc : isBlank c
    · rw [blankLength_cons hc, ih]
      simp [hc]
      omega
    · simp [hc]

theorem lineLength_eq (cs : List Char) :
    lineLength cs =
      (cs.takeWhile inLine).length + blankLength (cs.drop (cs.takeWhile inLine).length) := by
  induction cs with
  | nil => rfl
  | cons c cs ih =>
    by_cases hc : c = '\n' ∨ c = '\r'
    · have hline : inLine c = false := by rcases hc with rfl | rfl <;> decide
      have hblank : isBlank c := by rcases hc with rfl | rfl <;> decide
      simp [lineLength, hc, hline, blankLength_cons hblank]
    · have hline : inLine c := by simpa [inLine] using hc
      simp [lineLength, hc, hline, ih]
      omega

theorem blockLength?_eq (cs : List Char) :
    blockLength? cs = (closeLength? cs).map fun k => k + blankLength (cs.drop k) := by
  fun_induction closeLength? cs with
  | case1 => rfl
  | case2 cs => simp [blockLength?, Nat.add_comm]
  | case3 c cs hmark ih =>
    rw [blockLength?.eq_3 c cs hmark, ih]
    cases closeLength? cs with
    | none => rfl
    | some k =>
      simp
      omega

variable {cs : List Char} {k : Nat}

theorem blankLength_comment (h : commentLength? cs = some k) :
    blankLength cs = k + blankLength (cs.drop k) := by
  unfold commentLength? at h
  split at h
  next cs =>
    cases h
    simp [blankLength, lineLength_eq cs]
    omega
  next cs =>
    cases h
    simp [blankLength, lineLength_eq cs]
    omega
  next cs =>
    obtain ⟨n, hn, rfl⟩ := Option.map_eq_some_iff.mp h
    simp [blankLength, blockLength?_eq, hn]
    omega
  next => cases h

theorem blankLength_other (h : commentLength? cs = none)
    (hblank : ∀ x ∈ cs.head?, isBlank x = false) : blankLength cs = 0 := by
  unfold commentLength? at h
  split at h
  next => cases h
  next => cases h
  next cs =>
    have hclose : closeLength? cs = none := by simpa using h
    simp [blankLength, blockLength?_eq, hclose]
  next h1 h2 h3 =>
    cases cs with
    | nil => rfl
    | cons c cs =>
      have hc := hblank c rfl
      rw [blankLength.eq_5 c cs (fun hc => h1 _ (by rw [hc])) (fun ds hc hds =>
        h2 ds (by rw [hc, hds])) (fun ds hc hds => h3 ds (by rw [hc, hds])), if_neg]
      simpa [isBlank, and_assoc] using hc

theorem silent_whitespace {m : Mode} : Silent m (.call .whitespace) (.one isBlank) := by
  refine Takes.call
    (((takes_text " ").choice
    ((takes_text "\t").choice ((takes_text "\r").choice (takes_text "\n")))).congr fun cs => ?_) rfl
  rw [Measure.text_one ' ' " " rfl, Measure.text_one '\t' "\t" rfl, Measure.text_one '\r' "\r" rfl,
    Measure.text_one '\n' "\n" rfl, Measure.or_one, Measure.or_one, Measure.or_one]
  congr
  funext c
  simp [isBlank, Bool.or_assoc]

theorem silent_blanks :
    Silent .atomic (.star (.call .whitespace)) fun cs => some (cs.takeWhile isBlank).length :=
  (silent_whitespace.star (by decide) (Measure.advances_one _)).congr fun cs => by
    rw [Measure.star, Measure.many_one]

theorem silent_line : Silent .atomic (.star (.seq (.absent .newline) .any)) fun cs =>
  some (cs.takeWhile inLine).length := by
  have hany : Silent .atomic .any (.one fun _ => true) := takes_one _
  have hnewline : Silent .atomic .newline
      ((Measure.text "\n").or ((Measure.text "\r\n").or (.text "\r"))) :=
    (takes_text "\n").choice ((takes_text "\r\n").choice (takes_text "\r"))
  have hone : Silent .atomic (.seq (.absent .newline) .any) (.one inLine) := by
    refine (hnewline.absent.seq (by decide) hany).congr fun cs => ?_
    cases cs with
    | nil => rfl
    | cons c cs =>
      rw [Measure.text_one '\n' "\n" rfl, Measure.text_one '\r' "\r" rfl]
      by_cases hn : c = '\n'
      · simp [Measure.seq, Measure.absent, Measure.or, Measure.one, inLine, hn]
      · by_cases hr : c = '\r'
        · simp [Measure.seq, Measure.absent, Measure.or, Measure.one, inLine, hr]
        · have hr' : '\r' ≠ c := fun h => hr h.symm
          simp [Measure.seq, Measure.absent, Measure.or, Measure.one,
            Measure.text, inLine, hn, hr, hr']
  exact (hone.star (by decide) (Measure.advances_one _)).congr fun cs => by
    rw [Measure.star, Measure.many_one]

def closeStep : Measure
  | [] => none
  | '*' :: '/' :: _ => none
  | _ :: _ => some 1

theorem advances_closeStep : closeStep.Advances := by
  intro cs n h
  unfold closeStep at h
  split at h
  all_goals cases h
  simp

theorem measure_star_slash (x : Char) (cs : List Char) (h : ∀ ds, x = '*' → cs ≠ '/' :: ds) :
    Measure.text "*/" (x :: cs) = none := by
  have hnot : ¬ "*/".toList.isPrefixOf (x :: cs) := by
    intro hstarts
    obtain ⟨r, hr⟩ := List.isPrefixOf_iff_prefix.mp hstarts
    cases hr
    exact h r rfl rfl
  rw [Measure.text, if_neg hnot]

theorem silent_closeStep : Silent .atomic (.seq (.absent (.text "*/")) .any) closeStep := by
  have hany : Silent .atomic .any (.one fun _ => true) := takes_one _
  have hclose : Silent .atomic (.text "*/") (.text "*/") := takes_text _
  refine (hclose.absent.seq (by decide) hany).congr fun cs => ?_
  unfold closeStep
  split
  next => rfl
  next cs => simp [Measure.seq, Measure.absent, Measure.text]
  next c cs h =>
    simp [Measure.seq, Measure.absent, Measure.one, measure_star_slash c cs h]

theorem measure_close (cs : List Char) : closeStep.star.seq (.text "*/") cs = closeLength? cs := by
  fun_induction closeLength? cs with
  | case1 => rfl
  | case2 cs => rw [Measure.star_seq_of_none rfl]; rfl
  | case3 c cs h ih =>
    have hstep : closeStep (c :: cs) = some 1 := by
      unfold closeStep
      split <;> simp_all
    rw [Measure.star_seq_of_some advances_closeStep hstep, ← ih]
    simp [Nat.add_comm]

theorem silent_comment {m : Mode} : Silent m (.call .comment) commentLength? := by
  have hopening : Silent .atomic (.choice (.text "%") (.text "//"))
      ((Measure.text "%").or (.text "//")) :=
    (takes_text "%").choice (takes_text "//")
  have hclosing : Silent .atomic (.seq (.star (.seq (.absent (.text "*/")) .any)) (.text "*/"))
      closeLength? :=
    ((silent_closeStep.star (by decide) advances_closeStep).seq (by decide)
      (takes_text "*/")).congr fun cs =>
      (measure_close cs).symm
  refine Takes.call (((hopening.seq (by decide) silent_line).choice
    ((takes_text "/*").seq (by decide) hclosing)).congr fun cs => ?_) rfl
  have htwo : "//".length = 2 ∧ "/*".length = 2 ∧ "%".length = 1 := by decide
  unfold commentLength?
  split
  next cs => simp [Measure.or, Measure.seq, Measure.text, htwo, Nat.add_comm]
  next cs => simp [Measure.or, Measure.seq, Measure.text, htwo, Nat.add_comm]
  next cs => simp [Measure.or, Measure.seq, Measure.text, htwo, Nat.add_comm]
  next h1 h2 h3 =>
    have hmiss : ∀ s : String, (∀ r, cs ≠ s.toList ++ r) → Measure.text s cs = none := by
      intro s hs
      rw [Measure.text, if_neg]
      intro hstarts
      obtain ⟨r, hr⟩ := List.isPrefixOf_iff_prefix.mp hstarts
      exact hs r hr.symm
    simp [Measure.or, Measure.seq, hmiss "%" h1, hmiss "//" h2, hmiss "/*" h3]

theorem closeLength?_le (h : closeLength? cs = some k) : k ≤ cs.length := by
  fun_induction closeLength? cs generalizing k with
  | case1 => cases h
  | case2 cs =>
    cases h
    simp
  | case3 c cs _ ih =>
    obtain ⟨n, hn, rfl⟩ := Option.map_eq_some_iff.mp h
    exact Nat.succ_le_succ (ih hn)

theorem commentLength?_le (h : commentLength? cs = some k) : 0 < k ∧ k ≤ cs.length := by
  have hline : ∀ cs : List Char, (cs.takeWhile inLine).length ≤ cs.length :=
    fun cs => (List.takeWhile_prefix _).length_le
  unfold commentLength? at h
  split at h
  next cs =>
    cases h
    simp [hline cs]
  next cs =>
    cases h
    simp [hline cs]
  next cs =>
    obtain ⟨n, hn, rfl⟩ := Option.map_eq_some_iff.mp h
    simp [closeLength?_le hn]
  next => cases h

def remarkLength? : Measure := Measure.seq commentLength? fun cs =>
  some (cs.takeWhile isBlank).length

theorem advances_remark : remarkLength?.Advances := by
  intro cs n h
  obtain ⟨k, hk, hn⟩ := Option.bind_eq_some_iff.mp h
  have hle := commentLength?_le hk
  have hblanks : ((cs.drop k).takeWhile isBlank).length ≤ (cs.drop k).length :=
    (List.takeWhile_prefix _).length_le
  rw [List.length_drop] at hblanks
  simp only [Option.map_some, Option.some.injEq] at hn
  omega

theorem head?_after_blanks (cs : List Char) :
    ∀ x ∈ (cs.drop (cs.takeWhile isBlank).length).head?, isBlank x = false := by
  obtain ⟨r, hr, hhead⟩ := exists_takeWhile isBlank cs
  have hdrop : (cs.takeWhile isBlank ++ r).drop (cs.takeWhile isBlank).length = r := List.drop_left
  rw [← hr] at hdrop
  rwa [hdrop]

theorem many_remarks (h : ∀ x ∈ cs.head?, isBlank x = false) :
    remarkLength?.many cs = blankLength cs := by
  induction hn : cs.length using Nat.strongRecOn generalizing cs with
  | ind n ih =>
    cases hk : commentLength? cs with
    | none =>
      rw [Measure.many_of_none (by simp [remarkLength?, Measure.seq, hk]), blankLength_other hk h]
    | some k =>
      have hle := commentLength?_le hk
      have hone : remarkLength? cs = some (k + ((cs.drop k).takeWhile isBlank).length) := by
        simp [remarkLength?, Measure.seq, hk]
      rw [Measure.many_of_some advances_remark hone, blankLength_comment hk,
        blankLength_blanks (cs.drop k), ← List.drop_drop,
        ih _ ?_ (head?_after_blanks _) rfl, Nat.add_assoc]
      simp only [List.length_drop]
      omega

/-- What is passed between two parts is what the readers pass as blank. -/
theorem silent_gap : Silent .atomic .gap fun cs => some (blankLength cs) := by
  have hremark : Silent .atomic (.seq (.call .comment) (.star (.call .whitespace))) remarkLength? :=
    silent_comment.seq (by decide) silent_blanks
  refine (silent_blanks.seq (by decide) (hremark.star (by decide) advances_remark)).congr fun cs =>
    ?_
  have hmany := many_remarks (head?_after_blanks cs)
  simp [Measure.seq, Measure.star, hmany, ← blankLength_blanks]

end Gaps

section Malformed

def strayStep : Measure := Measure.or stringLength? (Measure.or floatLength? (.one (· ≠ '.')))

variable {cs : List Char}

theorem length_le_of_tokenAt {n : Nat} (h : TokenAt cs n) : n ≤ cs.length := by
  obtain ⟨t, r, rfl, _, _, rfl⟩ := h
  simp

theorem strayStep_eq_some {k : Nat} (h : strayStep cs = some k) :
    stretch cs = k + stretch (cs.drop k) ∧ 0 < k ∧ k ≤ cs.length := by
  rcases Option.or_eq_some_iff.mp h with hstring | ⟨hstring, h⟩
  · have htoken := tokenAt_of_stringLength? hstring
    exact ⟨stretch_string hstring, length_of_tokenAt htoken, length_le_of_tokenAt htoken⟩
  rcases Option.or_eq_some_iff.mp h with hfloat | ⟨hfloat, h⟩
  · have htoken := tokenAt_of_floatLength? hfloat
    exact ⟨stretch_float hstring hfloat, length_of_tokenAt htoken, length_le_of_tokenAt htoken⟩
  cases cs with
  | nil => cases h
  | cons x xs =>
    simp only [Measure.one, decide_eq_true_eq, Option.ite_none_right_eq_some,
      Option.some.injEq] at h
    obtain ⟨hx, rfl⟩ := h
    exact ⟨stretch_cons hstring hfloat hx, by simp⟩

theorem strayStep_eq_none (h : strayStep cs = none) : cs = [] ∨ ∃ r, cs = '.' :: r := by
  simp only [strayStep, Measure.or, Option.or_eq_none_iff] at h
  cases cs with
  | nil => exact .inl rfl
  | cons x xs =>
    by_cases hx : x = '.'
    · exact .inr ⟨xs, by rw [hx]⟩
    · simp [Measure.one, hx] at h

theorem advances_strayStep : strayStep.Advances := fun _ _ h => (strayStep_eq_some h).2

/-- A malformed statement goes on to its point, if it has one. -/
theorem stretch_eq (cs : List Char) :
    stretch cs = strayStep.many cs + if (cs.drop (strayStep.many cs)).isEmpty then 0 else 1 := by
  induction hn : cs.length using Nat.strongRecOn generalizing cs with
  | ind n ih =>
    cases hk : strayStep cs with
    | none =>
      rw [Measure.many_of_none hk]
      rcases strayStep_eq_none hk with rfl | ⟨r, rfl⟩
      · rfl
      · simp [stretch_point]
    | some k =>
      obtain ⟨hstretch, hpos, hle⟩ := strayStep_eq_some hk
      rw [hstretch, Measure.many_of_some advances_strayStep hk,
        ih _ (by rw [List.length_drop]; omega) _ rfl, List.drop_drop, Nat.add_assoc]

theorem strayStep_after (cs : List Char) : strayStep (cs.drop (strayStep.many cs)) = none := by
  induction hn : cs.length using Nat.strongRecOn generalizing cs with
  | ind n ih =>
    cases hk : strayStep cs with
    | none => rw [Measure.many_of_none hk]; exact hk
    | some k =>
      obtain ⟨_, hpos, hle⟩ := strayStep_eq_some hk
      rw [Measure.many_of_some advances_strayStep hk, ← List.drop_drop]
      exact ih _ (by rw [List.length_drop]; omega) _ rfl

theorem takes_eoi :
    Takes .atomic (.call .eoi) (fun cs => if cs.isEmpty then some 0 else none) fun _ => True := by
  refine Takes.call (fun p => ?_) rfl
  cases hrest : p.rest with
  | nil => exact ⟨_, .stop_hit hrest, .some ⟨p.advance_zero.symm, by simp⟩⟩
  | cons x xs => exact ⟨_, .stop_miss (by simp [hrest]), .none⟩

theorem takes_stray :
    Takes .atomic
    (.choice (.call .string) (.choice (.call .float) (.seq (.absent (.text ".")) .any)))
    strayStep fun _ => True := by
  have hstring : Takes .atomic (.call .string) stringLength? fun _ => True := by
    intro p
    obtain ⟨o, ho, hrel⟩ := matches_string p
    refine ⟨_, .call ho, ?_⟩
    generalize stringLength? p.rest = k at hrel
    cases hrel with
    | none => exact .none
    | some hx => exact .some ⟨hx.1, by simp⟩
  have hfloat : Takes .atomic (.call .float) floatLength? fun _ => True :=
    (Takes.call (m := .atomic) (r := .float) silent_float rfl).imp fun _ h => h.elim
  have hany : Takes .atomic .any (.one fun _ => true) fun _ => True := takes_one _
  have hpoint : Silent .atomic (.text ".") (.one (· = '.')) :=
    (takes_text ".").congr fun cs => by rw [Measure.text_one '.' "." rfl]
  have hother : Takes .atomic (.seq (.absent (.text ".")) .any) (.one (· ≠ '.')) fun _ => True := by
    refine (hpoint.absent.seq (by decide) hany).congr fun cs => ?_
    cases cs with
    | nil => rfl
    | cons x xs => by_cases hx : x = '.' <;> simp [Measure.seq, Measure.absent, Measure.one, hx]
  exact hstring.choice (hfloat.choice hother)

theorem takes_catchAll :
    Takes .atomic (Rule.body .catchAll) (fun cs => if cs.isEmpty then none else some (stretch cs))
    fun _ => True := by
  have hend : Takes .atomic (.choice (.text ".") (.present (.call .eoi)))
      (Measure.or (.one (· = '.')) (Measure.present fun cs => if cs.isEmpty then some 0
      else none)) fun _ => True :=
    ((takes_text ".").congr fun cs => by rw [Measure.text_one '.' "." rfl]).choice takes_eoi.present
  have hplus := takes_stray.seq (by decide) (takes_stray.star (by decide) advances_strayStep)
  refine ((hplus.seq (by decide) hend).choice (takes_text ".")).congr fun cs => ?_
  rw [Measure.text_one '.' "." rfl]
  cases hk : strayStep cs with
  | none =>
    rcases strayStep_eq_none hk with rfl | ⟨r, rfl⟩
    · simp [Measure.or, Measure.seq, Measure.one, hk]
    · simp [Measure.or, Measure.seq, Measure.one, hk, stretch_point]
  | some k =>
    have hmany := Measure.many_of_some advances_strayStep hk
    have hplus : strayStep.seq strayStep.star cs = some (strayStep.many cs) := by
      simp [Measure.seq, Measure.star, hk, hmany]
    have hne : cs.isEmpty = false := by
      have hle := (strayStep_eq_some hk).2
      cases cs with
      | nil => simp at hle; omega
      | cons x xs => rfl
    have hstretch := stretch_eq cs
    rcases strayStep_eq_none (strayStep_after cs) with hnil | ⟨r, hr⟩
    · simp [Measure.or, Measure.seq_of_some hplus, Measure.one,
        Measure.present, hne, hstretch, hnil]
    · simp [Measure.or, Measure.seq_of_some hplus, Measure.one, hne, hstretch, hr]

end Malformed

end GraphRules.Grammar
