import GraphRules.Proofs.CanonicalItems
import GraphRules.Proofs.Numerals

/-! What texts tell about arguments, lists and calls. Words and numbers are runs of the same
characters, so a run ends where any other character stands, and strings end at their quotes. A run
shows what it is the text of, but for one number: infinity looks like a symbol. -/
namespace GraphRules

open Script

namespace ArgKind

def shown : ArgKind → ArgKind
  | .float x => if x = .infinity false then .symbol "inf" else .float x
  | k => k

def ofRun? : List Char → Option ArgKind
  | [] => none
  | c :: cs =>
    if isWordStart c then (Token.word c cs).arg?
    else ((readWord? (c :: cs)).map .int).or ((Binary64.read? (c :: cs)).map .float)

end ArgKind

def Arg.shown (a : Arg) : Arg := ⟨a.kind.shown, default⟩

def Call.shown (c : Call) : Call := ⟨c.name, c.args.map Arg.shown, default⟩

def Comparison.shown (c : Comparison) : Comparison := ⟨c.op, c.left.shown, c.right.shown, default⟩

namespace Script

def isRunChar (c : Char) : Bool := isNameChar c || c = '-' || c = '.'

theorem isRunChar_of_isDigit {c : Char} (h : c.isDigit) :
    isRunChar c := by simp [isRunChar, isNameChar_of_isDigit h]

end Script

section Kinds

theorem Binary64.infinity_of_not_finite {x : Binary64} (hnan : x.isNaN = false)
    (hfinite : x.isFinite = false) : x = infinity x.isNegative := by
  have hlow := of_decide_eq_false hfinite
  have hhigh := of_decide_eq_false hnan
  have hpattern : x.pattern = infiniteBits := by omega
  rw [infinity, ← hpattern, withSign_pattern]

theorem Binary64.render_infinity (negative : Bool) :
    (Layout.script.render (infinity negative)).toList = minus negative ++ ['i', 'n', 'f'] := by
  cases negative <;> rfl

variable {negative : Bool} {ds r : List Char}

theorem ArgKind.ofRun?_number (h : isDigits ds) (r : List Char) :
    ofRun? (minus negative ++ ds ++ r) = ((readWord? (minus negative ++ ds ++ r)).map .int).or
      ((Binary64.read? (minus negative ++ ds ++ r)).map .float) := by
  obtain ⟨d, ds, rfl, hd⟩ := isDigits_cons h
  cases negative with
  | true => rfl
  | false =>
    have hstart : isWordStart d = false := by
      by_contra hstart
      rw [isDigit_of_isWordStart (by simpa using hstart)] at hd
      cases hd
    change (if isWordStart d then _ else _) = _
    rw [if_neg (by simp [hstart])]
    rfl

theorem readWord?_marked (h : isDigits ds) (hmark : r.any fun c => c = '.' || c = 'e') :
    readWord? (minus negative ++ ds ++ r) = none := by
  have hall : (ds ++ r).all Char.isDigit = false := by
    rw [← Bool.not_eq_true, List.all_eq_true]
    obtain ⟨c, hc, hmark⟩ := List.any_eq_true.mp hmark
    intro hdigits
    have hdigit := hdigits c (List.mem_append_right _ hc)
    rcases Bool.or_eq_true_iff.mp hmark with h | h <;> rw [of_decide_eq_true h]
      at hdigit <;> cases hdigit
  simp only [readWord?, splitSign_minus negative h, hall]
  simp

theorem isNameChar_of_isWordStart {c : Char} (h : isWordStart c) : isNameChar c := by
  rcases Bool.or_eq_true_iff.mp h with h | h
  · exact isNameChar_of_isLower h
  · rcases Bool.or_eq_true_iff.mp h with h | h
    · have halpha : c.isAlphanum = (c.isUpper || c.isLower || c.isDigit) := rfl
      simp [isNameChar, halpha, h]
    · simp [isNameChar, of_decide_eq_true h]

namespace ArgKind.Spelled

variable {k k' : ArgKind}

theorem run_word {c : Char} {cs : List Char} (ht : (Token.word c cs).isSpelled)
    (hk : (Token.word c cs).arg? = some k) :
    k.text.toList.all isRunChar ∧ ofRun? k.text.toList = some k.shown := by
  obtain ⟨hc, hcs⟩ := Bool.and_eq_true_iff.mp ht
  rw [text_of_word hk]
  constructor
  · have hname : ∀ x ∈ c :: cs, isNameChar x :=
      List.forall_mem_cons.mpr ⟨isNameChar_of_isWordStart hc, List.all_eq_true.mp hcs⟩
    exact List.all_eq_true.mpr fun x hx => by simp [isRunChar, hname x hx]
  · rw [ofRun?, if_pos hc, hk]
    rw [Token.arg?] at hk
    split_ifs at hk <;> cases hk <;> rfl

theorem run_int {n : Int} (h : fitsWord n) :
    (ArgKind.int n).text.toList.all isRunChar ∧
      ofRun? (ArgKind.int n).text.toList = some (.int n) := by
  have hdigits := isDigits_of_forall (toDigits_ne_nil n.natAbs) (forall_toDigits n.natAbs)
  have htext : (ArgKind.int n).text.toList = minus (decide (n < 0)) ++
      Nat.toDigits 10 n.natAbs ++ [] := by
    rw [List.append_nil]
    exact toString_int n
  have hvalue : signed (decide (n < 0)) (digitsValue (Nat.toDigits 10 n.natAbs ++ [])) = n := by
    have hvalue := intValue_toString n
    rwa [intValue, toString_int, ← List.append_nil (_ ++ _), splitSign_minus _ hdigits] at hvalue
  rw [htext]
  constructor
  · rw [List.append_nil, List.all_append, Bool.and_eq_true]
    refine ⟨by cases decide (n < 0) <;> rfl, List.all_eq_true.mpr fun c hc => ?_⟩
    exact isRunChar_of_isDigit (forall_toDigits _ c hc)
  · rw [ofRun?_number hdigits]
    have hread : readWord? (minus (decide (n < 0)) ++ Nat.toDigits 10 n.natAbs ++ []) = some n := by
      simp only [readWord?, splitSign_minus _ hdigits, hvalue, h]
      simpa using forall_toDigits n.natAbs
    rw [hread]
    rfl

theorem run_float {x : Binary64} (h : x.isNaN = false) :
    (ArgKind.float x).text.toList.all isRunChar ∧
      ofRun? (ArgKind.float x).text.toList = some (ArgKind.float x).shown := by
  cases hfinite : x.isFinite with
  | true =>
    obtain ⟨n, hn, htext, hvalue⟩ := Binary64.render_numeral hfinite
    have hne : x ≠ .infinity false := by
      rintro rfl
      revert hfinite
      decide
    rw [ArgKind.text, htext, shown, if_neg hne]
    constructor
    · have hchars : ∀ c ∈ n.text, Numeral.isChar c := by
        intro c hc
        rcases List.mem_append.mp hc with hc | hc
        · rcases List.mem_append.mp hc with hc | hc
          · exact Numeral.isChar_minus _ c hc
          · exact Numeral.isChar_of_isDigit (forall_isDigit hn.whole c hc)
        · exact Numeral.isChar_suffix hn c hc
      refine List.all_eq_true.mpr fun c hc => ?_
      have hchar := hchars c hc
      simp only [Numeral.isChar, Bool.or_eq_true, decide_eq_true_eq] at hchar
      rcases hchar with ((hdigit | rfl) | rfl) | rfl
      · exact isRunChar_of_isDigit hdigit
      · rfl
      · rfl
      · rfl
    · have hread := Numeral.read?_text hn
      rw [Numeral.text] at hread ⊢
      rw [ofRun?_number hn.whole, readWord?_marked hn.whole (Numeral.mark_suffix hn), hread, hvalue]
      rfl
  | false =>
    rw [Binary64.infinity_of_not_finite h hfinite, ArgKind.text, Binary64.render_infinity]
    cases x.isNegative with
    | false => exact ⟨rfl, rfl⟩
    | true => exact ⟨rfl, rfl⟩

/-- The text of an argument is a run that shows what it is, or a string in quotes. -/
theorem run_or_quoted (h : k.Spelled) :
    (k.text.toList.all isRunChar ∧ ofRun? k.text.toList = some k.shown) ∨ ∃ s, k = .quoted s := by
  obtain ⟨t, ht, hk⟩ := h.token
  cases t with
  | word c cs => exact .inl (run_word ht hk)
  | integer negative ds =>
    obtain ⟨n, rfl⟩ : ∃ n, k = .int n := ⟨_, (Option.some.inj hk).symm⟩
    exact .inl (run_int (h.fits n rfl))
  | float negative ds es =>
    obtain ⟨hds, hes⟩ := Bool.and_eq_true_iff.mp ht
    rw [Token.arg?, floatValue, String.toList_ofList, read?_decimal negative hds hes] at hk
    obtain rfl := Option.some.inj hk
    exact .inl (run_float (Binary64.isNaN_ofDecimal ..))
  | quoted inner => exact .inr ⟨_, (Option.some.inj hk).symm⟩
  | mark s => cases hk

end ArgKind.Spelled

end Kinds

namespace Script

inductive Opening (w : List Char) : Prop
  | run (h : w.all isRunChar)
  | quoted (s : String) (h : w = (Text.quote s).toList)

def Parted (r : List Char) : Prop := r = ['.'] ∨ ∃ c cs, r = c :: cs ∧ isRunChar c = false ∧ c ≠ '"'

section Openings

variable {w w' r s : List Char}

theorem toList_quote (s : String) (r : List Char) :
    (Text.quote s).toList ++ r = '"' :: (Text.encode s.toList ++ '"' :: r) := by simp [Text.quote]

theorem parted_open (r : List Char) : Parted ('(' :: r) := .inr ⟨'(', r, rfl, by decide, by decide⟩

theorem parted_space (r : List Char) : Parted (' ' :: r) := .inr ⟨' ', r, rfl, by decide, by decide⟩

theorem quote_injective {s u : String} (h : (Text.quote s).toList = (Text.quote u).toList) :
    s = u := by
  have happend : (Text.quote s).toList ++ [] = (Text.quote u).toList ++ [] := congrArg (· ++ []) h
  rw [toList_quote, toList_quote] at happend
  exact String.toList_inj.mp (Text.encode_tells (List.cons.inj happend).2).1

theorem Parted.ne_nil (h : Parted r) : r ≠ [] := by
  rintro rfl
  rcases h with h | ⟨c, cs, h, _⟩ <;> cases h

theorem Parted.head_ne_quote (h : Parted r) (cs : List Char) : r ≠ '"' :: cs := by
  rintro rfl
  rcases h with h | ⟨c, cs, h, _, hquote⟩ <;> cases h
  exact hquote rfl

/-- A run that goes on is not followed by the end of another. -/
theorem Parted.ne_run (h : Parted r) (hs : Parted s) {c : Char} (hc : isRunChar c) (w : List Char) :
    r ≠ c :: (w ++ s) := by
  rintro rfl
  rcases h with h | ⟨d, cs, h, hd, _⟩
  · obtain ⟨_, hnil⟩ := List.cons.inj h
    exact hs.ne_nil (List.append_eq_nil_iff.mp hnil).2
  · cases h
    rw [hc] at hd
    cases hd

theorem run_tells (hw : w.all isRunChar) (hw' : w'.all isRunChar) (hr : Parted r) (hs : Parted s)
    (h : w ++ r = w' ++ s) : w = w' ∧ r = s := by
  induction w generalizing w' with
  | nil =>
    cases w' with
    | nil => exact ⟨rfl, h⟩
    | cons c w' => exact (hr.ne_run hs (Bool.and_eq_true_iff.mp hw').1 w' h).elim
  | cons c w ih =>
    cases w' with
    | nil => exact (hs.ne_run hr (Bool.and_eq_true_iff.mp hw).1 w h.symm).elim
    | cons d w' =>
      obtain ⟨rfl, htail⟩ := List.cons.inj h
      obtain ⟨rfl, hrest⟩ := ih (Bool.and_eq_true_iff.mp hw).2 (Bool.and_eq_true_iff.mp hw').2 htail
      exact ⟨rfl, hrest⟩

theorem run_ne_quoted (hw : w.all isRunChar) (hr : Parted r) (t : String) :
    w ++ r ≠ (Text.quote t).toList ++ s := by
  rw [toList_quote]
  intro h
  cases w with
  | nil => exact hr.head_ne_quote _ h
  | cons c w =>
    obtain ⟨rfl, _⟩ := List.cons.inj h
    cases (Bool.and_eq_true_iff.mp hw).1

theorem Opening.tells (hw : Opening w) (hw' : Opening w') (hr : Parted r) (hs : Parted s)
    (h : w ++ r = w' ++ s) : w = w' ∧ r = s := by
  cases hw with
  | run hw =>
    cases hw' with
    | run hw' => exact run_tells hw hw' hr hs h
    | quoted t ht => exact (run_ne_quoted hw hr t (ht ▸ h)).elim
  | quoted t ht =>
    cases hw' with
    | run hw' => exact (run_ne_quoted hw' hs t (ht ▸ h.symm)).elim
    | quoted u hu =>
      subst ht hu
      rw [toList_quote, toList_quote] at h
      obtain ⟨heq, hrest⟩ := Text.encode_tells (List.cons.inj h).2
      exact ⟨by rw [String.toList_inj.mp heq], hrest⟩

end Openings

section Arguments

variable {k k' : ArgKind}

theorem opening_arg (h : k.Spelled) : Opening k.text.toList := by
  rcases h.run_or_quoted with ⟨hrun, _⟩ | ⟨s, rfl⟩
  · exact .run hrun
  · exact .quoted s rfl

theorem opening_name {n : String} (h : IsWord n) : Opening n.toList ∧ n.toList ≠ [] := by
  obtain ⟨c, cs, hn, hc, hcs⟩ := h
  rw [hn]
  refine ⟨.run (List.all_eq_true.mpr fun x hx => ?_), by simp⟩
  have hname : isNameChar x :=
    (List.mem_cons.mp hx).elim (fun h => h ▸ isNameChar_of_isLower hc) (List.all_eq_true.mp hcs x)
  simp [isRunChar, hname]

theorem shown_of_text (h : k.Spelled) (h' : k'.Spelled) (htext : k.text.toList = k'.text.toList) :
    k.shown = k'.shown := by
  have hquoted : ∀ {w : List Char} {s : String}, w.all isRunChar → w ≠ (Text.quote s).toList := by
    intro w s hw hs
    exact run_ne_quoted hw (.inl rfl) s (congrArg (· ++ ['.']) hs)
  rcases h.run_or_quoted with ⟨hrun, hk⟩ | ⟨s, rfl⟩
  · rcases h'.run_or_quoted with ⟨_, hk'⟩ | ⟨s, rfl⟩
    · exact Option.some.inj (hk.symm.trans (htext ▸ hk'))
    · exact (hquoted hrun htext).elim
  · rcases h'.run_or_quoted with ⟨hrun, _⟩ | ⟨u, rfl⟩
    · exact (hquoted hrun htext.symm).elim
    · rw [quote_injective htext]

end Arguments

/-- What may stand after a construct: the end of its item, an arrow, or one of some marks. -/
inductive Follows (S : List Char) : List Char → Prop
  | stop : Follows S ['.']
  | arrow (r : List Char) : Follows S (' ' :: '-' :: r)
  | mark {c : Char} (hc : c ∈ S) (r : List Char) : Follows S (c :: r)

def literalMarks : List Char := [',', ';', ')']

/-- The text of a thing shows how the thing looks and where it ends, among things with a property
and before texts with a property. -/
def Tells {α β : Type} (P : α → Prop) (F : List Char → Prop) (text : α → List Char) (view : α → β)
    (a : α) : Prop :=
  ∀ b r s, P b → F r → F s → text a ++ r = text b ++ s → view a = view b ∧ r = s

section Separated

variable {α β : Type} {P : α → Prop} {F : List Char → Prop} {text : α → List Char} {view : α → β}
  {S : List Char} {r s : List Char} {sep : Char} {xs : List α}

theorem Follows.mono {S' : List Char} (h : Follows S r) (hS : S ⊆ S') : Follows S' r := by
  cases h with
  | stop => exact .stop
  | arrow r => exact .arrow r
  | mark hc r => exact .mark (hS hc) r

theorem Follows.parted (h : Follows S r) (hS : S ⊆ '(' :: literalMarks) : Parted r := by
  have hmarks : ('(' :: literalMarks).all fun c => !isRunChar c && c ≠ '"' := by decide
  cases h with
  | stop => exact .inl rfl
  | arrow r => exact parted_space _
  | mark hc r =>
    have hmark := List.all_eq_true.mp hmarks _ (hS hc)
    simp only [Bool.and_eq_true, Bool.not_eq_true', decide_eq_true_eq] at hmark
    exact .inr ⟨_, _, rfl, hmark.1, hmark.2⟩

theorem Follows.ne_cons {c : Char} (h : Follows S r) (hc : c ∈ '(' :: literalMarks) (hS : c ∉ S)
    (cs : List Char) : r ≠ c :: cs := by
  rintro rfl
  cases h with
  | stop => exact absurd hc (by decide)
  | arrow r => exact absurd hc (by decide)
  | mark hmem r => exact hS hmem

theorem Follows.tail (h : Follows S r) (sep : Char) (text : α → List Char) (xs : List α) :
    Follows (sep :: S) (tailText sep text xs ++ r) := by
  cases xs with
  | nil => exact h.mono (List.subset_cons_self ..)
  | cons x xs =>
    rw [tailText_cons]
    exact .mark (List.mem_cons_self ..) _

theorem Tells.weaken {a : α} (h : Tells P F text view a) {F' : List Char → Prop}
    (hF : ∀ r, F' r → F r) : Tells P F' text view a :=
  fun b r s hb hr hs heq => h b r s hb (hF r hr) (hF s hs) heq

theorem tells_tail {ys : List α} (h : ∀ x ∈ xs, Tells P (Follows (sep :: S)) text view x)
    (hys : ∀ y ∈ ys, P y) (hsep : sep ∈ literalMarks) (hS : sep ∉ S) (hr : Follows S r)
    (hs : Follows S s) (heq : tailText sep text xs ++ r = tailText sep text ys ++ s) :
    xs.map view = ys.map view ∧ r = s := by
  have hmark := List.mem_cons_of_mem '(' hsep
  induction xs generalizing ys with
  | nil =>
    cases ys with
    | nil => exact ⟨rfl, heq⟩
    | cons y ys =>
      rw [tailText_cons] at heq
      exact (hr.ne_cons hmark hS _ heq).elim
  | cons x xs ih =>
    cases ys with
    | nil =>
      rw [tailText_cons] at heq
      exact (hs.ne_cons hmark hS _ heq.symm).elim
    | cons y ys =>
      rw [tailText_cons, tailText_cons] at heq
      obtain ⟨hview, htail⟩ :=
        h x (List.mem_cons_self ..) y _ _ (hys y (List.mem_cons_self ..)) (hr.tail sep text xs)
        (hs.tail sep text ys) (List.cons.inj (List.cons.inj heq).2).2
      obtain ⟨hviews, hrest⟩ := ih (fun z hz => h z (List.mem_cons_of_mem _ hz))
        (fun z hz => hys z (List.mem_cons_of_mem _ hz)) htail
      exact ⟨by rw [List.map_cons, List.map_cons, hview, hviews], hrest⟩

/-- Lists with a separator show their parts, if the separator follows every part but the last one.
-/
theorem tells_separated (spaced : String) {text : α → String}
    (hspaced : spaced.toList = [sep, ' ']) (hne : xs ≠ [])
    (h : ∀ x ∈ xs, Tells P (Follows (sep :: S)) (fun y => (text y).toList) view x)
    (hsep : sep ∈ literalMarks) (hS : sep ∉ S) :
    Tells (fun ys => ys ≠ [] ∧ ∀ y ∈ ys, P y) (Follows S) (fun ys =>
      (spaced.intercalate (ys.map text)).toList) (List.map view) xs := by
  rintro ys r s ⟨hne', hys⟩ hr hs heq
  obtain ⟨x, xs, rfl⟩ := List.exists_cons_of_ne_nil hne
  obtain ⟨y, ys, rfl⟩ := List.exists_cons_of_ne_nil hne'
  simp only [toList_intercalate spaced sep hspaced, List.append_assoc] at heq
  obtain ⟨hview, htail⟩ :=
    h x (List.mem_cons_self ..) y _ _ (hys y (List.mem_cons_self ..)) (hr.tail sep _ xs)
    (hs.tail sep _ ys) heq
  obtain ⟨hviews, hrest⟩ := tells_tail (fun z hz => h z (List.mem_cons_of_mem _ hz))
    (fun z hz => hys z (List.mem_cons_of_mem _ hz)) hsep hS hr hs htail
  exact ⟨by rw [List.map_cons, List.map_cons, hview, hviews], hrest⟩

end Separated

section Calls

variable {r s : List Char}

theorem tells_arg {a : Arg} (h : a.kind.Spelled) :
    Tells (fun b : Arg => b.kind.Spelled) Parted (fun b => b.text.toList) Arg.shown a := by
  intro b r s hb hr hs heq
  obtain ⟨htext, hrest⟩ := (opening_arg h).tells (opening_arg hb) hr hs heq
  exact ⟨by rw [Arg.shown, Arg.shown, shown_of_text h hb htext], hrest⟩

theorem tells_args {a : Arg} {as : List Arg} (h : ∀ b ∈ a :: as, b.kind.Spelled) :
    Tells (fun bs => bs ≠ [] ∧ ∀ b ∈ bs, b.kind.Spelled) (Follows [')'])
      (fun bs : List Arg => (", ".intercalate (bs.map Arg.text)).toList)
        (List.map Arg.shown) (a :: as) :=
  tells_separated ", " rfl (by simp) (fun b hb => (tells_arg (h b hb)).weaken fun r hr =>
    hr.parted (by decide))
    (by decide) (by decide)

theorem text_call (n : String) (a : Arg) (as : List Arg) (span : Span) (r : List Char) :
    (Call.mk n (a :: as) span).text.toList ++ r =
      n.toList ++ '(' :: ((", ".intercalate ((a :: as).map Arg.text)).toList ++ ')' :: r) := by
  simp [Call.text]

theorem tells_call {c : Call} (h : c.Made IsWord ArgKind.Spelled) :
    Tells (Call.Made IsWord ArgKind.Spelled) (Follows literalMarks)
      (fun d => d.text.toList) Call.shown c := by
  intro d r s hd hr hs heq
  obtain ⟨n, args, span⟩ := c
  obtain ⟨m, args', span'⟩ := d
  have hn := (opening_name h.name).1
  have hm := (opening_name hd.name).1
  have hr' := hr.parted (List.subset_cons_self ..)
  have hs' := hs.parted (List.subset_cons_self ..)
  cases args with
  | nil =>
    cases args' with
    | nil =>
      obtain ⟨hname, hrest⟩ := hn.tells hm hr' hs' heq
      exact ⟨by rw [Call.shown, String.toList_inj.mp hname]; rfl, hrest⟩
    | cons b bs =>
      dsimp only at heq
      rw [text_call] at heq
      obtain ⟨_, hrest⟩ := hn.tells hm hr' (parted_open _) heq
      exact (hr.ne_cons (List.mem_cons_self ..) (by decide) _ hrest).elim
  | cons a as =>
    cases args' with
    | nil =>
      dsimp only at heq
      rw [text_call] at heq
      obtain ⟨_, hrest⟩ := hn.tells hm (parted_open _) hs' heq
      exact (hs.ne_cons (List.mem_cons_self ..) (by decide) _ hrest.symm).elim
    | cons b bs =>
      dsimp only at heq
      rw [text_call, text_call] at heq
      obtain ⟨hname, hrest⟩ := hn.tells hm (parted_open _) (parted_open _) heq
      obtain ⟨hargs, hend⟩ :=
        tells_args h.args _ _ _ ⟨by simp, hd.args⟩ (.mark (List.mem_singleton_self _) r)
        (.mark (List.mem_singleton_self _) s) (List.cons.inj hrest).2
      exact ⟨by rw [Call.shown, Call.shown, String.toList_inj.mp hname, hargs],
        (List.cons.inj hend).2⟩

end Calls

end Script

end GraphRules
