import GraphRules.Proofs.ItemParts
import GraphRules.Script.Text

/-! Strings between quotes. What is written for a string is told from what is written for any other,
whatever follows it, and reading comes to an end at its closing quote. But reading knows fewer
escapes than writing, so that it gives back the legible strings only. -/
namespace GraphRules

namespace Text

section Hexadecimal

variable {n : Nat}

theorem mem_toDigits {c : Char} (h : c ∈ Nat.toDigits 16 n) : ∃ d < 16, c = Nat.digitChar d := by
  induction n using Nat.strongRecOn with
  | _ n ih =>
    rw [Nat.toDigits_eq_if (by decide)] at h
    split_ifs at h with hn
    · exact ⟨n, hn, List.mem_singleton.mp h⟩
    · rcases List.mem_append.mp h with h | h
      · exact ih (n / 16) (by omega) h
      · exact ⟨n % 16, by omega, List.mem_singleton.mp h⟩

theorem digitChar_injective {d e : Nat} (hd : d < 16) (he : e < 16)
    (h : Nat.digitChar d = Nat.digitChar e) : d = e := by
  have hall : ∀ d < 16, ∀ e < 16, Nat.digitChar d = Nat.digitChar e → d = e := by decide
  exact hall d hd e he h

theorem toDigits_injective {m : Nat} (h : Nat.toDigits 16 n = Nat.toDigits 16 m) : n = m := by
  induction n using Nat.strongRecOn generalizing m with
  | _ n ih =>
    rw [Nat.toDigits_eq_if (by decide), Nat.toDigits_eq_if (n := m) (by decide)] at h
    split_ifs at h with hn hm hm
    · exact digitChar_injective hn hm (List.singleton_inj.mp h)
    · have hlen := congrArg List.length h
      simp at hlen
    · have hlen := congrArg List.length h
      simp at hlen
    · obtain ⟨hfront, hlast⟩ := List.append_inj' h rfl
      have hquot := ih (n / 16) (by omega) hfront
      have hrem := digitChar_injective (by omega) (by omega) (List.singleton_inj.mp hlast)
      omega

theorem toDigits_plain {c : Char} (h : c ∈ Nat.toDigits 16 n) :
    c ≠ '"' ∧ c ≠ '\\' ∧ c ≠ '\x7d' := by
  obtain ⟨d, hd, rfl⟩ := mem_toDigits h
  have hall : ∀ d < 16, Nat.digitChar d ≠ '"' ∧ Nat.digitChar d ≠ '\\' ∧
      Nat.digitChar d ≠ '\x7d' := by decide
  exact hall d hd

end Hexadecimal

def letters : List Char := ['0', 't', 'r', 'n', '"', '\\']

def meant (x : Char) : Char :=
  if x = '0' then '\x00' else if x = 't' then '\t' else if x = 'r' then '\r'
  else if x = 'n' then '\n' else x

/-- A character stands for itself, is written with a short escape or is written as its number. -/
theorem escape_forms (c : Char) : escape c = [c] ∧ c ≠ '"' ∧ c ≠ '\\' ∨
    (∃ x ∈ letters, escape c = ['\\', x] ∧ c = meant x) ∨ escape c = codePoint c := by
  by_cases hnull : c = '\x00'
  · exact .inr (.inl ⟨'0', by decide, by rw [hnull]; rfl, hnull⟩)
  by_cases htab : c = '\t'
  · exact .inr (.inl ⟨'t', by decide, by rw [htab]; rfl, htab⟩)
  by_cases hreturn : c = '\r'
  · exact .inr (.inl ⟨'r', by decide, by rw [hreturn]; rfl, hreturn⟩)
  by_cases hbreak : c = '\n'
  · exact .inr (.inl ⟨'n', by decide, by rw [hbreak]; rfl, hbreak⟩)
  by_cases hquote : c = '"'
  · exact .inr (.inl ⟨'"', by decide, by rw [hquote]; rfl, hquote⟩)
  by_cases hslash : c = '\\'
  · exact .inr (.inl ⟨'\\', by decide, by rw [hslash]; rfl, hslash⟩)
  rw [escape, if_neg hnull, if_neg htab, if_neg hreturn, if_neg hbreak,
    if_neg hquote, if_neg hslash]
  split_ifs
  · exact .inr (.inr rfl)
  · exact .inl ⟨rfl, hquote, hslash⟩

theorem codePoint_append (c : Char) (r : List Char) :
    codePoint c ++ r = '\\' :: 'u' :: '\x7b' :: (Nat.toDigits 16 c.toNat ++ '\x7d' :: r) := by
  simp [codePoint]

section Telling

variable {c d : Char} {r s cs ds : List Char}

theorem split_at_mark {x : Char} (hc : x ∉ cs) (hd : x ∉ ds) (h : cs ++ x :: r = ds ++ x :: s) :
    cs = ds ∧ r = s := by
  induction cs generalizing ds with
  | nil =>
    cases ds with
    | nil => exact ⟨rfl, (List.cons.inj h).2⟩
    | cons y ys => exact (hd (by rw [(List.cons.inj h).1]; exact List.mem_cons_self ..)).elim
  | cons y ys ih =>
    cases ds with
    | nil => exact (hc (by rw [← (List.cons.inj h).1]; exact List.mem_cons_self ..)).elim
    | cons z zs =>
      obtain ⟨rfl, htail⟩ := List.cons.inj h
      obtain ⟨rfl, hr⟩ :=
        ih (fun hm => hc (List.mem_cons_of_mem _ hm))
          (fun hm => hd (List.mem_cons_of_mem _ hm)) htail
      exact ⟨rfl, hr⟩

theorem codePoint_injective (h : codePoint c ++ r = codePoint d ++ s) : c = d ∧ r = s := by
  rw [codePoint_append, codePoint_append] at h
  simp only [List.cons.injEq, true_and] at h
  obtain ⟨hdigits, hr⟩ :=
    split_at_mark (fun hm => (toDigits_plain hm).2.2 rfl) (fun hm => (toDigits_plain hm).2.2 rfl) h
  exact ⟨Char.toNat_inj.mp (toDigits_injective hdigits), hr⟩

/-- What is written for a character shows the character and where it ends. -/
theorem escape_tells (h : escape c ++ r = escape d ++ s) : c = d ∧ r = s := by
  have hu : 'u' ∉ letters := by decide
  rcases escape_forms c with ⟨hc, _, hslash⟩ | ⟨x, hx, hc, hmeant⟩ | hc <;>
    rcases escape_forms d with ⟨hd, _, hslash'⟩ | ⟨y, hy, hd, hmeant'⟩ | hd <;> rw [hc, hd] at h
  · simpa using h
  · exact (hslash (List.cons.inj h).1).elim
  · exact (hslash (List.cons.inj h).1).elim
  · exact (hslash' (List.cons.inj h).1.symm).elim
  · simp only [List.cons_append, List.nil_append, List.cons.injEq, true_and] at h
    exact ⟨by rw [hmeant, hmeant', h.1], h.2⟩
  · rw [codePoint_append] at h
    exact (hu ((List.cons.inj (List.cons.inj h).2).1 ▸ hx)).elim
  · exact (hslash' (List.cons.inj h).1.symm).elim
  · rw [codePoint_append] at h
    exact (hu ((List.cons.inj (List.cons.inj h).2).1 ▸ hy)).elim
  · exact codePoint_injective h

theorem escape_head (c : Char) : ∃ x xs, escape c = x :: xs ∧ x ≠ '"' := by
  rcases escape_forms c with ⟨hc, hquote, _⟩ | ⟨x, _, hc, _⟩ | hc
  · exact ⟨c, [], hc, hquote⟩
  · exact ⟨'\\', [x], hc, by decide⟩
  · exact ⟨'\\', _, hc, by decide⟩

theorem encode_tells (h : encode cs ++ '"' :: r = encode ds ++ '"' :: s) : cs = ds ∧ r = s := by
  induction cs generalizing ds with
  | nil =>
    cases ds with
    | nil => exact ⟨rfl, (List.cons.inj h).2⟩
    | cons d ds =>
      obtain ⟨x, xs, hx, hquote⟩ := escape_head d
      rw [encode, encode, List.flatMap_cons, hx] at h
      exact (hquote (List.cons.inj h).1.symm).elim
  | cons c cs ih =>
    cases ds with
    | nil =>
      obtain ⟨x, xs, hx, hquote⟩ := escape_head c
      rw [encode, encode, List.flatMap_cons, hx] at h
      exact (hquote (List.cons.inj h).1).elim
    | cons d ds =>
      rw [encode, encode, List.flatMap_cons, List.flatMap_cons, List.append_assoc,
        List.append_assoc] at h
      obtain ⟨rfl, hrest⟩ := escape_tells h
      obtain ⟨rfl, hr⟩ := ih hrest
      exact ⟨rfl, hr⟩

end Telling

def heard (c : Char) : List Char := decode (escape c)

/-- Characters that stand for themselves between quotes, or are written with one of the escapes that
reading knows. -/
def isShown (c : Char) : Bool :=
  escape c ∈ [[c], ['\\', '"'], ['\\', '\\'], ['\\', 'n'], ['\\', 't']]

def isLegible (s : String) : Bool := s.toList.all isShown

section Hearing

variable {cs : List Char}

theorem decode_plain_append (h : ∀ x ∈ cs, x ≠ '\\') (r : List Char) :
    decode (cs ++ r) = cs ++ decode r := by
  induction cs with
  | nil => rfl
  | cons x xs ih =>
    have hx : x ≠ '\\' := h x (List.mem_cons_self ..)
    rw [List.cons_append, decode, ih fun y hy => h y (List.mem_cons_of_mem _ hy), List.cons_append]
    · rintro rfl
      exact fun _ => hx rfl
    · rintro _ _ rfl
      exact fun _ => hx rfl

theorem isInner_plain_append (h : ∀ x ∈ cs, x ≠ '"' ∧ x ≠ '\\') (r : List Char) :
    Script.isInner (cs ++ r) = Script.isInner r := by
  induction cs with
  | nil => rfl
  | cons x xs ih =>
    obtain ⟨hquote, hslash⟩ := h x (List.mem_cons_self ..)
    rw [List.cons_append, Script.isInner, ih fun y hy => h y (List.mem_cons_of_mem _ hy)]
    all_goals simp_all

theorem braced_plain (c : Char) :
    ∀ x ∈ '\x7b' :: (Nat.toDigits 16 c.toNat ++ ['\x7d']), x ≠ '"' ∧ x ≠ '\\' := by
  intro x hx
  rcases List.mem_cons.mp hx with rfl | hx
  · decide
  rcases List.mem_append.mp hx with hx | hx
  · exact ⟨(toDigits_plain hx).1, (toDigits_plain hx).2.1⟩
  · rw [List.mem_singleton.mp hx]
    decide

theorem codePoint_eq (c : Char) :
    codePoint c = '\\' :: 'u' :: '\x7b' :: (Nat.toDigits 16 c.toNat ++ ['\x7d']) := by
  simp [codePoint]

theorem heard_of_codePoint {c : Char} (h : escape c = codePoint c) :
    heard c = 'u' :: '\x7b' :: (Nat.toDigits 16 c.toNat ++ ['\x7d']) := by
  have hplain := decode_plain_append (fun x hx => (braced_plain c x hx).2) []
  rw [List.append_nil, decode, List.append_nil] at hplain
  rw [heard, h, codePoint_eq]
  exact congrArg ('u' :: ·) hplain

/-- What is written for a character is read without what follows, and does not end a string. -/
theorem decode_escape (c : Char) (r : List Char) :
    decode (escape c ++ r) = heard c ++ decode r ∧
      Script.isInner (escape c ++ r) = Script.isInner r := by
  rcases escape_forms c with ⟨hc, hquote, hslash⟩ | ⟨x, _, hc, _⟩ | hc
  · have hplain : ∀ x ∈ [c], x ≠ '"' ∧ x ≠ '\\' := by simpa using ⟨hquote, hslash⟩
    have halone := decode_plain_append (fun x hx => (hplain x hx).2) []
    rw [List.append_nil, decode, List.append_nil] at halone
    rw [heard, hc, halone]
    exact ⟨decode_plain_append (fun x hx => (hplain x hx).2) r, isInner_plain_append hplain r⟩
  · rw [heard, hc]
    exact ⟨rfl, rfl⟩
  · have hdecode := decode_plain_append (fun x hx => (braced_plain c x hx).2) r
    have hinner := isInner_plain_append (braced_plain c) r
    rw [heard_of_codePoint hc, hc, codePoint_eq]
    exact ⟨congrArg ('u' :: ·) hdecode, hinner⟩

theorem decode_encode (cs : List Char) :
    decode (encode cs) = cs.flatMap heard ∧ Script.isInner (encode cs) := by
  induction cs with
  | nil => exact ⟨rfl, rfl⟩
  | cons c cs ih =>
    obtain ⟨hdecode, hinner⟩ := decode_escape c (encode cs)
    have hencode : encode (c :: cs) = escape c ++ encode cs := List.flatMap_cons
    rw [hencode, hdecode, hinner, ih.1, List.flatMap_cons]
    exact ⟨rfl, ih.2⟩

theorem heard_eq_iff (c : Char) : heard c = [c] ↔ isShown c := by
  rcases escape_forms c with ⟨hc, hquote, hslash⟩ | ⟨x, hx, hc, hmeant⟩ | hc
  · rw [heard, isShown, hc, decode]
    · simp [decode]
    · exact fun h => (hslash h).elim
    · exact fun _ _ h => (hslash h).elim
  · have hall : letters.all fun x => decide (heard (meant x) = [meant x]) = isShown (meant x) := by
      decide
    rw [hmeant, ← of_decide_eq_true (List.all_eq_true.mp hall x hx), decide_eq_true_iff]
  · rw [heard_of_codePoint hc, isShown, hc]
    simp [codePoint]

theorem heard_length_pos (c : Char) : 0 < (heard c).length := by
  rcases escape_forms c with ⟨hc, _, hslash⟩ | ⟨x, _, hc, _⟩ | hc
  · have halone := decode_plain_append (show ∀ x ∈ [c], x ≠ '\\' by simpa using hslash) []
    rw [heard, hc, show [c] = [c] ++ [] from rfl, halone]
    simp
  · rw [heard, hc]
    exact Nat.one_pos
  · rw [heard_of_codePoint hc]
    exact Nat.succ_pos _

theorem length_le_heard (cs : List Char) : cs.length ≤ (cs.flatMap heard).length := by
  induction cs with
  | nil => exact Nat.le_refl _
  | cons c cs ih =>
    have hpos := heard_length_pos c
    rw [List.flatMap_cons, List.length_append, List.length_cons]
    omega

/-- A text is heard as itself only if each of its characters is: no character is heard as nothing.
-/
theorem flatMap_heard_eq_iff (cs : List Char) :
    cs.flatMap heard = cs ↔ ∀ c ∈ cs, heard c = [c] := by
  induction cs with
  | nil => simp
  | cons c cs ih =>
    rw [List.forall_mem_cons, List.flatMap_cons, ← ih]
    constructor
    · intro h
      have hlen := congrArg List.length h
      have hpos := heard_length_pos c
      have hrest := length_le_heard cs
      rw [List.length_append, List.length_cons] at hlen
      obtain ⟨x, hx⟩ := List.length_eq_one_iff.mp (show (heard c).length = 1 by omega)
      rw [hx, List.singleton_append] at h
      obtain ⟨rfl, htail⟩ := List.cons.inj h
      exact ⟨hx, htail⟩
    · rintro ⟨hc, hcs⟩
      rw [hc, hcs, List.singleton_append]

end Hearing

/-- A string between its quotes is a token, and that token stands for what is heard. -/
theorem quote_token (s : String) : ∃ t : Script.Token, t.isSpelled ∧ t.text = (quote s).toList ∧
    t.string? = some (String.ofList (s.toList.flatMap heard)) ∧
    t.arg? = some (.quoted (String.ofList (s.toList.flatMap heard))) := by
  obtain ⟨hdecode, hinner⟩ := decode_encode s.toList
  refine ⟨.quoted (encode s.toList), hinner, by simp [Script.Token.text, quote], ?_, ?_⟩
  · rw [← hdecode]
    rfl
  · rw [← hdecode]
    rfl

theorem heard_eq_of_legible {s : String} (h : isLegible s) :
    String.ofList (s.toList.flatMap heard) = s := by
  have hall : ∀ c ∈ s.toList, heard c = [c] :=
    fun c hc => (heard_eq_iff c).mpr (List.all_eq_true.mp h c hc)
  rw [(flatMap_heard_eq_iff s.toList).mpr hall, String.ofList_toList]

end Text

namespace Script

theorem stringValue_quote (s : String) :
    stringValue (Text.quote s) = String.ofList (s.toList.flatMap Text.heard) := by
  rw [← (Text.decode_encode s.toList).1, stringValue, Text.quote, String.toList_ofList]
  simp

/-- The text of a string is read to its closing quote, whatever follows, and gives back just the
legible strings. -/
theorem quoted_text_reads_back (s : String) (r : List Char) :
    stringLength? ((Text.quote s).toList ++ r) = some (Text.quote s).length ∧
      (stringValue (Text.quote s) = s ↔ Text.isLegible s) := by
  constructor
  · rw [← String.length_toList, Text.quote, String.toList_ofList,
      List.append_assoc, List.singleton_append,
      stringLength?_append (Text.decode_encode s.toList).2]
    simp
  · rw [stringValue_quote, ← String.toList_inj, String.toList_ofList,
      Text.flatMap_heard_eq_iff, Text.isLegible, List.all_eq_true]
    exact forall₂_congr fun c _ => Text.heard_eq_iff c

/-- A carriage return in a string of a script is read back as a letter. -/
theorem carriage_return_lost :
    (parse "size(\"\r\").").toOption.any
      (fun script => script.items.any fun i => i.args.any (·.kind = .quoted "\r")) ∧
      Text.quote "\r" = "\"\\r\"" ∧ stringValue (Text.quote "\r") = "r" := by
  decide +kernel

end Script

end GraphRules
