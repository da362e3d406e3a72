import GraphRules.Proofs.Pieces
import Mathlib.Data.List.TakeDrop

/-! Decimals as text and as binary numbers. -/
namespace GraphRules

open Script (isDigits minus Undigited)

section Reading

theorem toLower_of_isDigit {d : Char} (h : d.isDigit) : d.toLower = d := by
  have hd : ¬ (d.val ≥ 'A'.val ∧ d.val ≤ 'Z'.val) := by
    simp [Char.isDigit, UInt32.le_iff_toNat_le] at *
    omega
  exact dif_neg hd

variable {ds : List Char}

theorem lower_ne (h : isDigits ds) (cs : List Char) {s : String}
    (hs : s.toList.head?.all (!·.isDigit)) : String.ofList (Text.lower (ds ++ cs)) ≠ s := by
  obtain ⟨d, ds, rfl, hd⟩ := Script.isDigits_cons h
  rintro rfl
  simp [Text.lower, toLower_of_isDigit hd, hd] at hs

theorem splitDigits_append {r : List Char} (hd : ∀ c ∈ ds, c.isDigit) (hr : Undigited r) :
    splitDigits (ds ++ r) = (ds, r) := by
  rw [splitDigits, List.span_eq_takeWhile_dropWhile, Script.takeWhile_closed hd hr,
    Script.dropWhile_closed hd hr]

theorem forall_isDigit (h : isDigits ds) : ∀ c ∈ ds, c.isDigit := by
  simp_all [isDigits]

theorem splitSign_minus (negative : Bool) (h : isDigits ds) (cs : List Char) :
    splitSign (minus negative ++ ds ++ cs) = (negative, ds ++ cs) := by
  obtain ⟨d, ds, rfl, hd⟩ := Script.isDigits_cons h
  cases negative with
  | true => rfl
  | false =>
    change splitSign (d :: (ds ++ cs)) = _
    unfold splitSign
    split
    next heq => cases heq; simp at hd
    next heq => cases heq; simp at hd
    next => rfl

theorem read?_decimal (negative : Bool) {es : List Char} (hd : isDigits ds) (he : isDigits es) :
    Binary64.read? (minus negative ++ ds ++ '.' :: es) =
      some (.ofDecimal negative (digitsValue (ds ++ es)) (-es.length)) := by
  have hne : ds ≠ [] := by
    rintro rfl
    cases hd
  have hfraction : splitDigits es = (es, []) := by
    have h := splitDigits_append (r := []) (forall_isDigit he) (by simp [Undigited])
    rwa [List.append_nil] at h
  have hwhole : splitDigits (ds ++ '.' :: es) = (ds, '.' :: es) :=
    splitDigits_append (forall_isDigit hd) (by simp [Undigited])
  simp only [Binary64.read?, splitSign_minus negative hd]
  split
  · exact (lower_ne hd _ (s := "inf") (by decide) ‹_›).elim
  · exact (lower_ne hd _ (s := "infinity") (by decide) ‹_›).elim
  · exact (lower_ne hd _ (s := "nan") (by decide) ‹_›).elim
  · simp [Binary64.readMagnitude?, hwhole, hfraction, hne, Binary64.readExponent?]

end Reading

end GraphRules
