import GraphRules.Proofs.Agreement

/-! Readers run side by side. Where the scans of one text find the same as the scans of another, the
readers find the same all the way up to items, and related cursors stay related. This is what
carries over a run to a text that stands elsewhere and to a text that goes on differently. -/
namespace GraphRules.Script

variable {α β γ ε : Type}

/-- From related cursors both readers fail or both go on. The second then gives the image of what
the first gives, the cursors are related again, and each has passed at least `k` characters. -/
def InStep (k : Nat) (R S : Cursor → Cursor → Prop) (g : α → β) (p : Reader α) (q : Reader β) :
    Prop :=
  ∀ c d, R c d → Option.Rel (fun x y => y.1 = g x.1 ∧ S x.2 y.2 ∧
    x.2.rest.length + k ≤ c.rest.length ∧ y.2.rest.length + k ≤ d.rest.length) (p c) (q d)

theorem inStep_iff {k : Nat} {R S : Cursor → Cursor → Prop} {g : α → β} {p : Reader α}
    {q : Reader β} : InStep k R S g p q ↔ Agree k R S g id p q := Iff.rfl

section Combinators

variable {k : Nat} {R S T : Cursor → Cursor → Prop} {g : α → β} {p : Reader α} {q : Reader β}

theorem InStep.bind {g' : γ → ε} {f : α → Reader γ} {f' : β → Reader ε} (h : InStep 0 R S g p q)
    (hf : ∀ a, InStep k S T g' (f a) (f' (g a))) : InStep k R T g' (p >>= f) (q >>= f') := by
  refine inStep_iff.mpr (Agree.bind (inStep_iff.mp h) ?_)
  rintro a _ rfl
  exact inStep_iff.mp (hf a)

theorem InStep.spanned {δ : Displacement} (hR : ∀ {c d}, R c d → d.place = c.place.shift δ)
    (hS : ∀ {c d}, S c d → d.place = c.place.shift δ) (h : InStep k R S g p q) :
    InStep k R S (Prod.map g (Span.shift δ)) (spanned p) (spanned q) := by
  have hspan : ∀ {c d c' d'}, R c d → S c' d' →
      id (Span.between d.place d'.place) = (Span.between c.place c'.place).shift δ :=
        fun hcd hcd' => by
    rw [hR hcd, hS hcd', Span.between_shift, id]
  have hagree := Agree.spanned hspan (inStep_iff.mp h)
  rwa [Prod.map_id] at hagree

theorem InStep.several (h : InStep 1 R R g p q) (n m : Nat) {c d : Cursor} (hcd : R c d)
    (hn : c.rest.length ≤ n) (hm : d.rest.length ≤ m) :
    Option.Rel (fun x y => y.1 = x.1.map g ∧ R x.2 y.2 ∧
      x.2.rest.length ≤ c.rest.length ∧
        y.2.rest.length ≤ d.rest.length) (several p n c) (several q m d) :=
  rel_imp ((inStep_iff.mp h).several n m hcd hn hm) fun _ _ hxy => by rwa [List.map_id] at hxy

theorem InStep.many (h : InStep 1 R R g p q) : InStep 0 R R (List.map g) (many p) (many q) :=
  fun c d hcd => h.several c.rest.length d.rest.length hcd (Nat.le_refl _) (Nat.le_refl _)

theorem Moves.inStep {m : Scan α} (h : Moves R S m) : InStep 0 R S id (scanned m) (scanned m) :=
  inStep_iff.mpr h.agree

theorem Moves.mark {s : String} (h : Moves R S (markScan s)) (hs : 0 < s.length) :
    InStep 1 R S id (exactly s) (exactly s) := inStep_iff.mpr (h.agree_mark hs)

end Combinators

/-- Relations between cursors that all scans respect. The second cursor may stand in a text that was
moved. -/
structure Faithful (δ : Displacement) (R : Cursor → Cursor → Prop) : Prop where
  place : ∀ {c d}, R c d → d.place = c.place.shift δ
  oversized : ∀ {c d}, R c d → d.oversized? = c.oversized?.map (Prod.map id (Span.shift δ))
  noted : ∀ {c d}, R c d → ∀ o,
    R { c with oversized? := o } { d with oversized? := o.map (Prod.map id (Span.shift δ)) }
  atBlank : Moves R R blankScan
  atName : Moves R R nameScan
  atString : Moves R R quotedScan
  atComparator : Moves R R comparatorScan
  atArg : Moves R R argScan
  atWord : ∀ s ∈ words, Moves R R (wordScan s)
  atMark : ∀ s ∈ marks, Moves R R (markScan s)

namespace Faithful

variable {δ : Displacement} {R S : Cursor → Cursor → Prop}

theorem noted_kind (hR : Faithful δ R) {c d : Cursor} (h : R c d) (k : ArgKind) (text : String)
    (span : Span) : R (c.noted k text span) (d.noted k text (span.shift δ)) := by
  cases k with
  | int n =>
    have hsome : d.oversized?.isSome = c.oversized?.isSome := by simp [hR.oversized h]
    by_cases hn : fitsWord n || c.oversized?.isSome
    · simpa [Cursor.noted, hsome, hn] using h
    · simpa [Cursor.noted, hsome, hn] using hR.noted h (some (text, span))
  | _ => exact h

theorem respected (hR : Faithful δ R) : Respected (Span.shift δ) id R where
  span := fun h h' => by rw [hR.place h, hR.place h', Span.between_shift, id]
  noted := by rintro c d h k text s _ rfl; exact hR.noted_kind h k text s
  atBlank := hR.atBlank.agree
  atName := hR.atName
  atString := hR.atString
  atComparator := hR.atComparator
  atArg := hR.atArg
  atWord := hR.atWord
  atMark := hR.atMark

structure Ends (δ : Displacement) (R S : Cursor → Cursor → Prop) : Prop where
  point : InStep 1 R S id (exactly ".") (exactly ".")
  place : ∀ {c d}, S c d → d.place = c.place.shift δ

theorem inStep_item (hR : Faithful δ R) (hS : Ends δ R S) :
    InStep 1 R S (Item.mapSpan (Span.shift δ)) item item := by
  have hcloses : Respected.Closes (Span.shift δ) id R S :=
    ⟨inStep_iff.mp hS.point, fun h h' => by rw [hR.place h, hS.place h', Span.between_shift, id]⟩
  have hagree := hR.respected.agree_item hcloses
  have hid : Item.mapSpan id = id := funext Item.mapSpan_id
  rwa [hid] at hagree

end Faithful

end GraphRules.Script
