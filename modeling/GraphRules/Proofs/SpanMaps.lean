import GraphRules.Script.Parse
import Mathlib.Data.List.Basic

/-! Spans of a tree replaced by others. Moving a text moves all spans by the same number of bytes
and lines; two trees are the same but for their spans if they become equal when all spans are
blotted out. -/
namespace GraphRules

structure Displacement where
  bytes : Nat
  lines : Nat

namespace Displacement

def none : Displacement := ⟨0, 0⟩

def after (text : String) : Displacement := ⟨text.utf8ByteSize, text.toList.count '\n'⟩

end Displacement

def Place.shift (δ : Displacement) (p : Place) : Place :=
  ⟨p.offset + δ.bytes, p.line + δ.lines, p.column⟩

def Span.shift (δ : Displacement) (s : Span) : Span :=
  ⟨s.start + δ.bytes, s.stop + δ.bytes, s.line + δ.lines, s.column⟩

theorem Place.next_shift (δ : Displacement) (p : Place) (c : Char) :
    (p.shift δ).next c = (p.next c).shift δ := by
  by_cases h : c = '\n'
  · simp only [Place.next, h, if_true, Place.shift, Place.mk.injEq, and_true]
    omega
  · simp only [Place.next, h, if_false, Place.shift, Place.mk.injEq, and_true]
    omega

theorem Place.foldl_next_shift (δ : Displacement) (p : Place) (cs : List Char) :
    cs.foldl Place.next (p.shift δ) = (cs.foldl Place.next p).shift δ := by
  induction cs generalizing p with
  | nil => rfl
  | cons c cs ih => rw [List.foldl_cons, Place.next_shift, ih, List.foldl_cons]

theorem Place.foldl_next_offset (p : Place) (cs : List Char) :
    (cs.foldl Place.next p).offset = p.offset + (String.ofList cs).utf8ByteSize := by
  induction cs generalizing p with
  | nil => simp
  | cons c cs ih =>
    have hsize : (String.ofList (c :: cs)).utf8ByteSize =
        c.utf8Size + (String.ofList cs).utf8ByteSize := by
      rw [← List.singleton_append, String.ofList_append, String.utf8ByteSize_append]
      exact congrArg (· + _) String.utf8ByteSize_singleton
    have hnext : (p.next c).offset = p.offset + c.utf8Size := by
      by_cases h : c = '\n'
      · subst h
        rfl
      · simp [Place.next, h]
    rw [List.foldl_cons, ih, hnext, hsize]
    omega

theorem Place.foldl_next_line (p : Place) (cs : List Char) :
    (cs.foldl Place.next p).line = p.line + cs.count '\n' := by
  induction cs generalizing p with
  | nil => rfl
  | cons c cs ih =>
    rw [List.foldl_cons, ih]
    by_cases h : c = '\n'
    · simp only [Place.next, h, if_true, List.count_cons_self]
      omega
    · simp [Place.next, h]

theorem Place.foldl_next_break (cs : List Char) :
    (cs ++ ['\n']).foldl Place.next {} =
      ({} : Place).shift (.after (String.ofList (cs ++ ['\n']))) := by
  have hoffset := Place.foldl_next_offset {} (cs ++ ['\n'])
  have hline := Place.foldl_next_line {} (cs ++ ['\n'])
  have hcolumn : ((cs ++ ['\n']).foldl Place.next {}).column = 1 := by
    rw [List.foldl_append]
    rfl
  generalize (cs ++ ['\n']).foldl Place.next {} = p at hoffset hline hcolumn
  cases p
  simp_all [Place.shift, Displacement.after]

theorem Span.shift_none : Span.shift .none = id := rfl

theorem Span.between_shift (δ : Displacement) (a b : Place) :
    Span.between (a.shift δ) (b.shift δ) = (Span.between a b).shift δ := rfl

section Maps

variable (f : Span → Span)

def Arg.mapSpan (a : Arg) : Arg := ⟨a.kind, f a.span⟩

def Call.mapSpan (c : Call) : Call := ⟨c.name, c.args.map (Arg.mapSpan f), f c.span⟩

def Comparison.mapSpan (c : Comparison) : Comparison :=
  ⟨c.op, c.left.mapSpan f, c.right.mapSpan f, f c.span⟩

mutual

def Literal.mapSpan : Literal → Literal
  | .call c => .call (c.mapSpan f)
  | .negated g s => .negated g.mapSpan (f s)
  | .compare c => .compare (c.mapSpan f)
  | .group g => .group g.mapSpan

def Formula.mapSpan : Formula → Formula
  | .mk ds s => .mk (Formula.mapSpanAny ds) (f s)

def Formula.mapSpanAny : List (List Literal) → List (List Literal)
  | [] => []
  | c :: cs => Literal.mapSpanAll c :: Formula.mapSpanAny cs

def Literal.mapSpanAll : List Literal → List Literal
  | [] => []
  | l :: ls => l.mapSpan :: Literal.mapSpanAll ls

end

def Label.mapSpan (l : Label) : Label := ⟨l.value, l.alias?, f l.span⟩

def Item.mapSpan : Item → Item
  | .labels d => .labels ⟨d.kind, d.labels.map (Label.mapSpan f), f d.span⟩
  | .rule r =>
    .rule ⟨r.antecedent?.map (Formula.mapSpan f), r.consequence.map (Call.mapSpan f), f r.span⟩
  | .query q => .query ⟨q.name, f q.nameSpan, q.body.mapSpan f, f q.span⟩

def Script.Statement.mapSpan : Script.Statement → Script.Statement
  | .item i => .item (i.mapSpan f)
  | .oversized text s => .oversized text (f s)
  | .malformed text s => .malformed text (f s)

def Diagnostic.mapSpan (d : Diagnostic) : Diagnostic := { d with span? := d.span?.map f }

theorem Literal.mapSpanAll_eq (ls : List Literal) :
    Literal.mapSpanAll f ls = ls.map (Literal.mapSpan f) := by
  induction ls with
  | nil => rfl
  | cons l ls ih => simp [Literal.mapSpanAll, ih]

theorem Formula.mapSpanAny_eq (ds : List (List Literal)) :
    Formula.mapSpanAny f ds = ds.map (List.map (Literal.mapSpan f)) := by
  induction ds with
  | nil => rfl
  | cons c cs ih => simp [Formula.mapSpanAny, Literal.mapSpanAll_eq, ih]

theorem Formula.mapSpan_mk (ds : List (List Literal)) (s : Span) :
    (Formula.mk ds s).mapSpan f = .mk (ds.map (List.map (Literal.mapSpan f))) (f s) := by
  rw [Formula.mapSpan, Formula.mapSpanAny_eq]

end Maps

section Identity

theorem Arg.mapSpan_id : Arg.mapSpan id = id := rfl

theorem Call.mapSpan_id : Call.mapSpan id = id := by
  funext c
  simp [Call.mapSpan, Arg.mapSpan_id]

mutual

theorem Literal.mapSpan_id : ∀ l : Literal, l.mapSpan id = l
  | .call c => by simp [Literal.mapSpan, Call.mapSpan_id]
  | .negated g s => by simp [Literal.mapSpan, Formula.mapSpan_id g]
  | .compare c => rfl
  | .group g => by simp [Literal.mapSpan, Formula.mapSpan_id g]

theorem Formula.mapSpan_id : ∀ g : Formula, g.mapSpan id = g
  | .mk ds s => by simp [Formula.mapSpan, Formula.mapSpanAny_id ds]

theorem Formula.mapSpanAny_id : ∀ ds : List (List Literal), Formula.mapSpanAny id ds = ds
  | [] => rfl
  | c :: cs => by simp [Formula.mapSpanAny, Literal.mapSpanAll_id c, Formula.mapSpanAny_id cs]

theorem Literal.mapSpanAll_id : ∀ ls : List Literal, Literal.mapSpanAll id ls = ls
  | [] => rfl
  | l :: ls => by simp [Literal.mapSpanAll, Literal.mapSpan_id l, Literal.mapSpanAll_id ls]

end

theorem Item.mapSpan_id (i : Item) : i.mapSpan id = i := by
  have hformula : Formula.mapSpan id = id := funext Formula.mapSpan_id
  have hlabel : Label.mapSpan id = id := rfl
  cases i with
  | labels d => simp [Item.mapSpan, hlabel]
  | rule r => simp [Item.mapSpan, hformula, Call.mapSpan_id]
  | query q => simp [Item.mapSpan, hformula]

end Identity

end GraphRules
