import GraphRules.Library.Standard
import GraphRules.Proofs.Renaming

/-! Foreign predicates that treat variables alike. Such a predicate does not look at the names of
the variables it is given, brings in none of its own, and asks only for equations between variables
and constants. The predicates over attributes and measures are of this kind. -/
namespace GraphRules

structure RelPair (R : Var → Var → Prop) (p q : Term × Term) : Prop where
  left : p.1.Rel R q.1
  right : p.2.Rel R q.2
  flat : p.1.isFlat ∧ p.2.isFlat

variable {es : List (Term × Term)} {l : Library} {as : List Term}

theorem RelPair.flat_of_mem {R : Var → Var → Prop} {es' : List (Term × Term)}
    (h : List.Forall₂ (RelPair R) es es') : ∀ p ∈ es, p.1.isFlat ∧ p.2.isFlat := by
  induction h with
  | nil => intro p hp; cases hp
  | cons hp _ ih =>
    intro q hq
    rcases List.mem_cons.mp hq with rfl | hq
    · exact hp.flat
    · exact ih q hq

def Outcome.equations? : Outcome → Option (List (Term × Term))
  | .succeed equations => some equations
  | .fail => none
  | .fault _ => none

def Outcome.Alike (R : Var → Var → Prop) (o o' : Outcome) : Prop :=
  Option.Rel (List.Forall₂ (RelPair R)) o.equations? o'.equations?

def Predicate.Uniform (p : Predicate) : Prop :=
  ∀ (g : Graph) (R : Var → Var → Prop), Relator.BiUnique R →
    ∀ as as' : List Term, Term.RelAll R as as' →
    (p.answer g as).Alike R (p.answer g as')

def Library.Uniform (l : Library) : Prop := ∀ p ∈ l.declarations.predicates, p.Uniform

variable {R : Var → Var → Prop}

theorem Library.call_eq (l : Library) (s : Signature) (as : List Term) :
    l.call s as = (l.predicate? s).bind fun p => (p.answer l.graph as).equations? := by
  unfold Library.call
  cases l.predicate? s with
  | none => rfl
  | some p => cases h : p.answer l.graph as <;> simp [Outcome.equations?, h]

theorem Library.Uniform.call (h : l.Uniform) (hR : Relator.BiUnique R) (s : Signature)
    {as' : List Term} (has : Term.RelAll R as as') :
    Option.Rel (List.Forall₂ (RelPair R)) (l.call s as) (l.call s as') := by
  rw [Library.call_eq, Library.call_eq]
  cases hp : l.predicate? s with
  | none => exact .none
  | some p =>
    have hmem : p ∈ l.declarations.predicates := List.mem_reverse.mp (List.mem_of_find?_eq_some hp)
    exact h p hmem l.graph R hR as as' has

/-- Foreign predicates ask only for equations between constants and variables. -/
theorem Library.Uniform.flat_of_call (h : l.Uniform) {s : Signature} (hc : l.call s as = some es) :
    ∀ p ∈ es, p.1.isFlat ∧ p.2.isFlat := by
  have hR : Relator.BiUnique (fun v w : Var => v = w) :=
    ⟨fun _ _ _ h h' => h.trans h'.symm, fun _ _ _ h h' => h ▸ h'⟩
  have hcall := h.call hR s (@Term.relAll_self _ as fun _ _ => rfl)
  rw [hc] at hcall
  cases hcall with
  | some hes => exact RelPair.flat_of_mem hes

namespace Predicate

def AlikeAnswering (R : Var → Var → Prop) (x y : Answering Outcome) : Prop :=
  (ofAnswering x).Alike R (ofAnswering y)

theorem alike_fail : Outcome.Alike R .fail .fail := .none

theorem alike_fault (f f' : Fault) : Outcome.Alike R (.fault f) (.fault f') := .none

theorem alike_holdsIf (b : Bool) : Outcome.Alike R (holdsIf b) (holdsIf b) := by
  cases b
  · exact .none
  · exact .some .nil

variable {t t' : Term}

theorem alike_takes {v w : Var} (h : R v w) (ht : t.Rel R t) (hf : t.isFlat) :
    Outcome.Alike R (.succeed [(.var v, t)]) (.succeed [(.var w, t)]) :=
  .some (.cons ⟨h, ht, rfl, hf⟩ .nil)

theorem alike_subject (g : Graph) (p : Signature) (ht : t.Rel R t')
    {k k' : Option Element → Answering Outcome} (hk : ∀ e, AlikeAnswering R (k e) (k' e)) :
    AlikeAnswering R (subject g p t >>= k) (subject g p t' >>= k') := by
  cases t with
  | atom id => rw [Term.rel_atom.mp ht]; exact hk (g.find? id)
  | number x => rw [Term.rel_number.mp ht]; exact .none
  | var v => obtain ⟨w, rfl, _⟩ := Term.rel_var.mp ht; exact .none
  | compound f as => obtain ⟨bs, rfl, _⟩ := Term.rel_compound.mp ht; exact .none

theorem alike_attributeName (p : Signature) (ht : t.Rel R t') {k k' : String → Answering Outcome}
    (hk : ∀ name, AlikeAnswering R (k name) (k' name)) :
    AlikeAnswering R (attributeName p t >>= k) (attributeName p t' >>= k') := by
  cases t with
  | atom name => rw [Term.rel_atom.mp ht]; exact hk name
  | number x => rw [Term.rel_number.mp ht]; exact .none
  | var v => obtain ⟨w, rfl, _⟩ := Term.rel_var.mp ht; exact .none
  | compound f as => obtain ⟨bs, rfl, _⟩ := Term.rel_compound.mp ht; exact .none

theorem alike_matchAttribute (p : Signature) (e : Element) (name : String) (stored : Attribute)
    (ht : t.Rel R t') :
    AlikeAnswering R (matchAttribute p e name stored t) (matchAttribute p e name stored t') := by
  cases t with
  | atom value => rw [Term.rel_atom.mp ht]; exact alike_holdsIf _
  | number value =>
    rw [Term.rel_number.mp ht]
    unfold matchAttribute AlikeAnswering
    cases stored.number? with
    | none => exact alike_fault _ _
    | some actual => exact alike_holdsIf _
  | var v => obtain ⟨w, rfl, hvw⟩ := Term.rel_var.mp ht; exact alike_takes hvw rfl rfl
  | compound f as => obtain ⟨bs, rfl, _⟩ := Term.rel_compound.mp ht; exact alike_fail

theorem uniform_ofAttributes : ofAttributes.Uniform := by
  intro g R hR as as' has
  match as, as', has with
  | [], [], _ => exact .none
  | [_], [_], _ => exact .none
  | [_, _], [_, _], _ => exact .none
  | _ :: _ :: _ :: _ :: _, _ :: _ :: _ :: _ :: _, _ => exact .none
  | [id, name, value], [id', name', value'], ⟨hid, hname, hvalue, _⟩ =>
    refine alike_subject g _ hid fun e? => ?_
    cases e? with
    | none => exact alike_fail
    | some e =>
      refine alike_attributeName _ hname fun n => ?_
      cases e.attribute? n with
      | none => exact alike_fail
      | some stored => exact alike_matchAttribute _ e n stored hvalue

theorem uniform_ofNumeric (name : String) (scope : Scope) (measure : NumericMeasure) :
    (ofNumeric name scope measure).Uniform := by
  intro g R hR as as' has
  match as, as', has with
  | [], [], _ => exact .none
  | [_], [_], _ => exact .none
  | _ :: _ :: _ :: _, _ :: _ :: _ :: _, _ => exact .none
  | [id, value], [id', value'], ⟨hid, hvalue, _⟩ =>
    refine alike_subject g _ hid fun e? => ?_
    cases e? with
    | none => exact alike_fail
    | some e =>
      dsimp only
      cases scope.contains e.kind with
      | false => exact alike_fail
      | true =>
        simp only [Bool.not_true, Bool.false_eq_true, if_false]
        cases measure.value? g e with
        | none => exact alike_fault _ _
        | some n =>
          cases value with
          | atom _ => rw [Term.rel_atom.mp hvalue]; exact alike_fail
          | number expected => rw [Term.rel_number.mp hvalue]; exact alike_holdsIf _
          | var v => obtain ⟨w, rfl, hvw⟩ := Term.rel_var.mp hvalue; exact alike_takes hvw rfl rfl
          | compound _ _ => obtain ⟨bs, rfl, _⟩ := Term.rel_compound.mp hvalue; exact alike_fail

theorem uniform_ofBoolean (name : String) (scope : Scope) (measure : BooleanMeasure) :
    (ofBoolean name scope measure).Uniform := by
  intro g R hR as as' has
  match as, as', has with
  | [], [], _ => exact .none
  | _ :: _ :: _, _ :: _ :: _, _ => exact .none
  | [id], [id'], ⟨hid, _⟩ =>
    refine alike_subject g _ hid fun e? => ?_
    cases e? with
    | none => exact alike_fail
    | some e =>
      dsimp only
      cases scope.contains e.kind with
      | false => exact alike_fail
      | true =>
        simp only [Bool.not_true, Bool.false_eq_true, if_false]
        cases measure.value? g e with
        | none => exact alike_fault _ _
        | some b => exact alike_holdsIf b

end Predicate

inductive Predicate.Measured : Predicate → Prop
  | attributes : Measured .ofAttributes
  | numeric (name : String) (scope : Scope) (measure : NumericMeasure) :
    Measured (.ofNumeric name scope measure)
  | boolean (name : String) (scope : Scope) (measure : BooleanMeasure) :
    Measured (.ofBoolean name scope measure)

theorem Predicate.Measured.uniform {p : Predicate} (h : p.Measured) : p.Uniform := by
  cases h with
  | attributes => exact uniform_ofAttributes
  | numeric name scope measure => exact uniform_ofNumeric name scope measure
  | boolean name scope measure => exact uniform_ofBoolean name scope measure

theorem Standard.measured (p : Predicate) (h : p ∈ declarations.predicates) : p.Measured := by
  simp only [declarations, Declarations.append, shape, attributes, nodeMeasures,
    edgeMeasures, graphMeasures, List.foldl_cons, List.foldl_nil, List.nil_append, List.cons_append,
    List.mem_cons, List.not_mem_nil,
    or_false] at h
  rcases h with rfl | rfl | rfl | rfl | rfl | rfl | rfl | rfl | rfl | rfl | rfl | rfl | rfl | rfl
  all_goals constructor

theorem Standard.uniform (g : Graph) : (library g).Uniform := fun p hp => (measured p hp).uniform

end GraphRules
