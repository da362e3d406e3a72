import GraphRules.Proofs.Uniform
import GraphRules.Proofs.Valuation

/-! What the predicates over attributes and measures answer. A call that holds tests constants, or
gives a constant to its last argument. -/
namespace GraphRules

theorem Attribute.text?_eq_some_iff {stored : Attribute} {value : String} :
    stored.text? = some value ↔ stored = .text value := by
  cases stored <;> simp [Attribute.text?]

namespace Predicate

variable {p : Predicate} {g : Graph} {us : List Term} {es : List (Term × Term)} {stored : Attribute}
  {s : Signature} {name : String} {id value : Term} {scope : Scope}

def readAttribute (stored : Attribute) : Term → Option (List (Term × Term))
  | .atom value => if stored.text? = some value then some [] else none
  | .number value => if stored.number?.any (·.sameValue value) then some [] else none
  | .var v => some [(.var v, .atom stored.render)]
  | .compound _ _ => none

def readNumber (n : Int) : Term → Option (List (Term × Term))
  | .number value => if Number.sameValue (.int n) value then some [] else none
  | .var v => some [(.var v, .int n)]
  | .atom _ => none
  | .compound _ _ => none

theorem equations?_holdsIf (b : Bool) :
    (holdsIf b).equations? = if b then some [] else none := by
  cases b <;> rfl

theorem equations?_matchAttribute (s : Signature) (e : Element) (name : String) (stored : Attribute)
    (value : Term) :
    (ofAnswering (matchAttribute s e name stored value)).equations? =
      readAttribute stored value := by
  cases value with
  | atom a => simp [matchAttribute, readAttribute, ofAnswering, equations?_holdsIf]
  | number x =>
    cases hn : stored.number? with
    | none => simp [matchAttribute, readAttribute, ofAnswering, hn, Outcome.equations?]
    | some y => simp [matchAttribute, readAttribute, ofAnswering, hn, equations?_holdsIf]
  | var v => rfl
  | compound f as => rfl

theorem equations?_subject {f : Option Element → Answering Outcome} :
    (ofAnswering (subject g s id >>= f)).equations? = some es ↔
      ∃ x, id = .atom x ∧ (ofAnswering (f (g.find? x))).equations? = some es := by
  cases id with
  | atom x => simp [subject, bind, Except.bind]
  | number x => simp [subject, bind, Except.bind, ofAnswering, Outcome.equations?]
  | var v => simp [subject, bind, Except.bind, ofAnswering, Outcome.equations?]
  | compound c as => simp [subject, bind, Except.bind, ofAnswering, Outcome.equations?]

theorem equations?_attributeName {t : Term} {f : String → Answering Outcome} :
    (ofAnswering (attributeName s t >>= f)).equations? = some es ↔
      ∃ x, t = .atom x ∧ (ofAnswering (f x)).equations? = some es := by
  cases t with
  | atom x => simp [attributeName, bind, Except.bind]
  | number x => simp [attributeName, bind, Except.bind, ofAnswering, Outcome.equations?]
  | var v => simp [attributeName, bind, Except.bind, ofAnswering, Outcome.equations?]
  | compound c as => simp [attributeName, bind, Except.bind, ofAnswering, Outcome.equations?]

/-- The id and the name of an attribute are atoms, and the value is read off what is stored. -/
theorem equations?_ofAttributes {name : Term} :
    (ofAttributes.answer g [id, name, value]).equations? = some es ↔ ∃ x n e stored, id = .atom x ∧
      name = .atom n ∧ g.find? x = some e ∧ e.attribute? n = some stored ∧
      readAttribute stored value = some es := by
  simp only [ofAttributes, attributeAnswer]
  rw [equations?_subject]
  constructor
  · rintro ⟨x, rfl, h⟩
    cases he : g.find? x with
    | none => rw [he] at h; cases h
    | some e =>
      rw [he, equations?_attributeName] at h
      obtain ⟨n, rfl, h⟩ := h
      cases hs : e.attribute? n with
      | none => rw [hs] at h; cases h
      | some stored =>
        rw [hs, equations?_matchAttribute] at h
        exact ⟨x, n, e, stored, rfl, rfl, he, hs, h⟩
  · rintro ⟨x, n, e, stored, rfl, rfl, he, hs, h⟩
    refine ⟨x, rfl, ?_⟩
    rw [he, equations?_attributeName]
    refine ⟨n, rfl, ?_⟩
    rw [hs, equations?_matchAttribute, h]

theorem equations?_ofNumeric {m : NumericMeasure} :
    ((ofNumeric name scope m).answer g [id, value]).equations? = some es ↔
      ∃ x e n, id = .atom x ∧ g.find? x = some e ∧ scope.contains e.kind ∧ m.value? g e = some n ∧
        readNumber n value = some es := by
  simp only [ofNumeric, numericAnswer]
  rw [equations?_subject]
  refine exists_congr fun x => ?_
  cases he : g.find? x with
  | none => simp [ofAnswering, Outcome.equations?, pure, Except.pure]
  | some e =>
    cases hscope : scope.contains e.kind with
    | false => simp [ofAnswering, Outcome.equations?, pure, Except.pure, hscope]
    | true =>
      cases hm : m.value? g e with
      | none =>
        simp [ofAnswering, Outcome.equations?, hscope, hm, throw, throwThe, MonadExceptOf.throw]
      | some n =>
        cases value with
        | number y =>
          simp [ofAnswering, pure, Except.pure, hscope, hm, equations?_holdsIf, readNumber]
        | var v => simp [ofAnswering, pure, Except.pure, hscope, hm, Outcome.equations?, readNumber]
        | atom a =>
          simp [ofAnswering, pure, Except.pure, hscope, hm, Outcome.equations?, readNumber]
        | compound c as =>
          simp [ofAnswering, pure, Except.pure, hscope, hm, Outcome.equations?, readNumber]

theorem equations?_ofBoolean {m : BooleanMeasure}
    (h : ((ofBoolean name scope m).answer g [id]).equations? = some es) :
    ∃ x, id = .atom x ∧ es = [] := by
  simp only [ofBoolean, booleanAnswer] at h
  rw [equations?_subject] at h
  obtain ⟨x, rfl, h⟩ := h
  refine ⟨x, rfl, ?_⟩
  cases he : g.find? x with
  | none => rw [he] at h; cases h
  | some e =>
    rw [he] at h
    cases hscope : scope.contains e.kind with
    | false => simp [ofAnswering, Outcome.equations?, pure, Except.pure, hscope] at h
    | true =>
      cases hm : m.value? g e with
      | none =>
        simp [ofAnswering, Outcome.equations?, hscope, hm, throw, throwThe,
          MonadExceptOf.throw] at h
      | some c =>
        simp [ofAnswering, pure, Except.pure, hscope, hm, equations?_holdsIf] at h
        exact h.2

def AsksToRender (g : Graph) (us : List Term) : Prop :=
  ∃ x n v e stored, us = [.atom x, .atom n, .var v] ∧ g.find? x = some e ∧
    e.attribute? n = some stored ∧
    stored.text? = none

theorem readAttribute_cases (h : readAttribute stored value = some es) :
    (∃ k : Constant, value = k.toTerm ∧ es = []) ∨ ∃ v, value = .var v ∧
      es = [(.var v, .atom stored.render)] := by
  cases value with
  | atom a =>
    obtain ⟨-, rfl⟩ : stored.text? = some a ∧ es = [] := by simpa [readAttribute] using h.symm
    exact .inl ⟨.atom a, rfl, rfl⟩
  | number x =>
    obtain ⟨-, rfl⟩ : stored.number?.any (·.sameValue x) ∧ es = [] := by
      simpa [readAttribute] using h.symm
    exact .inl ⟨.number x, rfl, rfl⟩
  | var v => exact .inr ⟨v, rfl, by simpa [readAttribute] using h.symm⟩
  | compound f as => cases h

theorem readNumber_cases {n : Int} (h : readNumber n value = some es) :
    (∃ k : Constant, value = k.toTerm ∧ es = []) ∨ ∃ v, value = .var v ∧
      es = [(.var v, .int n)] := by
  cases value with
  | number x =>
    obtain ⟨-, rfl⟩ : Number.sameValue (.int n) x ∧ es = [] := by simpa [readNumber] using h.symm
    exact .inl ⟨.number x, rfl, rfl⟩
  | var v => exact .inr ⟨v, rfl, by simpa [readNumber] using h.symm⟩
  | atom a => cases h
  | compound f as => cases h

theorem readAttribute_render {value : String} (h : stored.text? = some value) :
    readAttribute stored (.atom stored.render) = some [] := by
  rw [Attribute.text?_eq_some_iff] at h
  subst h
  exact if_pos rfl

theorem readNumber_self (n : Int) : readNumber n (.int n) = some [] := by
  simp [readNumber, Term.int, Number.sameValue]

theorem Measured.length_eq (h : p.Measured) (hes : (p.answer g us).equations? = some es) :
    us.length = p.signature.arity := by
  cases h with
  | attributes =>
    match us, hes with
    | [_, _, _], _ => rfl
    | [], hes | [_], hes | [_, _], hes | _ :: _ :: _ :: _ :: _, hes => cases hes
  | numeric name scope m =>
    match us, hes with
    | [_, _], _ => rfl
    | [], hes | [_], hes | _ :: _ :: _ :: _, hes => cases hes
  | boolean name scope m =>
    match us, hes with
    | [_], _ => rfl
    | [], hes | _ :: _ :: _, hes => cases hes

/-- What a goal that holds tells: its arguments are constants, or all but the last are and the last
one, a variable, gets a constant. Asked with that constant the goal holds again, unless the constant
is the text of something else. -/
theorem Measured.told (h : p.Measured) (hes : (p.answer g us).equations? = some es) :
    (∃ ks : List Constant, us = ks.map Constant.toTerm ∧ es = []) ∨
      ∃ (ks : List Constant) (v : Var) (k : Constant),
        us = ks.map Constant.toTerm ++ [.var v] ∧ es = [(.var v, k.toTerm)] ∧
          (p.signature = ⟨"attribute", 3⟩ ∧ AsksToRender g us ∨
            (p.answer g (ks.map Constant.toTerm ++ [k.toTerm])).equations? = some []) := by
  have hlen := h.length_eq hes
  cases h with
  | attributes =>
    obtain ⟨id, name, value, rfl⟩ := List.length_eq_three.mp hlen
    obtain ⟨x, n, e, stored, rfl, rfl, he, hs, hread⟩ := equations?_ofAttributes.mp hes
    rcases readAttribute_cases hread with ⟨k, rfl, rfl⟩ | ⟨v, rfl, rfl⟩
    · exact .inl ⟨[.atom x, .atom n, k], rfl, rfl⟩
    · refine .inr ⟨[.atom x, .atom n], v, .atom stored.render, rfl, rfl, ?_⟩
      cases ht : stored.text? with
      | none => exact .inl ⟨rfl, x, n, v, e, stored, rfl, he, hs, ht⟩
      | some value =>
        exact .inr (equations?_ofAttributes.mpr ⟨x, n, e, stored, rfl, rfl, he, hs,
          readAttribute_render ht⟩)
  | numeric name scope m =>
    obtain ⟨id, value, rfl⟩ := List.length_eq_two.mp hlen
    obtain ⟨x, e, n, rfl, he, hscope, hm, hread⟩ := equations?_ofNumeric.mp hes
    rcases readNumber_cases hread with ⟨k, rfl, rfl⟩ | ⟨v, rfl, rfl⟩
    · exact .inl ⟨[.atom x, k], rfl, rfl⟩
    · exact .inr ⟨[.atom x], v, .number (.int n), rfl, rfl,
        .inr (equations?_ofNumeric.mpr ⟨x, e, n, rfl, he, hscope, hm, readNumber_self n⟩)⟩
  | boolean name scope m =>
    obtain ⟨id, rfl⟩ := List.length_eq_one_iff.mp hlen
    obtain ⟨x, rfl, rfl⟩ := equations?_ofBoolean hes
    exact .inl ⟨[.atom x], rfl, rfl⟩

theorem AsksToRender.refused (h : AsksToRender g us) :
    ∃ (ks : List Constant) (v : Var) (k : Constant), us = ks.map Constant.toTerm ++ [.var v] ∧
      (ofAttributes.answer g us).equations? = some [(.var v, k.toTerm)] ∧
        (ofAttributes.answer g (ks.map Constant.toTerm ++ [k.toTerm])).equations? = none := by
  obtain ⟨x, n, v, e, stored, rfl, he, hs, ht⟩ := h
  refine ⟨[.atom x, .atom n], v, .atom stored.render, rfl, ?_, ?_⟩
  · exact equations?_ofAttributes.mpr ⟨x, n, e, stored, rfl, rfl, he, hs, rfl⟩
  · rw [Option.eq_none_iff_forall_ne_some]
    intro es hes
    obtain ⟨x', n', e', stored', hx, hn, he', hs', hread⟩ := equations?_ofAttributes.mp hes
    cases hx
    cases hn
    rw [he] at he'
    cases he'
    rw [hs] at hs'
    cases hs'
    simp [readAttribute, Constant.toTerm, ht] at hread

end Predicate

end GraphRules
