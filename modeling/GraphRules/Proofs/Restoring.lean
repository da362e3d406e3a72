import GraphRules.Engine.Search
import GraphRules.Proofs.Marks

/-! What the choices of a run go back to. A run has one trail, and a choice has only a mark in it.
As long as the marks get no newer down the stack, and nothing is taken back below the newest of
them, going back to a choice gives it the bindings that it was left with. Calls that fail half way
are taken back too, so each of them comes to an option. -/
namespace GraphRules.Search

variable {b c : Bindings} {choice : Choice} {choices : List Choice} {e : Engine} {r : Run}
  {s : Signature}

theorem suffix_equate (b : Bindings) (es : List (Term × Term)) :
    b.trail <:+ (equate b es).2.trail := by
  induction es generalizing b with
  | nil => exact List.suffix_rfl
  | cons p es ih =>
    obtain ⟨s, t⟩ := p
    rw [equate, Bindings.unify_eq]
    cases hu : b.unify? s t with
    | none => exact List.suffix_rfl
    | some c => exact (Bindings.suffix_of_unify? hu).trans (ih c)

def equate? (b : Bindings) (es : List (Term × Term)) : Option Bindings :=
  Bindings.made? (equate b es)

@[simp] theorem equate?_nil (b : Bindings) : equate? b [] = some b := rfl

theorem equate?_cons (b : Bindings) (s t : Term) (es : List (Term × Term)) :
    equate? b ((s, t) :: es) =
      match b.unify? s t with
      | some c => equate? c es
      | none => none := by
  rw [equate?, equate, Bindings.unify_eq]
  cases b.unify? s t <;> rfl

theorem suffix_of_equate? {es : List (Term × Term)} (h : equate? b es = some c) :
    b.trail <:+ c.trail := by
  have hsuffix := suffix_equate b es
  rw [equate?] at h
  cases hr : equate b es with
  | mk ok d =>
    rw [hr] at h hsuffix
    cases ok with
    | true => cases h; exact hsuffix
    | false => cases h

/-- A foreign predicate whose equations cannot all be made true leaves the run as it was. -/
theorem call_foreign (h : e.library.isForeign s) (goal : Term) (depth : Nat) (rest : List Goal)
    (r : Run) :
    call e goal s depth rest r =
      match (e.library.call s (goal.args.map r.bindings.resolve)).bind (equate? r.bindings) with
      | some bindings => .onward { r with bindings, goals := rest }
      | none => .back r := by
  rw [call, if_pos h]
  cases e.library.call s (goal.args.map r.bindings.resolve) with
  | none => rfl
  | some es =>
    have hsuffix := suffix_equate r.bindings es
    rw [Option.bind_some, equate?]
    dsimp only
    cases hr : equate r.bindings es with
    | mk ok c =>
      rw [hr] at hsuffix
      cases ok with
      | true => rfl
      | false =>
        have hback : c.undoTo r.bindings.mark = r.bindings := Bindings.undoTo_of_suffix hsuffix
        dsimp only [Bindings.made?]
        rw [hback]

theorem call_clauses (h : e.library.isForeign s = false) (goal : Term) (depth : Nat)
    (rest : List Goal) (r : Run) :
    call e goal s depth rest r =
      if e.limits.depth ≤ depth then .back { r with cut := true }
      else .ofResult (tryClauses goal depth rest (e.clausesOf s) r) := by
  rw [call, if_neg (by simp [h])]

/-- A clause whose head does not match only counts as tried. -/
theorem tryClauses_cons (call : Term) (depth : Nat) (rest : List Goal) (c : Clause)
    (cs : List Clause) (r : Run) : tryClauses call depth rest (c :: cs) r =
      match r.bindings.unify? call (c.rename (scopeOf (r.tries + 1))).head with
      | none => tryClauses call depth rest cs { r with tries := r.tries + 1 }
      | some bindings => (true, { r with
          bindings
          goals := (c.rename (scopeOf (r.tries + 1))).body.map (⟨·, depth + 1⟩) ++ rest
          choices := match cs with
            | [] => r.choices
            | cs => .clauses r.bindings.mark call depth cs rest :: r.choices
          tries := r.tries + 1 }) := by
  cases cs with
  | nil =>
    simp only [tryClauses, Run.scope, Bindings.unify_eq]
    cases r.bindings.unify? call (c.rename (scopeOf (r.tries + 1))).head <;> rfl
  | cons d cs =>
    simp only [tryClauses, Run.scope, Bindings.unify_eq]
    cases r.bindings.unify? call (c.rename (scopeOf (r.tries + 1))).head <;> rfl

/-! ### Stacks of marks -/

def Choice.mark : Choice → Nat
  | .goals mark _ => mark
  | .clauses mark _ _ _ _ => mark

/-- Choices with the bindings that they are taken up again with. -/
def restored : Bindings → List Choice → List (Bindings × Choice)
  | _, [] => []
  | b, choice :: choices =>
    (b.undoTo choice.mark, choice) :: restored (b.undoTo choice.mark) choices

theorem map_snd_restored (b : Bindings) (choices : List Choice) :
    (restored b choices).map Prod.snd = choices := by
  induction choices generalizing b with
  | nil => rfl
  | cons choice choices ih => rw [restored, List.map_cons, ih]

/-- Marks that get no newer down the stack. -/
def Stacked : Bindings → List Choice → Prop
  | _, [] => True
  | b, choice :: choices => choice.mark ≤ b.mark ∧ Stacked (b.undoTo choice.mark) choices

/-- New bindings do not matter to choices that are there. -/
theorem Stacked.grow (h : Stacked b choices) (hb : b.trail <:+ c.trail) :
    Stacked c choices ∧ restored c choices = restored b choices := by
  cases choices with
  | nil => exact ⟨trivial, rfl⟩
  | cons choice choices =>
    have hback := Bindings.undoTo_congr hb h.1
    rw [Stacked, restored, restored, hback]
    exact ⟨⟨h.1.trans hb.length_le, h.2⟩, rfl⟩

/-- A new choice is taken up again with the bindings it is made with, whatever is bound after it. -/
theorem Stacked.push (h : Stacked b choices) (hchoice : choice.mark = b.mark)
    (hb : b.trail <:+ c.trail) :
    Stacked c (choice :: choices) ∧
      restored c (choice :: choices) = (b, choice) :: restored b choices := by
  have hback : c.undoTo choice.mark = b := by rw [hchoice, Bindings.undoTo_of_suffix hb]
  rw [Stacked, restored, hback]
  exact ⟨⟨hchoice.trans_le hb.length_le, h⟩, rfl⟩

/-- A choice comes back to the bindings whose mark it has. -/
theorem Stacked.mem_restored (h : Stacked b choices) {p : Bindings × Choice}
    (hp : p ∈ restored b choices) :
    p.2 ∈ choices ∧ p.1.mark = p.2.mark ∧ b.undoTo p.2.mark = p.1 ∧ p.1.trail <:+ b.trail := by
  induction choices generalizing b with
  | nil => cases hp
  | cons choice choices ih =>
    have hsuffix := Bindings.suffix_undoTo_self b choice.mark
    rcases List.mem_cons.mp hp with rfl | hp
    · exact ⟨List.mem_cons_self, Bindings.mark_undoTo h.1, rfl, hsuffix⟩
    · obtain ⟨hmem, hmark, -, htrail⟩ := ih h.2 hp
      have hall := htrail.trans hsuffix
      exact ⟨List.mem_cons_of_mem _ hmem, hmark, hmark ▸ Bindings.undoTo_of_suffix hall, hall⟩

def Run.Marked (r : Run) : Prop := Stacked r.bindings r.choices

def Run.waiting (r : Run) : List (Bindings × Choice) := restored r.bindings r.choices

end GraphRules.Search
