import GraphRules.Proofs.Acceptance

/-! Which codes each part of the check can raise. A code that a script is told about leads back to
the one part that raises it. -/
namespace GraphRules.Check

def Raises (codes : List String) (fs : List Found) : Prop := ∀ f ∈ fs, f.1.code ∈ codes

variable {codes codes' : List String} {fs gs : List Found} {v : Vocabulary} {ds : List Definition}
  {α : Type} {bad : Finding → Prop}

theorem Raises.nil : Raises codes [] := List.forall_mem_nil _

theorem Raises.single {f : Found} (h : f.1.code ∈ codes) :
    Raises codes [f] := List.forall_mem_singleton.mpr h

theorem Raises.append (hf : Raises codes fs) (hg : Raises codes gs) : Raises codes (fs ++ gs) :=
  List.forall_mem_append.mpr ⟨hf, hg⟩

theorem Raises.mono (h : Raises codes fs) (hc : codes ⊆ codes') :
    Raises codes' fs := fun f hf => hc (h f hf)

theorem Raises.flatMap {as : List α} {g : α → List Found} (h : ∀ a ∈ as, Raises codes (g a)) :
    Raises codes (as.flatMap g) := by
  intro f hf
  obtain ⟨a, ha, hf⟩ := List.mem_flatMap.mp hf
  exact h a ha f hf

theorem Raises.map {as : List α} {g : α → Found} (h : ∀ a, (g a).1.code ∈ codes) :
    Raises codes (as.map g) := by
  intro f hf
  obtain ⟨a, _, rfl⟩ := List.mem_map.mp hf
  exact h a

theorem mem_of_mem_onceEach {f : Found} {seen : List (Finding × Nat)} (hf : f ∈ onceEach seen fs) :
    f ∈ fs := by
  induction fs generalizing seen with
  | nil => cases hf
  | cons g gs ih =>
    rw [onceEach] at hf
    split at hf
    · exact List.mem_cons_of_mem _ (ih hf)
    · exact (List.mem_cons.mp hf).elim (fun h => h ▸ List.mem_cons_self) fun h =>
        List.mem_cons_of_mem _ (ih h)

theorem freeOf_append : FreeOf bad (fs ++ gs) ↔ FreeOf bad fs ∧ FreeOf bad gs :=
  List.forall_mem_append

theorem freeOf_flatMap {as : List α} {g : α → List Found} :
    FreeOf bad (as.flatMap g) ↔ ∀ a ∈ as, FreeOf bad (g a) := by
  refine ⟨fun h a ha => h.of_flatMap ha, fun h f hf => ?_⟩
  obtain ⟨a, ha, hf⟩ := List.mem_flatMap.mp hf
  exact h a ha f hf

theorem freeOf_onceEach (hbad : ∀ f : Found, bad (key f).1 ↔ bad f.1) :
    FreeOf bad (onceEach [] fs) ↔ FreeOf bad fs :=
  ⟨.of_onceEach hbad, fun h f hf => h f (mem_of_mem_onceEach hf)⟩

theorem Raises.onceEach (h : Raises codes fs) : Raises codes (onceEach [] fs) :=
  fun f hf => h f (mem_of_mem_onceEach hf)

theorem Raises.freeOf (h : Raises codes fs) (code : String) (hc : code ∉ codes) :
    FreeOf (·.code = code) fs :=
  fun f hf hcode => hc (hcode ▸ h f hf)

theorem raises_symbolExpected (c : Call) (role : String) (a : Arg) :
    Raises ["E006"] (symbolExpected c role a) := by
  unfold symbolExpected
  split
  · exact .single (List.mem_singleton_self _)
  · exact .nil

theorem raises_argumentFindings (c : Call) (role : Role) :
    Raises ["E006"] (argumentFindings c role) := by
  have hsymbol := raises_symbolExpected c
  unfold argumentFindings
  split
  · exact .flatMap fun a _ => hsymbol _ a
  · split
    · exact (hsymbol _ _).append (hsymbol _ _)
    · exact .nil
  · split
    · refine (hsymbol _ _).append ?_
      split
      · exact .single (List.mem_singleton_self _)
      · exact .nil
    · exact .nil
  · exact .flatMap fun a _ => hsymbol _ a
  · exact .nil

theorem raises_referenceFindings (c : Call) :
    Raises ["E001", "E002", "E006"] (referenceFindings v ds c) := by
  unfold referenceFindings
  split
  · split
    · exact (raises_argumentFindings _ _).mono (by simp)
    · exact .single (by simp [Finding.code])
  · split
    · split
      · exact .nil
      · exact .single (by simp [Finding.code])
    · exact .single (by simp [Finding.code])

theorem raises_comparisonFindings (c : Comparison) : Raises ["E006"] (comparisonFindings c) := by
  unfold comparisonFindings
  split
  · refine .flatMap fun side _ => ?_
    split
    · exact .single (List.mem_singleton_self _)
    · exact .nil
  · exact .nil

mutual

theorem raises_literalFindings :
    ∀ l : Literal, Raises ["E001", "E002", "E006"] (literalFindings v ds l)
  | .call c => by rw [literalFindings]; exact raises_referenceFindings c
  | .negated f _ => by rw [literalFindings]; exact raises_formulaFindings f
  | .compare c => by rw [literalFindings]; exact (raises_comparisonFindings c).mono (by simp)
  | .group f => by rw [literalFindings]; exact raises_formulaFindings f

theorem raises_formulaFindings :
    ∀ f : Formula, Raises ["E001", "E002", "E006"] (formulaFindings v ds f)
  | .mk disjuncts _ => by rw [formulaFindings]; exact raises_disjunctFindings disjuncts

theorem raises_disjunctFindings :
    ∀ cs : List (List Literal), Raises ["E001", "E002", "E006"] (disjunctFindings v ds cs)
  | [] => by rw [disjunctFindings]; exact .nil
  | c :: cs => by
    rw [disjunctFindings]; exact (raises_literalsFindings c).append (raises_disjunctFindings cs)

theorem raises_literalsFindings :
    ∀ ls : List Literal, Raises ["E001", "E002", "E006"] (literalsFindings v ds ls)
  | [] => by rw [literalsFindings]; exact .nil
  | l :: ls => by
    rw [literalsFindings]; exact (raises_literalFindings l).append (raises_literalsFindings ls)

end

theorem raises_define (e : Entry) : Raises ["E002", "E004", "E005", "E009"] (define v ds e).2 := by
  cases e with
  | badLabel value span => exact .single (by simp [Finding.code])
  | definition d =>
    unfold define
    dsimp only
    split
    · exact .single (by simp [Finding.code])
    · split
      · exact .nil
      · refine fun f hf => ?_
        obtain ⟨g, hg, rfl⟩ := List.mem_map.mp hf
        rw [Option.mem_toList, clash?] at hg
        split_ifs at hg <;> cases hg <;> simp [Finding.code]

theorem raises_defineAll (es : List Entry) :
    Raises ["E002", "E004", "E005", "E009"] (defineAll v ds es).2 := by
  induction es generalizing ds with
  | nil => exact .nil
  | cons e es ih => exact (raises_define e).append ih

theorem raises_hazardsOf (outside : List String) (before : List Literal) (l : Literal)
    (after : List Literal) : Raises ["E008"] (hazardsOf outside before l after) := by
  cases l with
  | call c => exact .nil
  | group f => exact .nil
  | compare c => exact .map fun _ => List.mem_singleton_self _
  | negated f s => exact .map fun _ => List.mem_singleton_self _

theorem raises_hazardsFrom (outside : List String) (before ls : List Literal) :
    Raises ["E008"] (hazardsFrom outside before ls) := by
  induction ls generalizing before with
  | nil => exact .nil
  | cons l ls ih => exact (raises_hazardsOf _ _ _ _).append (ih _)

theorem raises_unboundFindings (consequence : List Call) (a : List Literal) :
    Raises ["E003"] (unboundFindings consequence a) := by
  refine .flatMap fun c _ f hf => ?_
  obtain ⟨x, _, hx⟩ := List.mem_filterMap.mp hf
  split at hx
  · split_ifs at hx
    cases hx
    exact List.mem_singleton_self _
  · cases hx

theorem raises_factFindings (consequence : List Call) :
    Raises ["E003"] (factFindings consequence) := by
  refine .onceEach (.flatMap fun c _ f hf => ?_)
  obtain ⟨x, _, hx⟩ := List.mem_filterMap.mp hf
  obtain ⟨y, _, rfl⟩ := Option.map_eq_some_iff.mp hx
  exact List.mem_singleton_self _

theorem raises_wildcardFindings (consequence : List Call) :
    Raises ["E007"] (wildcardFindings consequence) := by
  refine .flatMap fun c _ f hf => ?_
  obtain ⟨x, _, hx⟩ := List.mem_filterMap.mp hf
  split_ifs at hx
  cases hx
  exact List.mem_singleton_self _

theorem raises_singletonFindings (xs : List String) (s : Span) :
    Raises ["W001"] (singletonFindings xs s) :=
  .map fun _ => List.mem_singleton_self _

theorem raises_partlyUnboundFindings (q : Query) (a : List Literal) :
    Raises ["W004"] (partlyUnboundFindings q a) :=
  .map fun _ => List.mem_singleton_self _

theorem raises_unusedLabels (items : List Item) : Raises ["W002"] (unusedLabels items) := by
  refine .flatMap fun i _ => ?_
  split
  · exact .map fun _ => List.mem_singleton_self _
  · exact .nil

theorem raises_repeatedFindings (earlier : List Item) (i : Item) :
    Raises ["W003"] (repeatedFindings earlier i) := by
  unfold repeatedFindings
  split
  · exact .single (List.mem_singleton_self _)
  · exact .nil

def statementCodes : List String := ["E001", "E002", "E003", "E006", "E007", "E008", "W001", "W004"]

theorem raises_itemFindings (i : Item) : Raises statementCodes (itemFindings v ds i) := by
  cases i with
  | labels d => exact .nil
  | rule r =>
    refine ((raises_wildcardFindings _).mono (by simp [statementCodes])).append ?_
    split
    · exact ((raises_factFindings _).mono (by simp [statementCodes])).append
        ((raises_singletonFindings _ _).mono (by simp [statementCodes]))
    · refine Raises.append
        (Raises.append ((raises_formulaFindings _).mono (by simp [statementCodes]))
        (.onceEach (.flatMap fun a _ => ?_)))
        ((raises_singletonFindings _ _).mono (by simp [statementCodes]))
      exact ((raises_hazardsFrom _ _ _).mono (by simp [statementCodes])).append
        ((raises_unboundFindings _ _).mono (by simp [statementCodes]))
  | query q =>
    refine ((raises_formulaFindings _).mono (by simp [statementCodes])).append
      (.onceEach (.flatMap fun a _ => ?_))
    exact ((raises_hazardsFrom _ _ _).mono (by simp [statementCodes])).append
      ((raises_partlyUnboundFindings _ _).mono (by simp [statementCodes]))

/-- What is wrong with a script in the way of a code that is about single statements is wrong with
one of them. -/
theorem freeOf_findings {code : String} (hdefine : code ∉ ["E002", "E004", "E005", "E009"])
    (hrepeated : code ∉ ["W003"]) (hunused : code ∉ ["W002"]) (s : Script) :
    FreeOf (·.code = code) (findings v s) ↔ ∀ i ∈ s.items,
      FreeOf (·.code = code) (itemFindings v (defineAll v [] (s.items.flatMap entries)).1 i) := by
  have hitems : ∀ {ds earlier items}, FreeOf (·.code = code) (itemsFindings v ds earlier items) ↔
      ∀ i ∈ items, FreeOf (·.code = code) (itemFindings v ds i) := by
    intro ds earlier items
    induction items generalizing earlier with
    | nil => exact iff_of_true (List.forall_mem_nil _) (List.forall_mem_nil _)
    | cons i items ih =>
      rw [itemsFindings, freeOf_append, freeOf_append, ih, List.forall_mem_cons]
      simp [(raises_repeatedFindings earlier i).freeOf code hrepeated]
  rw [findings, freeOf_append, freeOf_append, hitems]
  simp [(raises_defineAll _).freeOf code hdefine, (raises_unusedLabels _).freeOf code hunused]

end GraphRules.Check
