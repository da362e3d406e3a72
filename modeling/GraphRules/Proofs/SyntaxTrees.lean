import GraphRules.Proofs.Grammar

/-! Items from syntax trees. A tree is taken apart node by node. What a tree of another shape would
lead to is a defect of its own: a part is missing, a node is not expected, or a number cannot be
read. -/
namespace GraphRules.Grammar

inductive Defect where
  | missing (what : String)
  | unexpected (message : String) (span : Span)
  | oversized (text : String) (span : Span)

namespace Defect

def message : Defect → String
  | missing what => "malformed " ++ what
  | unexpected message _ => message
  | oversized text _ => "integer literal `" ++ text ++ "` out of range"

def span? : Defect → Option Span
  | missing _ => none
  | unexpected _ span => some span
  | oversized _ span => some span

def diagnostic (d : Defect) : Diagnostic := ⟨.reading, .error, "S001", d.message, d.span?⟩

end Defect

def Rule.name : Rule → String
  | script => "script"
  | statement => "statement"
  | catchAll => "CATCH_ALL"
  | goal => "goal"
  | kwNode => "kw_node"
  | kwEdge => "kw_edge"
  | kwLabels => "kw_labels"
  | kwQuery => "kw_query"
  | kwNot => "kw_not"
  | kwAs => "kw_as"
  | labelDecl => "label_decl"
  | labelKind => "label_kind"
  | label => "label"
  | queryDecl => "query_decl"
  | ruleDecl => "rule_decl"
  | consequence => "consequence"
  | formula => "formula"
  | conjunction => "conjunction"
  | literal => "literal"
  | negation => "negation"
  | group => "group"
  | comparison => "comparison"
  | compareOp => "compare_op"
  | predicate => "predicate"
  | term => "term"
  | float => "float"
  | integer => "integer"
  | string => "string"
  | stringInner => "string_inner"
  | wildcard => "wildcard"
  | var => "variable"
  | ident => "ident"
  | identChar => "ident_char"
  | whitespace => "WHITESPACE"
  | comment => "COMMENT"
  | eoi => "EOI"

namespace Pair

def rule : Pair → Rule
  | mk r _ _ _ => r

def text : Pair → String
  | mk _ t _ _ => t

def span : Pair → Span
  | mk _ _ s _ => s

def inner : Pair → List Pair
  | mk _ _ _ ps => ps

def stringValue (p : Pair) : String :=
  match p.inner with
  | [] => ""
  | q :: _ => String.ofList (Text.decode q.text.toList)

def argKind (p : Pair) : Except Defect ArgKind :=
  match p.rule with
  | .var => .ok (.var p.text)
  | .wildcard => .ok .wildcard
  | .ident => .ok (.symbol p.text)
  | .string => .ok (.quoted p.stringValue)
  | .integer =>
    if fitsWord (Script.intValue p.text) then .ok (.int (Script.intValue p.text))
    else .error (.oversized p.text p.span)
  | .float =>
    match Binary64.read? p.text.toList with
    | some x => .ok (.float x)
    | none => .error (.unexpected ("invalid number `" ++ p.text ++ "`") p.span)
  | r => .error (.unexpected ("unexpected " ++ r.name) p.span)

def arg (p : Pair) : Except Defect Arg := do
  let kind ← p.argKind
  pure ⟨kind, p.span⟩

def call (p : Pair) : Except Defect Call :=
  match p.inner with
  | [] => .error (.missing "predicate name")
  | q :: qs => do
    let args ← qs.mapM arg
    pure ⟨q.text, args, p.span⟩

def comparison (p : Pair) : Except Defect Comparison :=
  match p.inner with
  | [] => .error (.missing "comparison")
  | l :: qs => do
    let left ← l.arg
    match qs with
    | [] => .error (.missing "comparison operator")
    | o :: rs =>
      match Comparator.ofSymbol? o.text with
      | none => .error (.missing "comparison operator")
      | some op =>
        match rs with
        | [] => .error (.missing "comparison")
        | r :: _ => do
          let right ← r.arg
          pure ⟨op, left, right, p.span⟩

mutual

def formula : Pair → Except Defect Formula
  | mk _ _ span inner => do
    let ds ← disjuncts inner
    pure (.mk ds span)

def disjuncts : List Pair → Except Defect (List (List Literal))
  | [] => pure []
  | mk _ _ _ inner :: ps => do
    let ls ← literals inner
    let ds ← disjuncts ps
    pure (ls :: ds)

def literals : List Pair → Except Defect (List Literal)
  | [] => pure []
  | p :: ps => do
    let l ← literal p
    let ls ← literals ps
    pure (l :: ls)

def literal : Pair → Except Defect Literal
  | mk .predicate text span inner => .call <$> call (mk .predicate text span inner)
  | mk .group _ _ inner => .group <$> grouped inner
  | mk .negation _ span inner => do
    let f ← denied inner
    pure (.negated f span)
  | mk .comparison text span inner => .compare <$> comparison (mk .comparison text span inner)
  | mk r _ span _ => .error (.unexpected ("unexpected " ++ r.name) span)

def grouped : List Pair → Except Defect Formula
  | [] => .error (.missing "parenthesized formula")
  | p :: _ => formula p

def denied : List Pair → Except Defect Formula
  | [] => .error (.missing "negated formula")
  | mk .group _ _ inner :: _ => grouped inner
  | mk .predicate text span inner :: _ => do
    let c ← call (mk .predicate text span inner)
    pure (.mk [[.call c]] span)
  | _ :: ps => denied ps

end

def labelPart (x : Option String × Option String) (q : Pair) : Option String × Option String :=
  match q.rule with
  | .ident => if x.1.isNone then (some q.text, x.2) else (x.1, some q.text)
  | .string => (some q.stringValue, x.2)
  | _ => x

def label (p : Pair) : Except Defect Label :=
  let parts := p.inner.foldl labelPart (none, none)
  match parts.1 with
  | none => .error (.missing "label value")
  | some value => .ok ⟨value, parts.2, p.span⟩

def labelDeclPart (x : Option LabelKind × List Label) (q : Pair) :
    Except Defect (Option LabelKind × List Label) :=
  match q.rule with
  | .labelKind => .ok (some (if "edge".toList.isPrefixOf q.text.toList then .edge else .node), x.2)
  | .label => do
    let l ← q.label
    pure (x.1, x.2 ++ [l])
  | _ => .ok x

def labelDecl (p : Pair) : Except Defect LabelDecl := do
  let parts ← p.inner.foldlM labelDeclPart (none, [])
  match parts.1 with
  | none => .error (.missing "label kind")
  | some kind => pure ⟨kind, parts.2, p.span⟩

def queryPart (x : Option (String × Span) × Option Formula) (q : Pair) :
    Except Defect (Option (String × Span) × Option Formula) :=
  match q.rule with
  | .ident => .ok (some (q.text, q.span), x.2)
  | .formula => do
    let f ← q.formula
    pure (x.1, some f)
  | _ => .ok x

def query (p : Pair) : Except Defect Query := do
  let parts ← p.inner.foldlM queryPart (none, none)
  match parts.1 with
  | none => .error (.missing "query name")
  | some (name, nameSpan) =>
    match parts.2 with
    | none => .error (.missing "query body")
    | some body => pure ⟨name, nameSpan, body, p.span⟩

def rulePart (x : Option Formula × List Call) (q : Pair) :
    Except Defect (Option Formula × List Call) :=
  match q.rule with
  | .formula => do
    let f ← q.formula
    pure (some f, x.2)
  | .consequence => do
    let cs ← q.inner.mapM call
    pure (x.1, x.2 ++ cs)
  | _ => .ok x

def implication (p : Pair) : Except Defect GraphRules.Rule := do
  let parts ← p.inner.foldlM rulePart (none, [])
  match parts.2 with
  | [] => .error (.missing "consequence")
  | c :: cs => pure ⟨parts.1, c :: cs, p.span⟩

def item? (p : Pair) : Option (Except Defect Item) :=
  match p.rule with
  | .labelDecl => some (.labels <$> p.labelDecl)
  | .queryDecl => some (.query <$> p.query)
  | .ruleDecl => some (.rule <$> p.implication)
  | _ => none

/-- What the node of a statement comes to: an item or a diagnostic. Other nodes do not count. -/
def statement? (p : Pair) : Option (Except Diagnostic Item) :=
  match p.rule with
  | .catchAll => some (.error (Script.Fault.diagnostic (.malformed p.text) p.span))
  | _ => p.item?.map (Except.mapError Defect.diagnostic)

end Pair

def itemOf? : Except Diagnostic Item → Option Item
  | .ok i => some i
  | .error _ => none

def diagnosticOf? : Except Diagnostic Item → Option Diagnostic
  | .ok _ => none
  | .error d => some d

def scriptOf : List Pair → Except (List Diagnostic) Script
  | [] => .error [Defect.diagnostic (.missing "script")]
  | p :: _ =>
    let outcomes := p.inner.filterMap Pair.statement?
    match outcomes.filterMap diagnosticOf? with
    | [] => .ok ⟨outcomes.filterMap itemOf?⟩
    | ds => .error ds

def goalOf : List Pair → Except Defect Formula
  | [] => .error (.missing "goal")
  | p :: _ =>
    match p.inner.find? fun q => q.rule = .formula with
    | none => .error (.missing "goal")
    | some q => q.formula

end GraphRules.Grammar
