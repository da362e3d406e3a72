import GraphRules.Yaml.Lexer

/-! YAML documents as trees. An alias stands for the node with its anchor, and is followed only when
the document is taken apart: it may stand for a node around it. -/
namespace GraphRules.Yaml

structure Properties where
  tag? : Option Tag := none
  anchor? : Option Nat := none
  deriving DecidableEq, Inhabited

inductive Node where
  | scalar (properties : Properties) (written : Written) (text : String)
  | sequence (properties : Properties) (items : List Node)
  | mapping (properties : Properties) (entries : List (Node × Node))
  | alias (anchor : Nat)
  deriving Inhabited

namespace Node

def absent : Node := .scalar {} .plain ""

mutual

def anchored : Node → List (Nat × Node)
  | .alias _ => []
  | .scalar p w s => p.anchor?.toList.map (·, .scalar p w s)
  | .sequence p ns => p.anchor?.toList.map (·, .sequence p ns) ++ anchoredItems ns
  | .mapping p es => p.anchor?.toList.map (·, .mapping p es) ++ anchoredEntries es

def anchoredItems : List Node → List (Nat × Node)
  | [] => []
  | n :: ns => n.anchored ++ anchoredItems ns

def anchoredEntries : List (Node × Node) → List (Nat × Node)
  | [] => []
  | (k, v) :: es => k.anchored ++ v.anchored ++ anchoredEntries es

end

mutual

def size : Node → Nat
  | .alias _ => 1
  | .scalar _ _ _ => 1
  | .sequence _ ns => 2 + sizeItems ns
  | .mapping _ es => 2 + sizeEntries es

def sizeItems : List Node → Nat
  | [] => 0
  | n :: ns => n.size + sizeItems ns

def sizeEntries : List (Node × Node) → Nat
  | [] => 0
  | (k, v) :: es => k.size + v.size + sizeEntries es

end

end Node

structure Composer where
  tokens : List Token
  /-- The number of each anchor, the last one first. -/
  anchors : List (String × Nat) := []
  /-- How many names anchors have. -/
  names : Nat := 0
  handles : List (String × Tag) := []
  deriving Inhabited

abbrev Composing (α : Type) := Composer → Option (α × Composer)

namespace Composer

def peek (c : Composer) : Option Token := c.tokens.head?

def drop (c : Composer) : Composer := { c with tokens := c.tokens.tail }

def at? (c : Composer) (t : Token) : Bool := c.peek = some t

def atAny (c : Composer) (ts : List Token) : Bool :=
  match c.peek with
  | some t => t ∈ ts
  | none => true

/-- Numbers an anchor by the names before it. One with a name that was there before takes the number
that the next new name gets too. -/
def setAnchor (c : Composer) (name : String) : Composer :=
  { c with
    anchors := (name, c.names) :: c.anchors
    names := if (c.anchors.lookup name).isSome then c.names else c.names + 1 }

def announced (c : Composer) : Option String × Option (String × Tag) × Composer :=
  match c.tokens with
  | .anchor a :: .tag h s :: rest => (some a, some (h, s), { c with tokens := rest })
  | .tag h s :: .anchor a :: rest => (some a, some (h, s), { c with tokens := rest })
  | .anchor a :: rest => (some a, none, { c with tokens := rest })
  | .tag h s :: rest => (none, some (h, s), { c with tokens := rest })
  | _ => (none, none, c)

def standardHandles : List (String × Tag) := [("!", .mark), ("!!", .ofString "tag:yaml.org,2002:")]

def fullTag (c : Composer) (handle : String) (suffix : Tag) : Option Tag :=
  if handle.isEmpty then some suffix
  else ((c.handles ++ standardHandles).lookup handle).map (·.append suffix)

def properties (c : Composer) : Option (Properties × Composer) := do
  let (name?, given?, c) := c.announced
  let tag? ← match given? with
    | some (h, s) => (c.fullTag h s).map some
    | none => some none
  match name? with
  | some name => pure (⟨tag?, some c.names⟩, c.setAnchor name)
  | none => pure (⟨tag?, none⟩, c)

end Composer

mutual

/-- A node. Blocks are allowed outside of brackets, and a sequence may start without indentation
where it is the value or the key of a mapping. -/
def readNode (inBlock flush : Bool) : Nat → Composing Node
  | 0, _ => none
  | fuel + 1, c =>
    match c.peek with
    | some (.alias name) => (c.anchors.lookup name).map fun n => (.alias n, c.drop)
    | _ => do
      let (p, c) ← c.properties
      match c.peek with
      | some (.scalar w s) => pure (.scalar p w s, c.drop)
      | some .flowSequence =>
        let (ns, c) ← readFlowSequence true fuel c.drop
        pure (.sequence p ns, c)
      | some .flowMapping =>
        let (es, c) ← readFlowMapping true fuel c.drop
        pure (.mapping p es, c)
      | t? =>
        if flush && t? = some .entry then do
          let (ns, c) ← readFlushSequence fuel c
          pure (.sequence p ns, c)
        else if inBlock && t? = some .blockSequence then do
          let (ns, c) ← readBlockSequence fuel c.drop
          pure (.sequence p ns, c)
        else if inBlock && t? = some .blockMapping then do
          let (es, c) ← readBlockMapping fuel c.drop
          pure (.mapping p es, c)
        else if p = {} then none
        else pure (.scalar p .plain "", c)

def readNodeUnless (ends : List Token) (inBlock flush : Bool) : Nat → Composing Node
  | 0, _ => none
  | fuel + 1, c => if c.atAny ends then some (.absent, c) else readNode inBlock flush fuel c

def readBlockSequence : Nat → Composing (List Node)
  | 0, _ => none
  | fuel + 1, c =>
    match c.peek with
    | some .entry => do
      let (n, c) ← readNodeUnless [.entry, .blockEnd] true false fuel c.drop
      let (ns, c) ← readBlockSequence fuel c
      pure (n :: ns, c)
    | some .blockEnd => some ([], c.drop)
    | _ => none

def readFlushSequence : Nat → Composing (List Node)
  | 0, _ => none
  | fuel + 1, c =>
    match c.peek with
    | some .entry => do
      let (n, c) ← readNodeUnless [.entry, .key, .value, .blockEnd] true false fuel c.drop
      let (ns, c) ← readFlushSequence fuel c
      pure (n :: ns, c)
    | _ => some ([], c)

def readBlockMapping : Nat → Composing (List (Node × Node))
  | 0, _ => none
  | fuel + 1, c =>
    match c.peek with
    | some .key => do
      let (k, c) ← readNodeUnless [.key, .value, .blockEnd] true true fuel c.drop
      let (v, c) ←
        if c.at? .value then readNodeUnless [.key, .value, .blockEnd] true true fuel c.drop
        else some (.absent, c)
      let (es, c) ← readBlockMapping fuel c
      pure ((k, v) :: es, c)
    | some .blockEnd => some ([], c.drop)
    | _ => none

/-- The items up to the closing bracket. A key in them is a mapping with one entry. -/
def readFlowSequence (first : Bool) : Nat → Composing (List Node)
  | 0, _ => none
  | fuel + 1, c =>
    if c.at? .flowSequenceEnd then some ([], c.drop)
    else if !first && !c.at? .comma then none
    else
      let c := if first then c else c.drop
      match c.peek with
      | some .flowSequenceEnd => some ([], c.drop)
      | some .key => do
        let c := c.drop
        let (k, c) ←
          if c.atAny [.value, .comma, .flowSequenceEnd] then some (.absent, c.drop)
          else readNode false false fuel c
        let (v, c) ←
          if c.at? .value then readNodeUnless [.comma, .flowSequenceEnd] false false fuel c.drop
          else some (.absent, c)
        let (ns, c) ← readFlowSequence false fuel c
        pure (.mapping {} [(k, v)] :: ns, c)
      | _ => do
        let (n, c) ← readNode false false fuel c
        let (ns, c) ← readFlowSequence false fuel c
        pure (n :: ns, c)

def readFlowMapping (first : Bool) : Nat → Composing (List (Node × Node))
  | 0, _ => none
  | fuel + 1, c =>
    if c.at? .flowMappingEnd then some ([], c.drop)
    else if !first && !c.at? .comma then none
    else
      let c := if first then c else c.drop
      match c.peek with
      | some .flowMappingEnd => some ([], c.drop)
      | some .key => do
        let (k, c) ← readNodeUnless [.value, .comma, .flowMappingEnd] false false fuel c.drop
        let (v, c) ←
          if c.at? .value then readNodeUnless [.comma, .flowMappingEnd] false false fuel c.drop
          else some (.absent, c)
        let (es, c) ← readFlowMapping false fuel c
        pure ((k, v) :: es, c)
      | _ => do
        let (k, c) ← readNode false false fuel c
        let (es, c) ← readFlowMapping false fuel c
        pure ((k, .absent) :: es, c)

end

/-- The directives before a document. The version is given once and each handle is declared once. -/
def readDirectives :
    List Token → Bool → List (String × Tag) → Option (List (String × Tag) × List Token)
  | .version major minor :: ts, seen, hs =>
    if seen || major ≠ 1 || (minor ≠ 1 && minor ≠ 2) then none else readDirectives ts true hs
  | .tagPrefix h s :: ts, seen, hs =>
    if (hs.lookup h).isSome then none else readDirectives ts seen (hs ++ [(h, s)])
  | ts, _, hs => some (hs, ts)

def isDirective : Token → Bool
  | .version _ _ => true
  | .tagPrefix _ _ => true
  | _ => false

def atStreamEnd (ts : List Token) : Bool := ts.all (· = .documentEnd)

def readContent (c : Composer) : Option (Node × Composer) :=
  match c.peek with
  | none => some (.absent, c)
  | some t =>
    if isDirective t || t = .documentStart || t = .documentEnd then some (.absent, c)
    else readNode true false (3 * c.tokens.length + 3) c

structure Document where
  root : Node
  /-- The nodes that aliases stand for, by the numbers of their anchors. -/
  targets : Array Node
  size : Nat
  deriving Inhabited

namespace Document

def setTarget (targets : Array Node) (t : Nat × Node) : Array Node :=
  if t.1 < targets.size then targets.setIfInBounds t.1 t.2 else targets.push t.2

def ofNode (n : Node) : Document := ⟨n, n.anchored.foldl setTarget #[], n.size⟩

/-- The document of a text. A text holds at most one; without one, nothing is written. -/
def ofText (text : String) : Option Document := do
  let ts ← tokens text
  match ts with
  | [] => pure (ofNode .absent)
  | t :: rest =>
    let (n, c) ←
      if isDirective t || t = .documentStart then do
        let (handles, ts) ← readDirectives (t :: rest) false []
        match ts with
        | .documentStart :: ts => readContent { tokens := ts, handles }
        | _ => none
      else readNode true false (3 * rest.length + 6) { tokens := t :: rest }
    if atStreamEnd c.tokens then pure (ofNode n) else none

end Document

end GraphRules.Yaml
