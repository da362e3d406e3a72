import GraphRules.Encoding
import GraphRules.Yaml.Node

/-! Taking YAML trees apart. Where a text is asked for, every scalar is one; a scalar that is not
written at all is an empty list and a record without fields. -/
namespace GraphRules.Yaml

inductive Fault where
  /-- The text is no YAML, or not of the shape asked for. -/
  | unreadable
  deriving DecidableEq, Inhabited

abbrev Decoding := ReaderT Document (StateT Nat (Except Fault))

def unreadable : Decoding α := throw .unreadable

def ofOption : Option α → Decoding α
  | some a => pure a
  | none => unreadable

def aliasLimit : Nat := 100

def boolTag : Tag := .ofString "tag:yaml.org,2002:bool"

def intTag : Tag := .ofString "tag:yaml.org,2002:int"

def floatTag : Tag := .ofString "tag:yaml.org,2002:float"

def nullTag : Tag := .ofString "tag:yaml.org,2002:null"

namespace Node

def follow : Node → Decoding Node
  | .alias n => do
    let d ← read
    let followed := (← get) + 1
    set followed
    if aliasLimit * d.size < followed then unreadable else ofOption d.targets[n]?
  | n => pure n

def asString (n : Node) : Decoding String := do
  match ← n.follow with
  | .scalar _ _ s => pure s
  | _ => unreadable

/-- The text of a scalar that may stand for a value of the kind of a tag: a plain one, or a block
with that tag. -/
def typedText? (tag : Tag) : Node → Option String
  | .scalar _ .plain s => some s
  | .scalar p .literal s => if p.tag? = some tag then some s else none
  | _ => none

def asBool (n : Node) : Decoding Bool :=
  do ofOption (((← n.follow).typedText? boolTag).bind boolWord?)

def asNat (n : Node) : Decoding Nat := do ofOption (((← n.follow).typedText? intTag).bind word?)

/-- Whether a node stands for no value: null, or a scalar that is not written. None if it should be
null by its tag and is not. -/
def isNull? : Node → Option Bool
  | .scalar p .plain s =>
    match p.tag? with
    | none => some (s.isEmpty || isNullWord s)
    | some t => if t = nullTag then if isNullWord s then some true else none else some false
  | _ => some false

def asOption (f : Node → Decoding α) (n : Node) : Decoding (Option α) := do
  let n ← n.follow
  if ← ofOption n.isNull? then pure none else pure (some (← f n))

def items? : Node → Option (List Node)
  | .sequence _ ns => some ns
  | .scalar _ .plain "" => some []
  | _ => none

def asList (f : Node → Decoding α) (n : Node) : Decoding (List α) :=
  do (← ofOption (← n.follow).items?).mapM f

def entries? : Node → Option (List (Node × Node))
  | .mapping _ es => some es
  | .scalar _ .plain "" => some []
  | _ => none

def asMembers (f : Node → Decoding α) (n : Node) : Decoding (List (String × α)) := do
  (← ofOption (← n.follow).entries?).mapM fun (k, v) => do pure (← k.asString, ← f v)

/-- Adds the next entry to a record. A field comes once; entries with other names do not matter. -/
def takeField (fields : List (Field Node Decoding σ)) (s : σ) (entry : Node × Node) :
    Decoding σ := do
  let name ← entry.1.asString
  match fields.find? fun f => f.name = name with
  | some f => if f.isSet s then unreadable else f.decode s entry.2
  | none => pure s

def asRecord (fields : List (Field Node Decoding σ)) (s : σ) (n : Node) : Decoding σ := do
  (← ofOption (← n.follow).entries?).foldlM (takeField fields) s

def wholeScalar? (n : Int) : Option Scalar :=
  if -0x8000000000000000 ≤ n ∧ n < 0x10000000000000000 then some (.int n) else none

def plainScalar? (s : String) : Option Scalar :=
  match resolve s with
  | .null => none
  | .bool b => some (.bool b)
  | .int n => wholeScalar? n
  | .float x => some (.float x)
  | .text s => some (.text s)

/-- A scalar with a tag. Tags of one's own are refused, those for kinds of scalars are followed, and
all others make a text. A tag of one's own that is no text says nothing about a plain scalar. -/
def taggedScalar? (t : Tag) (w : Written) (s : String) : Option Scalar :=
  if t.isLocal && t.isText then none
  else if t.isLocal && w = .plain then plainScalar? s
  else if t = boolTag then (boolWord? s).map .bool
  else if t = intTag then (int? s).bind wholeScalar?
  else if t = floatTag then (float? s).map .float
  else if t = nullTag then none
  else some (.text s)

def scalar? : Node → Option Scalar
  | .scalar p w s =>
    match p.tag?, w with
    | none, .plain => plainScalar? s
    | none, _ => some (.text s)
    | some t, w => taggedScalar? t w s
  | _ => none

def asScalar (n : Node) : Decoding Scalar := do ofOption (← n.follow).scalar?

end Node

def encoding : Encoding Node Decoding where
  string := Node.asString
  bool := Node.asBool
  nat := Node.asNat
  option := Node.asOption
  list := Node.asList
  members := Node.asMembers
  record := Node.asRecord
  scalar := fun _ => Node.asScalar
  missing := unreadable

def decode (f : Node → Decoding α) (text : String) : Except Fault α :=
  match Document.ofText text with
  | some d => do pure (← ((f d.root).run d).run 0).1
  | none => .error .unreadable

end GraphRules.Yaml
