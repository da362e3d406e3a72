import GraphRules.Encoding
import GraphRules.Json.Reader

/-! Taking JSON trees apart from left to right. The first fault that is met is the answer. -/
namespace GraphRules.Json

abbrev Decoded := Except Fault

namespace Tree

/-- The fault of a tree that is not of the kind asked for. A number too large to be held is
malformed before it is of the wrong kind. -/
def unfit : Tree → Fault
  | .stop s => s.held
  | .number n => if n.value?.isNone then .malformed else .mismatch
  | .string none => .malformed
  | _ => .mismatch

def asString : Tree → Decoded String
  | .string (some s) => .ok s
  | t => .error t.unfit

def asBool : Tree → Decoded Bool
  | .bool b => .ok b
  | t => .error t.unfit

def asNat : Tree → Decoded Nat
  | .number n =>
    match n.value? with
    | some (.int (.ofNat k)) => .ok k
    | some _ => .error .mismatch
    | none => .error .malformed
  | t => .error t.unfit

def asOption (f : Tree → Decoded α) : Tree → Decoded (Option α)
  | .null => .ok none
  | t => (f t).map some

def nameOf : Option String → Decoded String
  | some s => .ok s
  | none => .error .malformed

def checkEnd : Option Stop → Decoded Unit
  | none => .ok ()
  | some s => .error s.held

def asList (f : Tree → Decoded α) : Tree → Decoded (List α)
  | .array elements ending => do
    let as ← elements.mapM f
    checkEnd ending
    pure as
  | t => .error t.unfit

def asMembers (f : Tree → Decoded α) : Tree → Decoded (List (String × α))
  | .object members ending => do
    let ms ← members.mapM fun (name?, t) => do pure (← nameOf name?, ← f t)
    checkEnd ending
    pure ms
  | t => .error t.unfit

def skipEnd : Option Stop → Decoded Unit
  | none => .ok ()
  | some s => .error s.passed

mutual

/-- Passes over a tree that nobody asked for: only what is no JSON at all is a fault. -/
def skip : Tree → Decoded Unit
  | .stop s => .error s.passed
  | .array elements ending => do
    skipAll elements
    skipEnd ending
  | .object members ending => do
    skipMembers members
    skipEnd ending
  | _ => .ok ()

def skipAll : List Tree → Decoded Unit
  | [] => .ok ()
  | t :: ts => do
    t.skip
    skipAll ts

def skipMembers : List (Option String × Tree) → Decoded Unit
  | [] => .ok ()
  | (_, t) :: ms => do
    t.skip
    skipMembers ms

end

/-- Brackets and braces nested so deep are refused where a value is held. -/
def depthLimit : Nat := 128

mutual

def hold (depth : Nat) : Tree → Decoded Unit
  | .stop s => .error s.held
  | .number n => if n.value?.isNone then .error .malformed else .ok ()
  | .string none => .error .malformed
  | .array elements ending =>
    if depthLimit ≤ depth + 1 then .error .malformed
    else do
      holdAll (depth + 1) elements
      checkEnd ending
  | .object members ending =>
    if depthLimit ≤ depth + 1 then .error .malformed
    else do
      holdMembers (depth + 1) members
      checkEnd ending
  | _ => .ok ()

def holdAll (depth : Nat) : List Tree → Decoded Unit
  | [] => .ok ()
  | t :: ts => do
    t.hold depth
    holdAll depth ts

def holdMembers (depth : Nat) : List (Option String × Tree) → Decoded Unit
  | [] => .ok ()
  | (name?, t) :: ms => do
    let _ ← nameOf name?
    t.hold depth
    holdMembers depth ms

end

end Tree

/-- Adds the next member to a record. A field comes once; members with other names do not matter. -/
def takeField (fields : List (Field Tree Decoded σ)) (s : σ) (member : Option String × Tree) :
    Decoded σ := do
  let name ← Tree.nameOf member.1
  match fields.find? fun f => f.name = name with
  | some f => if f.isSet s then .error .mismatch else f.decode s member.2
  | none => do
    member.2.skip
    pure s

def takeFields : List (Field Tree Decoded σ) → σ → List Tree → Option Stop → Decoded σ
  | f :: fs, s, t :: ts, ending => do takeFields fs (← f.decode s t) ts ending
  | [], _, _ :: _, _ => .error .malformed
  | _, s, [], none => .ok s
  | _, _, [], some stop => .error stop.held

namespace Tree

/-- A record: an object with its fields by name, or an array with its fields in order. -/
def asRecord (fields : List (Field Tree Decoded σ)) (s : σ) : Tree → Decoded σ
  | .object members ending => do
    let s ← members.foldlM (takeField fields) s
    checkEnd ending
    pure s
  | .array elements ending => takeFields fields s elements ending
  | t => .error t.unfit

/-- A scalar is held whole before its kind is looked at. -/
def asScalar (depth : Nat) (t : Tree) : Decoded Scalar := do
  t.hold depth
  match t with
  | .bool b => pure (.bool b)
  | .string (some s) => pure (.text s)
  | .number n =>
    match n.value? with
    | some (.int i) => pure (.int i)
    | some (.float x) => pure (.float x)
    | none => throw .malformed
  | _ => throw .mismatch

end Tree

def encoding : Encoding Tree Decoded where
  string := Tree.asString
  bool := Tree.asBool
  nat := Tree.asNat
  option := Tree.asOption
  list := Tree.asList
  members := Tree.asMembers
  record := Tree.asRecord
  scalar := Tree.asScalar
  missing := .error .mismatch

def decode (f : Tree → Decoded α) (text : String) : Decoded α := do
  let (t, more) := read text
  let a ← f t
  if more then throw .malformed
  pure a

end GraphRules.Json
