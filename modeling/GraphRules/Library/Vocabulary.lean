import GraphRules.Term.Text

/-! The predicates a script may use without defining them. -/
namespace GraphRules

inductive Role where
  /-- A fact about the shape of the graph. -/
  | structural
  | attribute
  | numeric
  | boolean
  /-- A name that scripts cannot define. -/
  | reserved
  deriving DecidableEq, Inhabited

def Role.name : Role → String
  | .structural => "structural"
  | .attribute => "attribute"
  | .numeric => "numeric"
  | .boolean => "boolean"
  | .reserved => "reserved"

structure Vocabulary where
  entries : List (Signature × Role) := []
  deriving Inhabited

namespace Vocabulary

def before (a b : Signature) : Bool := a.name < b.name || (a.name = b.name && a.arity < b.arity)

def insertEntry (s : Signature) (r : Role) : List (Signature × Role) → List (Signature × Role)
  | [] => [(s, r)]
  | (t, q) :: rest =>
    if t = s then (s, r) :: rest
    else if before s t then (s, r) :: (t, q) :: rest
    else (t, q) :: insertEntry s r rest

def insert (v : Vocabulary) (s : Signature) (r : Role) : Vocabulary := ⟨insertEntry s r v.entries⟩

def role? (v : Vocabulary) (s : Signature) : Option Role := v.entries.lookup s

def containsName (v : Vocabulary) (name : String) : Bool := v.entries.any fun e => e.1.name = name

def arities (v : Vocabulary) (name : String) : List Nat :=
  (v.entries.filter fun e => e.1.name = name).map fun e => e.1.arity

end Vocabulary

end GraphRules
