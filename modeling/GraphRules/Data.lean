import GraphRules.Number.Basic

/-! Structured data as it is handed to a written format. -/
namespace GraphRules

inductive Data where
  | null
  | bool (b : Bool)
  | int (n : Int)
  | float (x : Binary64)
  | text (s : String)
  | list (items : List Data)
  /-- Named fields in their order. -/
  | record (fields : List (String × Data))
  /-- A choice between named cases, with what belongs to the case. -/
  | variant (name : String) (content : Data)
  deriving Inhabited

namespace Data

def nat (n : Nat) : Data := .int n

def option (f : α → Data) : Option α → Data
  | none => .null
  | some a => f a

def texts (ss : List String) : Data := .list (ss.map .text)

end Data

end GraphRules
