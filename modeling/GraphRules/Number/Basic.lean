import GraphRules.Number.Layout
import GraphRules.Number.Reading

/-! Number constants: whole numbers and binary floating-point numbers. Two constants are equal only
when they are of one kind and the same to the bit; comparisons look at the value. -/
namespace GraphRules

inductive Number where
  | int (value : Int)
  | float (value : Binary64)
  deriving DecidableEq, Hashable, Inhabited

namespace Number

def toBinary64 : Number → Binary64
  | .int n => .ofInt n
  | .float x => x

/-- The order of two values, none when one of them is no number. Whole numbers are compared exactly,
and a mixed pair as floating-point numbers. -/
def compare? : Number → Number → Option Ordering
  | .int a, .int b => some (compare a b)
  | a, b => a.toBinary64.compare? b.toBinary64

def sameValue : Number → Number → Bool
  | .int a, .int b => a = b
  | a, b => a.toBinary64.sameValue b.toBinary64

def text : Number → String
  | .int n => toString n
  | .float x => Layout.script.render x

/-- The number a text stands for: a whole number if it is one, else a floating-point number. Blanks
around it do not count. -/
def read? (s : String) : Option Number :=
  let cs := Text.trimBlanks s.toList
  match readWord? cs with
  | some n => some (.int n)
  | none => (Binary64.read? cs).map .float

end Number

end GraphRules
