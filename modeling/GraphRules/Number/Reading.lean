import GraphRules.Number.Binary64
import GraphRules.Text.Blank

/-! Numbers read from text. -/
namespace GraphRules

def digitsValue (cs : List Char) : Nat :=
  cs.foldl (fun n c => 10 * n + (c.toNat - '0'.toNat)) 0

def splitDigits (cs : List Char) : List Char × List Char := cs.span Char.isDigit

def splitSign : List Char → Bool × List Char
  | '-' :: cs => (true, cs)
  | '+' :: cs => (false, cs)
  | cs => (false, cs)

def signed (negative : Bool) (n : Nat) : Int := if negative then -(n : Int) else n

def fitsWord (n : Int) : Bool := -0x8000000000000000 ≤ n && n < 0x8000000000000000

def readWord? (cs : List Char) : Option Int :=
  let (negative, ds) := splitSign cs
  let n := signed negative (digitsValue ds)
  if ds ≠ [] && ds.all Char.isDigit && fitsWord n then some n else none

namespace Binary64

/-- The exponent at the end of a decimal: nothing, or the letter `e` with a whole number. -/
def readExponent? : List Char → Option Int
  | [] => some 0
  | c :: cs =>
    let (negative, ds) := splitSign cs
    if (c = 'e' || c = 'E') && ds ≠ [] && ds.all Char.isDigit then
      some (signed negative (digitsValue ds))
    else none

def readMagnitude? (negative : Bool) (cs : List Char) : Option Binary64 :=
  let (whole, cs) := splitDigits cs
  let (fraction, cs) := match cs with
    | '.' :: cs => splitDigits cs
    | cs => ([], cs)
  if whole = [] && fraction = [] then none
  else
    (readExponent? cs).map fun e =>
      ofDecimal negative (digitsValue (whole ++ fraction)) (e - fraction.length)

/-- A number with an optional sign: a decimal, or a word for infinity or for no number, in letters
of either case. -/
def read? (cs : List Char) : Option Binary64 :=
  let (negative, cs) := splitSign cs
  match String.ofList (Text.lower cs) with
  | "inf" => some (infinity negative)
  | "infinity" => some (infinity negative)
  | "nan" => some (nan negative)
  | _ => readMagnitude? negative cs

end Binary64

end GraphRules
