import GraphRules.Number.Shortest

/-! How a decimal is laid out as text: plainly, or with an exponent when its first digit stands far
from the point. -/
namespace GraphRules

structure Layout where
  /-- Numbers whose first digit has an exponent in this range are written plainly. -/
  plain : Int → Bool
  /-- A whole number written plainly ends in `.0`. -/
  keepPoint : Bool
  /-- A positive exponent is written with its sign. -/
  signedExponent : Bool
  /-- Which of two equally near decimals is written. -/
  tie : Binary64.Tie

namespace Layout

def script : Layout := ⟨fun e => -4 ≤ e && e < 16, true, false, .up⟩

def plainText : Layout := ⟨fun _ => true, false, false, .up⟩

def json : Layout := ⟨fun e => -5 ≤ e && e < 16, true, true, .even⟩

def placePoint (keepPoint : Bool) (digits : List Char) (whole : Int) : List Char :=
  if whole ≤ 0 then
    '0' :: '.' :: (List.replicate (-whole).toNat '0' ++ digits)
  else
    let n := whole.toNat
    let front := digits.take n ++ List.replicate (n - digits.length) '0'
    match digits.drop n with
    | [] => if keepPoint then front ++ ['.', '0'] else front
    | back => front ++ '.' :: back

def writeExponent (signed : Bool) (e : Int) : List Char :=
  'e' :: ((if e < 0 then ['-'] else if signed then ['+'] else []) ++ Nat.toDigits 10 e.natAbs)

def write (l : Layout) (d : Decimal) : List Char :=
  let e := d.leading
  if l.plain e then placePoint l.keepPoint d.text (e + 1)
  else
    let front := match d.text with
      | first :: c :: cs => first :: '.' :: c :: cs
      | cs => cs
    front ++ writeExponent l.signedExponent e

def render (l : Layout) (x : Binary64) : String :=
  if x.isNaN then "NaN"
  else
    let sign := if x.isNegative then ['-'] else []
    if x.isInfinite then String.ofList (sign ++ ['i', 'n', 'f'])
    else if x.scaled = 0 then
      String.ofList (sign ++ (if l.keepPoint then ['0', '.', '0'] else ['0']))
    else String.ofList (sign ++ l.write (x.shortest l.tie))

end Layout

end GraphRules
