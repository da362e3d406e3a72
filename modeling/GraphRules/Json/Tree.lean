import GraphRules.Number.Basic

/-! JSON as it is read: a tree that holds everything up to the first fault in the text, so that
whoever takes it apart from left to right meets faults in the order of the text. -/
namespace GraphRules.Json

inductive Fault where
  /-- The text ends too early. -/
  | truncated
  /-- The text is no JSON. -/
  | malformed
  /-- The value is not of the shape asked for. -/
  | mismatch
  deriving DecidableEq, Inhabited

/-- Where reading stopped. Values that nobody asks for are only passed over, so that the fault found
there can be another one. -/
structure Stop where
  /-- The fault of a value that is held. -/
  held : Fault
  /-- The fault of a value that is passed over. -/
  passed : Fault
  deriving DecidableEq, Inhabited

def Stop.both (f : Fault) : Stop := ⟨f, f⟩

structure Literal where
  negative : Bool
  whole : List Char
  /-- The digits after the point, if there is one. -/
  fraction? : Option (List Char)
  /-- The exponent, with its sign apart, if there is one. -/
  exponent? : Option (Bool × List Char)

inductive Tree where
  | null
  | bool (b : Bool)
  | number (n : Literal)
  /-- A string; none when an escape in it stands for no character. -/
  | string (s : Option String)
  /-- The elements, and the stop that stands where a comma or the closing bracket should. -/
  | array (elements : List Tree) (ending : Option Stop)
  /-- The members; a name is none like a string. -/
  | object (members : List (Option String × Tree)) (ending : Option Stop)
  | stop (s : Stop)
  deriving Inhabited

namespace Literal

def significandLimit : Nat := 1 <<< 64 - 1

/-- Appends digits as long as the significand stays below its limit. Gives the significand, the
number of digits appended and whether some were left out. -/
def append : Nat → Nat → List Char → Nat × Nat × Bool
  | s, k, [] => (s, k, false)
  | s, k, c :: cs =>
    let s' := 10 * s + (c.toNat - '0'.toNat)
    if significandLimit < s' then (s, k, true) else append s' (k + 1) cs

def powerOfTen (n : Nat) : Binary64 := .ofDecimal false 1 n

/-- A significand times a power of ten, the two being rounded before they are multiplied or divided.
Large negative powers are applied in several steps, at most `fuel`. -/
def scale : Nat → Binary64 → Int → Option Binary64
  | 0, x, _ => some x
  | fuel + 1, x, e =>
    if e.natAbs ≤ 308 then
      if 0 ≤ e then
        let y := x.mul (powerOfTen e.toNat)
        if y.isInfinite then none else some y
      else some (x.div (powerOfTen e.natAbs))
    else if x.scaled = 0 then some x
    else if 0 ≤ e then none
    else scale fuel (x.div (powerOfTen 308)) (e + 308)

def exponentLimit : Nat := 1 <<< 31 - 1

def signedFloat (negative : Bool) (x : Binary64) : Binary64 := .withSign negative x.pattern

/-- The value of a number with a point or an exponent, or too long to be whole; none if it is too
large. -/
def float? (n : Literal) : Option Binary64 :=
  let (s, k, long) := append 0 0 n.whole
  let before : Int := if long then (n.whole.length - k : Nat) else 0
  let (s, k, _) := append s 0 (n.fraction?.getD [])
  let e := before - k
  let e? : Option Int := match n.exponent? with
    | none => some e
    | some (negative, ds) =>
      let m := digitsValue ds
      if exponentLimit < m then none else some (if negative then e - m else e + m)
  match e? with
  | some e => (scale 8 (.ofRatio false s 1) e).map (signedFloat n.negative)
  | none =>
    -- the exponent alone decides
    let upwards : Bool := match n.exponent? with
      | some (negative, _) => !negative
      | none => true
    if s ≠ 0 && upwards then none else some (.zero n.negative)

/-- The value of a number; none if it is too large. Whole numbers are kept exactly when they fit a
word of 64 bits, signed if they are negative; minus zero is a floating-point number. -/
def value? (n : Literal) : Option Number :=
  let w := digitsValue n.whole
  if n.fraction?.isNone && n.exponent?.isNone then
    if n.negative then
      if 0 < w && w ≤ 1 <<< 63 then some (.int (-(w : Int)))
      else n.float?.map .float
    else if w ≤ significandLimit then some (.int w)
    else n.float?.map .float
  else n.float?.map .float

end Literal

end GraphRules.Json
