import GraphRules.Number.Binary64

/-! The shortest decimal that reads back as a given binary number. -/
namespace GraphRules

structure Decimal where
  digits : Nat
  exponent : Int
  deriving DecidableEq

namespace Decimal

/-- Moves zeros at the end of the digits into the exponent. At most `fuel` zeros are moved. -/
def trim : Nat → Decimal → Decimal
  | 0, d => d
  | fuel + 1, d =>
    if d.digits ≠ 0 ∧ d.digits % 10 = 0 then trim fuel ⟨d.digits / 10, d.exponent + 1⟩ else d

def leading (d : Decimal) : Int := d.exponent + Binary64.digitCount d.digits - 1

def text (d : Decimal) : List Char := Nat.toDigits 10 d.digits

end Decimal

namespace Binary64

/-- Which of two equally near decimals is taken: the larger one, or the one with an even last digit.
-/
inductive Tie where
  | up | even
  deriving DecidableEq, Inhabited

structure Interval where
  low : Nat
  value : Nat
  high : Nat
  closed : Bool

/-- Below a power of two the next number is only half as far away. -/
def interval (x : Binary64) : Interval :=
  let step := 1 <<< x.shift
  let value := 4 * x.scaled
  let below := if x.significand = 1 <<< 52 ∧ 0 < x.shift then step else 2 * step
  { low := value - below, value := value, high := value + 2 * step
    closed := x.significand % 2 = 0 }

def Interval.contains (i : Interval) (num den : Nat) : Bool :=
  if i.closed then decide (i.low * den ≤ num) && decide (num ≤ i.high * den)
  else decide (i.low * den < num) && decide (num < i.high * den)

def decimalExponent (x : Binary64) : Int :=
  (digitCount ((x.scaled * Nat.pow 10 340) >>> unitExponent) : Int) - 341

/-- The nearer of the two neighbours of the number on the grid of multiples of `10 ^ e`, of those
that round to it. -/
def onGrid (tie : Tie) (x : Binary64) (e : Int) : Option Decimal :=
  let i := x.interval
  let num := if e < 0 then Nat.pow 10 (-e).toNat else 1
  let den := (if e < 0 then 1 else Nat.pow 10 e.toNat) <<< (unitExponent + 2)
  -- the number is `i.value * num / den` steps of the grid
  let down := i.value * num / den
  let up := down + 1
  let fits (d : Nat) : Bool := i.contains (d * den) num
  let twice := 2 * (i.value * num % den)
  let nearUp : Bool := den < twice || (den = twice && (tie = .up || down % 2 = 1))
  if fits down && (!fits up || !nearUp) then some ⟨down, e⟩
  else if fits up then some ⟨up, e⟩
  else none

def shortest (tie : Tie) (x : Binary64) : Decimal :=
  let top := x.decimalExponent
  match (List.range 17).findSome? (fun (n : Nat) => x.onGrid tie (top - n)) with
  | some d => d.trim 400
  | none => ⟨0, 0⟩

end Binary64

end GraphRules
