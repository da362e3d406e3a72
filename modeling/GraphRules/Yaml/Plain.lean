import GraphRules.Number.Basic

/-! What plain YAML scalars stand for. -/
namespace GraphRules.Yaml

inductive Plain where
  | null
  | bool (b : Bool)
  | int (n : Int)
  | float (x : Binary64)
  | text (s : String)
  deriving DecidableEq, Inhabited

def isNullWord (s : String) : Bool := s ∈ ["null", "Null", "NULL", "~"]

def boolWord? (s : String) : Option Bool :=
  if s ∈ ["true", "True", "TRUE"] then some true
  else if s ∈ ["false", "False", "FALSE"] then some false
  else none

def digitValue? (base : Nat) (c : Char) : Option Nat :=
  let n? : Option Nat :=
    if c.isDigit then some (c.toNat - '0'.toNat)
    else if 'a' ≤ c && c ≤ 'f' then some (c.toNat - 'a'.toNat + 10)
    else if 'A' ≤ c && c ≤ 'F' then some (c.toNat - 'A'.toNat + 10)
    else none
  n?.filter (· < base)

def natIn? (base : Nat) (cs : List Char) : Option Nat :=
  if cs.isEmpty then none
  else cs.foldlM (fun n c => (digitValue? base c).map (n * base + ·)) 0

/-- A zero followed by more digits is no number. -/
def isPaddedNumber (cs : List Char) : Bool :=
  match (splitSign cs).2 with
  | '0' :: c :: cs => (c :: cs).all Char.isDigit
  | _ => false

/-- The magnitude of a whole number: hexadecimal, octal or binary after a mark, else decimal. The
decimal digits are given with the sign to tell whether they are padded. -/
def magnitude? (signedDigits ds : List Char) : Option Nat :=
  let decimal := if isPaddedNumber signedDigits then none else natIn? 10 ds
  match ds with
  | '0' :: 'x' :: rest => natIn? 16 rest <|> decimal
  | '0' :: 'o' :: rest => natIn? 8 rest <|> decimal
  | '0' :: 'b' :: rest => natIn? 2 rest <|> decimal
  | _ => decimal

def word? (s : String) : Option Nat :=
  let cs := s.toList
  let ds := match cs with
    | '+' :: ds => ds
    | ds => ds
  (magnitude? cs ds).filter (· < 1 <<< 64)

def int? (s : String) : Option Int :=
  let cs := s.toList
  match cs with
  | '-' :: ds => ((magnitude? cs ds).filter (· ≤ 1 <<< 127)).map fun n => -(n : Int)
  | '+' :: ds => ((magnitude? cs ds).filter (· < 1 <<< 128)).map Int.ofNat
  | ds => ((magnitude? cs ds).filter (· < 1 <<< 128)).map Int.ofNat

def float? (s : String) : Option Binary64 :=
  let cs := s.toList
  let unsigned := match cs with
    | '+' :: ds => ds
    | ds => ds
  let doubled : Bool := match cs with
    | '+' :: c :: _ => c = '+' || c = '-'
    | _ => false
  if doubled then none
  else if String.ofList unsigned ∈ [".inf", ".Inf", ".INF"] then some (.infinity false)
  else if s ∈ ["-.inf", "-.Inf", "-.INF"] then some (.infinity true)
  else if s ∈ [".nan", ".NaN", ".NAN"] then some (.nan false)
  else (Binary64.read? unsigned).filter Binary64.isFinite

def resolve (s : String) : Plain :=
  if s.isEmpty || isNullWord s then .null
  else
    match boolWord? s with
    | some b => .bool b
    | none =>
      match int? s with
      | some n => .int n
      | none =>
        if isPaddedNumber s.toList then .text s
        else
          match float? s with
          | some x => .float x
          | none => .text s

end GraphRules.Yaml
