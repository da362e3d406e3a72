import GraphRules.Engine.Search
import GraphRules.Graph.Load

/-! Settings of the command line, each with a default. -/
namespace GraphRules

structure Settings where
  limits : Limits := {}
  /-- More alternatives than this in one statement give a warning. -/
  expansionThreshold : Nat := 16
  color : Bool := true
  deriving DecidableEq, Inhabited

namespace Settings

variable {τ : Type} {m : Type → Type} [Monad m]

structure SearchFields where
  depth? : Option Nat := none
  solutions? : Option (Option Nat) := none

def searchFields (e : Encoding τ m) : List (Field τ m SearchFields) :=
  [⟨"max_depth", fun s => s.depth?.isSome,
    fun s t => do pure { s with depth? := some (← e.nat t) }⟩,
    ⟨"max_solutions", fun s => s.solutions?.isSome, fun s t => do
      pure { s with solutions? := some (← e.option e.nat t) }⟩]

def decodeLimits (e : Encoding τ m) (t : τ) : m Limits := do
  let s ← e.record (searchFields e) {} t
  let limits : Limits := {}
  pure ⟨s.depth?.getD limits.depth, s.solutions?.getD limits.solutions?⟩

def thresholdFields (e : Encoding τ m) : List (Field τ m (Option Nat)) :=
  [⟨"expansion_warning", Option.isSome, fun _ t => do pure (some (← e.nat t))⟩]

def colorFields (e : Encoding τ m) : List (Field τ m (Option Bool)) :=
  [⟨"color", Option.isSome, fun _ t => do pure (some (← e.bool t))⟩]

structure Sections where
  limits? : Option Limits := none
  threshold? : Option (Option Nat) := none
  color? : Option (Option Bool) := none

def sections (e : Encoding τ m) : List (Field τ m Sections) :=
  [⟨"engine", fun s => s.limits?.isSome, fun s t => do
      pure { s with limits? := some (← decodeLimits e t) }⟩,
    ⟨"compiler", fun s => s.threshold?.isSome, fun s t => do
      pure { s with threshold? := some (← e.record (thresholdFields e) none t) }⟩,
    ⟨"output", fun s => s.color?.isSome, fun s t => do
      pure { s with color? := some (← e.record (colorFields e) none t) }⟩]

def decode (e : Encoding τ m) (t : τ) : m Settings := do
  let s ← e.record (sections e) {} t
  let d : Settings := {}
  pure
    { limits := s.limits?.getD d.limits
      expansionThreshold := (s.threshold?.getD none).getD d.expansionThreshold
      color := (s.color?.getD none).getD d.color }

def formatOfPath (path : String) : DocumentFormat :=
  if Path.lowerExtension? path = some "json" then .json else .yaml

/-- The settings of a text. A text of blanks only is no JSON, but YAML without settings. -/
def ofText (f : DocumentFormat) (text : String) : Except DocumentError Settings :=
  match f with
  | .json => (Json.decode (decode Json.encoding) text).mapError .json
  | .yaml =>
    if (Text.trimBlanks text.toList).isEmpty then .ok {}
    else (Yaml.decode (decode Yaml.encoding) text).mapError .yaml

end Settings

end GraphRules
