import GraphRules.Number.Basic

/-! Text formats, as those see them who take documents apart: what a tree of such a format stands
for when a text, a list or a record is asked for. -/
namespace GraphRules

inductive Scalar where
  | bool (b : Bool)
  | int (n : Int)
  | float (x : Binary64)
  | text (s : String)
  deriving DecidableEq, Inhabited

structure Field (τ : Type) (m : Type → Type) (σ : Type) where
  name : String
  isSet : σ → Bool
  decode : σ → τ → m σ

structure Encoding (τ : Type) (m : Type → Type) where
  string : τ → m String
  bool : τ → m Bool
  nat : τ → m Nat
  option : {α : Type} → (τ → m α) → τ → m (Option α)
  list : {α : Type} → (τ → m α) → τ → m (List α)
  members : {α : Type} → (τ → m α) → τ → m (List (String × α))
  record : {σ : Type} → List (Field τ m σ) → σ → τ → m σ
  /-- A scalar of any kind, with so many lists and records open around it. -/
  scalar : Nat → τ → m Scalar
  /-- The outcome for a record without a field that it needs. -/
  missing : {α : Type} → m α

end GraphRules
