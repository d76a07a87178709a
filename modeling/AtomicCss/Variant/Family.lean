import AtomicCss.Error
import AtomicCss.Selector
import AtomicCss.Sheet.Node
import AtomicCss.Variant.Token

/-!
Variant families change the place where a rule stands: its selector and the at-rules around it. A
registry keeps families by weight and applies a chain of tokens from left to right.
-/

namespace AtomicCss

structure Placement where
  selector : Selector
  wrappers : List Sheet.AtRule
  deriving DecidableEq, Repr

namespace Placement

def ofSelector (selector : Selector) : Placement := ⟨selector, []⟩

def ofClass (name : String) : Placement := ofSelector (Selector.ofClass name)

def withSuffix (placement : Placement) (suffix : String) : Placement :=
  { placement with selector := placement.selector.withSuffix suffix }

def withWrapper (placement : Placement) (wrapper : Sheet.AtRule) : Placement :=
  { placement with wrappers := placement.wrappers ++ [wrapper] }

end Placement

namespace Variant

inductive Capability where
  | styleRule
  | atRule
  | both
  deriving DecidableEq, Repr

namespace Capability

def changesSelector : Capability → Bool
  | .styleRule => true
  | .atRule => false
  | .both => true

def allows (capability : Capability) (before after : Placement) : Bool :=
  match capability with
  | .styleRule => after.wrappers == before.wrappers
  | .atRule => after.selector == before.selector
  | .both => true

end Capability

structure Family where
  name : String
  /-- Families are tried, and rules are ordered, by increasing weight. -/
  weight : Nat
  capability : Capability
  handles : Token → Bool
  place? : Placement → Token → Option Placement
  /-- The weight of one token. -/
  tokenWeight : Token → Nat := fun _ => weight

/-- Families by increasing weight, those of equal weight in the order of their registration. -/
structure Registry where
  families : List Family

structure Outcome where
  placement : Placement
  /-- The weights of the tokens that matched, in order. -/
  weights : List Nat
  /-- The tokens that no family took, in order. -/
  unmatched : List Token
  deriving DecidableEq, Repr

def Outcome.isComplete (outcome : Outcome) : Bool :=
  outcome.unmatched.isEmpty

namespace Registry

def empty : Registry := ⟨[]⟩

def insertByWeight (family : Family) : List Family → List Family
  | [] => [family]
  | other :: rest =>
      if family.weight < other.weight then family :: other :: rest
      else other :: insertByWeight family rest

def register (registry : Registry) (family : Family) : Except ConstructionError Registry :=
  if registry.families.any fun other => other.name == family.name then
    .error (.duplicateVariant family.name)
  else .ok ⟨insertByWeight family registry.families⟩

def registerAll (registry : Registry) (families : List Family) :
    Except ConstructionError Registry :=
  families.foldlM register registry

def size (registry : Registry) : Nat :=
  registry.families.length

def find? (registry : Registry) (token : Token) : Option Family :=
  registry.families.find? fun family => family.handles token

def step? (registry : Registry) (placement : Placement) (token : Token) :
    Option (Placement × Nat) :=
  match registry.find? token with
  | none => none
  | some family =>
      ((family.place? placement token).filter (family.capability.allows placement)).map
        fun after => (after, family.tokenWeight token)

def advance (registry : Registry) (outcome : Outcome) (token : Token) : Outcome :=
  match registry.step? outcome.placement token with
  | some (placement, weight) =>
      { outcome with placement, weights := outcome.weights ++ [weight] }
  | none => { outcome with unmatched := outcome.unmatched ++ [token] }

/-- Applies tokens to a placement from left to right, skipping those that do not match. -/
def run (registry : Registry) (placement : Placement) (tokens : List Token) : Outcome :=
  tokens.foldl registry.advance ⟨placement, [], []⟩

end Registry

end Variant

end AtomicCss
