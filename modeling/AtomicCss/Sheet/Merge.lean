import AtomicCss.Sheet.Node

/-!
Merging declarations to one per property.
-/

namespace AtomicCss.Sheet

inductive MergeStrategy where
  | lastWins
  | firstWins
  /-- The last declaration wins, but an important one only yields to an important one. -/
  | importantWins
  /-- As `importantWins`, and a shorthand also replaces its longhands. -/
  | smart
  deriving DecidableEq, Repr

def isVendorPrefixed (property : String) : Bool :=
  Text.startsWith ['-'] property.toList && !Text.startsWith ['-', '-'] property.toList

def withoutVendor (property : String) : String :=
  if isVendorPrefixed property then
    match Text.cut? '-' (property.toList.drop 1) with
    | some (_, rest) => String.ofList rest
    | none => property
  else property

def shorthands : List (String × List String) :=
  [("margin",
      ["margin-top", "margin-right", "margin-bottom", "margin-left", "margin-block",
        "margin-block-start", "margin-block-end", "margin-inline", "margin-inline-start",
        "margin-inline-end"]),
    ("padding",
      ["padding-top", "padding-right", "padding-bottom", "padding-left", "padding-block",
        "padding-block-start", "padding-block-end", "padding-inline", "padding-inline-start",
        "padding-inline-end"]),
    ("border",
      ["border-width", "border-style", "border-color", "border-top", "border-right",
        "border-bottom", "border-left", "border-top-width", "border-right-width",
        "border-bottom-width", "border-left-width", "border-top-style", "border-right-style",
        "border-bottom-style", "border-left-style", "border-top-color", "border-right-color",
        "border-bottom-color", "border-left-color"]),
    ("border-width",
      ["border-top-width", "border-right-width", "border-bottom-width", "border-left-width"]),
    ("border-color",
      ["border-top-color", "border-right-color", "border-bottom-color", "border-left-color"]),
    ("border-radius",
      ["border-top-left-radius", "border-top-right-radius", "border-bottom-right-radius",
        "border-bottom-left-radius"]),
    ("font",
      ["font-style", "font-variant", "font-weight", "font-stretch", "font-size", "line-height",
        "font-family"]),
    ("flex", ["flex-grow", "flex-shrink", "flex-basis"]),
    ("grid",
      ["grid-template-rows", "grid-template-columns", "grid-template-areas", "grid-auto-rows",
        "grid-auto-columns", "grid-auto-flow"]),
    ("gap", ["row-gap", "column-gap"]),
    ("place-items", ["align-items", "justify-items"]),
    ("place-content", ["align-content", "justify-content"]),
    ("place-self", ["align-self", "justify-self"]),
    ("overflow", ["overflow-x", "overflow-y"]),
    ("inset", ["top", "right", "bottom", "left"]),
    ("transition",
      ["transition-property", "transition-duration", "transition-timing-function",
        "transition-delay", "transition-behavior"])]

def longhandsOf (property : String) : List String :=
  (shorthands.lookup property).getD []

namespace Merge

def prevails (earlier later : Declaration) : Bool :=
  earlier.important && !later.important

/-- Puts a declaration in the place of the one of its property, or behind the others. -/
def replace : List Declaration → Declaration → List Declaration
  | [], declaration => [declaration]
  | earlier :: rest, declaration =>
      if earlier.property = declaration.property then declaration :: rest
      else earlier :: replace rest declaration

def keepFirst (kept : List Declaration) (declaration : Declaration) : List Declaration :=
  if kept.any (·.property == declaration.property) then kept else kept ++ [declaration]

def replaceUnlessImportant (kept : List Declaration) (declaration : Declaration) :
    List Declaration :=
  if kept.any fun earlier =>
      earlier.property == declaration.property && prevails earlier declaration
  then kept
  else replace kept declaration

def evictLonghands (kept : List Declaration) (declaration : Declaration) : List Declaration :=
  let longhands := longhandsOf (withoutVendor declaration.property)
  kept.filter fun earlier =>
    !longhands.contains (withoutVendor earlier.property) || prevails earlier declaration

def add : MergeStrategy → List Declaration → Declaration → List Declaration
  | .lastWins, kept, declaration => replace kept declaration
  | .firstWins, kept, declaration => keepFirst kept declaration
  | .importantWins, kept, declaration => replaceUnlessImportant kept declaration
  | .smart, kept, declaration =>
      replaceUnlessImportant (evictLonghands kept declaration) declaration

/-- The order of the result: vendor-prefixed properties first, then by name. -/
def precedes (left right : Declaration) : Bool :=
  match isVendorPrefixed left.property, isVendorPrefixed right.property with
  | true, false => true
  | false, true => false
  | _, _ => decide (left.property ≤ right.property)

end Merge

def mergeDeclarations (strategy : MergeStrategy) (declarations : List Declaration) :
    List Declaration :=
  (declarations.foldl (Merge.add strategy) []).mergeSort Merge.precedes

end AtomicCss.Sheet
