import AtomicCss.Candidate.Basic
import AtomicCss.Number.Literal

/-!
What kind of CSS value an arbitrary value is, by its hint or by its looks.
-/

namespace AtomicCss.Utility

inductive ValueType where
  | color
  | length
  | percentage
  | number
  | image
  | var
  | other
  deriving DecidableEq, Repr

namespace ValueType

def ofHint (hint : String) : ValueType :=
  if hint = "color" then .color
  else if ["length", "line-width", "absolute-size", "relative-size"].contains hint then .length
  else if hint = "percentage" then .percentage
  else if ["number", "integer"].contains hint then .number
  else if ["url", "image"].contains hint then .image
  else .other

def colorNames : List String :=
  ["black", "white", "red", "green", "blue", "yellow", "orange", "purple", "pink", "gray", "grey",
    "silver", "maroon", "olive", "lime", "aqua", "teal", "navy", "fuchsia", "cyan", "magenta",
    "brown", "gold", "rebeccapurple", "transparent", "currentcolor"]

def colorFunctions : List String :=
  ["rgb(", "rgba(", "hsl(", "hsla(", "hwb(", "lab(", "lch(", "oklab(", "oklch(", "color-mix("]

def imageFunctions : List String :=
  ["url(", "image(", "linear-gradient(", "radial-gradient(", "conic-gradient(",
    "repeating-linear-gradient("]

def lengthFunctions : List String :=
  ["calc(", "min(", "max(", "clamp("]

def lengthUnits : List String :=
  ["px", "rem", "em", "vh", "vw", "dvh", "dvw", "svh", "lvh", "vmin", "vmax", "ch", "ex", "lh",
    "cqw", "cqh", "pt", "cm"]

def startsWithAny (leads : List String) (text : List Char) : Bool :=
  leads.any fun lead => Text.startsWith lead.toList text

def isLengthChar (c : Char) : Bool :=
  c.isDigit || c == '.' || c == '-'

/-- Digits, points and dashes in front of a unit. -/
def isLength (text : List Char) : Bool :=
  !(text.takeWhile isLengthChar).isEmpty &&
    lengthUnits.contains (String.ofList (text.dropWhile isLengthChar))

def isPercentage (text : List Char) : Bool :=
  match Text.before? ['%'] text with
  | some digits => (Number.Literal.parse? digits).isSome
  | none => false

/-- The kind that a text looks like; case and outer blanks do not matter. -/
def infer (text : String) : ValueType :=
  let lower := (Text.trim text.toList).map Char.toLower
  if Text.startsWith ['#'] lower || startsWithAny colorFunctions lower ||
      colorNames.contains (String.ofList lower) then .color
  else if startsWithAny imageFunctions lower then .image
  else if Text.startsWith "var(".toList lower then .var
  else if startsWithAny lengthFunctions lower then .length
  else if isPercentage lower then .percentage
  else if (Number.Literal.parse? lower).isSome then .number
  else if isLength lower then .length
  else .other

end ValueType

/-- Whether a value may be used where only some kinds are allowed. Named values always may; the hint
of an arbitrary value counts before its looks, and the hint `any` admits everything. -/
def accepts (value : Candidate.Value) (allowed : List ValueType) : Bool :=
  match value with
  | .named _ _ => true
  | .arbitrary text none => allowed.contains (ValueType.infer text)
  | .arbitrary _ (some hint) => hint == "any" || allowed.contains (ValueType.ofHint hint)

end AtomicCss.Utility
