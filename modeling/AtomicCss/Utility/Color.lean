import AtomicCss.Number.Decimal
import AtomicCss.Sheet.Node
import AtomicCss.Utility.Length

/-!
Colors and their opacity.
-/

namespace AtomicCss.Utility

inductive ColorKeyword where
  | transparent
  | current
  | inherit
  deriving DecidableEq, Repr

def ColorKeyword.text : ColorKeyword → String
  | .transparent => "transparent"
  | .current => "currentColor"
  | .inherit => "inherit"

inductive Color where
  | keyword (keyword : ColorKeyword)
  /-- A reference to a token of the theme. -/
  | themed (reference : String)
  | rgb (red green blue : Nat) (alpha : Option Binary64)
  | literal (text : String)
  deriving DecidableEq, Repr

namespace Color

def hexDigit? (c : Char) : Option Nat :=
  if c.isDigit then some (c.toNat - '0'.toNat)
  else if 'a' ≤ c ∧ c ≤ 'f' then some (c.toNat - 'a'.toNat + 10)
  else if 'A' ≤ c ∧ c ≤ 'F' then some (c.toNat - 'A'.toNat + 10)
  else none

def alphaOf (channel : Nat) : Binary64 :=
  (Binary64.finite false (channel * Binary64.one)).divNat 255

/-- Reads `#` and three, four, six or eight hexadecimal digits. -/
def parseHex? (text : String) : Option Color := do
  let digits ← Text.after? ['#'] text.toList
  let digits ← digits.mapM hexDigit?
  match digits with
  | [r, g, b] => some (.rgb (17 * r) (17 * g) (17 * b) none)
  | [r, g, b, a] => some (.rgb (17 * r) (17 * g) (17 * b) (some (alphaOf (17 * a))))
  | [r, r', g, g', b, b'] => some (.rgb (16 * r + r') (16 * g + g') (16 * b + b') none)
  | [r, r', g, g', b, b', a, a'] =>
      some (.rgb (16 * r + r') (16 * g + g') (16 * b + b') (some (alphaOf (16 * a + a'))))
  | _ => none

end Color

def resolveColor? (theme : Theme) (value : Candidate.Value) : Option Color :=
  match value with
  | .named name _ =>
      if name = "transparent" then some (.keyword .transparent)
      else if name = "current" then some (.keyword .current)
      else if name = "inherit" then some (.keyword .inherit)
      else (theme.resolve? (some name) ["--color"]).map .themed
  | .arbitrary text _ =>
      if accepts value [.color, .var] then some ((Color.parseHex? text).getD (.literal text))
      else none

def modifierPercentage? : Candidate.Modifier → Option String
  | .named text => if isScaleNumber text then some (text ++ "%") else none
  | .arbitrary text =>
      if (Text.before? ['%'] text.toList).isSome then some text
      else if Text.startsWith "var(".toList text.toList then
        some ("calc(" ++ text ++ " * 100%)")
      else (Binary64.parse? text).map fun number => (number.mulNat 100).roundedText ++ "%"

def modifierAlpha? : Candidate.Modifier → Option String
  | .named text =>
      if isScaleNumber text then
        (Binary64.parse? text).map fun number => (number.divNat 100).roundedText
      else none
  | .arbitrary text =>
      match Text.before? ['%'] text.toList with
      | some percent =>
          (Binary64.parse? (String.ofList percent)).map fun number =>
            (number.divNat 100).roundedText
      | none => (Binary64.parse? text).map Binary64.roundedText

def mixColor? (color : String) : Option Candidate.Modifier → Option String
  | none => some color
  | some modifier =>
      (modifierPercentage? modifier).map fun percentage =>
        "color-mix(in oklab, " ++ color ++ " " ++ percentage ++ ", transparent)"

def channelAlpha? (alpha : Option Binary64) : Option Candidate.Modifier → Option String
  | some modifier => modifierAlpha? modifier
  | none => some ((alpha.map Binary64.roundedText).getD "1")

/-- Sets properties to a color. A color given by its channels takes its opacity from a helper
variable; other colors are mixed. Without a valid opacity there is no result. -/
def colorDeclarations? (properties : List String) (color : Color)
    (modifier : Option Candidate.Modifier) (opacityKey internalPrefix : String) :
    Option (List Sheet.Node) :=
  let declareAll (value : String) : List Sheet.Node :=
    properties.map fun property => Sheet.Node.declare property value
  match color with
  | .rgb red green blue alpha =>
      let opacity := "--" ++ internalPrefix ++ "-" ++ opacityKey ++ "-opacity"
      (channelAlpha? alpha modifier).map fun alpha =>
        Sheet.Node.declare opacity alpha ::
          declareAll ("rgba(" ++ Nat.repr red ++ "," ++ Nat.repr green ++ "," ++ Nat.repr blue ++
            ",var(" ++ opacity ++ "))")
  | .keyword .current => (mixColor? ColorKeyword.current.text modifier).map declareAll
  | .keyword keyword => some (declareAll keyword.text)
  | .themed reference => (mixColor? reference modifier).map declareAll
  | .literal text => (mixColor? text modifier).map declareAll

end AtomicCss.Utility
