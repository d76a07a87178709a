import AtomicCss.Utility.FontSize
import AtomicCss.Utility.Functional
import AtomicCss.Utility.Property
import AtomicCss.Utility.Static

/-!
The built-in utilities.
-/

namespace AtomicCss.Utility

namespace Catalogue

def marginKeywords : List (String × String) :=
  [("auto", "auto")]

def insetKeywords : List (String × String) :=
  [("auto", "auto"), ("full", "100%")]

def widthKeywords : List (String × String) :=
  [("auto", "auto"), ("full", "100%"), ("screen", "100vw"), ("dvw", "100dvw"), ("svw", "100svw"),
    ("lvw", "100lvw"), ("min", "min-content"), ("max", "max-content"), ("fit", "fit-content"),
    ("none", "none")]

def heightKeywords : List (String × String) :=
  [("auto", "auto"), ("full", "100%"), ("screen", "100vh"), ("dvh", "100dvh"), ("svh", "100svh"),
    ("lvh", "100lvh"), ("min", "min-content"), ("max", "max-content"), ("fit", "fit-content"),
    ("none", "none")]

def sizeKeywords : List (String × String) :=
  [("auto", "auto"), ("full", "100%"), ("min", "min-content"), ("max", "max-content"),
    ("fit", "fit-content")]

def fontWeights : List (String × String) :=
  [("thin", "100"), ("extralight", "200"), ("light", "300"), ("normal", "400"),
    ("medium", "500"), ("semibold", "600"), ("bold", "700"), ("extrabold", "800"),
    ("black", "900")]

def numberTypes : List ValueType :=
  [.number, .var]

def percentageTypes : List ValueType :=
  [.number, .percentage, .var]

def zIndex : Functional where
  name := "z-index"
  priority := .constrainedFunctional
  roots := [("z", ["z-index"])]
  rule := .themed ["--z-index"] [("auto", "auto")] .integer numberTypes
  negatable := true

def order : Functional where
  name := "order"
  priority := .constrainedFunctional
  roots := [("order", ["order"])]
  rule :=
    .themed [] [("first", "calc(-infinity)"), ("last", "calc(infinity)"), ("none", "0")] .integer
      numberTypes
  negatable := true

def opacity : Functional where
  name := "opacity"
  priority := .constrainedFunctional
  roots := [("opacity", ["opacity"])]
  rule := .themed ["--opacity"] [] .percent percentageTypes

def gridTemplate : Functional where
  name := "grid-template"
  priority := .constrainedFunctional
  roots := [("grid-cols", ["grid-template-columns"]), ("grid-rows", ["grid-template-rows"])]
  rule :=
    .themed [] [("none", "none"), ("subgrid", "subgrid")]
      (.template ["repeat(", ", minmax(0, 1fr))"]) spacingTypes

def gridSpan : Functional where
  name := "grid-span"
  priority := .constrainedFunctional
  roots := [("col-span", ["grid-column"]), ("row-span", ["grid-row"])]
  rule := .themed [] [("full", "1 / -1")] (.template ["span ", " / span ", ""]) spacingTypes

def flex : Functional where
  name := "flex"
  priority := .constrainedFunctional
  roots := [("flex", ["flex"])]
  rule := .themed [] [] .integer spacingTypes

def transitionDuration : Functional where
  name := "transition-duration"
  priority := .constrainedFunctional
  roots := [("duration", ["transition-duration"])]
  rule := .themed [] [("initial", "initial")] .milliseconds spacingTypes

def margin : Functional where
  name := "margin"
  priority := .negativeVariant
  roots :=
    [("m", ["margin"]), ("mx", ["margin-inline"]), ("my", ["margin-block"]),
      ("ms", ["margin-inline-start"]), ("me", ["margin-inline-end"]), ("mt", ["margin-top"]),
      ("mr", ["margin-right"]), ("mb", ["margin-bottom"]), ("ml", ["margin-left"])]
  rule := .spacing marginKeywords
  negatable := true

def inset : Functional where
  name := "inset"
  priority := .negativeVariant
  roots :=
    [("inset", ["inset"]), ("inset-x", ["inset-inline"]), ("inset-y", ["inset-block"]),
      ("start", ["inset-inline-start"]), ("end", ["inset-inline-end"]), ("top", ["top"]),
      ("right", ["right"]), ("bottom", ["bottom"]), ("left", ["left"])]
  rule := .size ["--inset"] insetKeywords
  negatable := true

def letterSpacing : Functional where
  name := "letter-spacing"
  priority := .negativeVariant
  roots := [("tracking", ["letter-spacing"])]
  rule := .themed ["--tracking"] [] .nothing lengthTypes
  negatable := true

def backgroundColor : Functional where
  name := "background-color"
  priority := .standardFunctional
  roots := [("bg", ["background-color"])]
  rule := .color

def textColor : Functional where
  name := "text-color"
  priority := .standardFunctional
  roots := [("text", ["color"])]
  rule := .color

def borderWidth : Functional where
  name := "border-width"
  priority := .standardFunctional
  roots :=
    [("border", ["border-width"]), ("border-x", ["border-inline-width"]),
      ("border-y", ["border-block-width"]), ("border-t", ["border-top-width"]),
      ("border-r", ["border-right-width"]), ("border-b", ["border-bottom-width"]),
      ("border-l", ["border-left-width"])]
  rule := .length "1px" ["--border-width"]

def borderColor : Functional where
  name := "border-color"
  priority := .standardFunctional
  roots :=
    [("border", ["border-color"]), ("border-x", ["border-inline-color"]),
      ("border-y", ["border-block-color"]), ("border-t", ["border-top-color"]),
      ("border-r", ["border-right-color"]), ("border-b", ["border-bottom-color"]),
      ("border-l", ["border-left-color"])]
  rule := .color

def padding : Functional where
  name := "padding"
  priority := .standardFunctional
  roots :=
    [("p", ["padding"]), ("px", ["padding-inline"]), ("py", ["padding-block"]),
      ("ps", ["padding-inline-start"]), ("pe", ["padding-inline-end"]), ("pt", ["padding-top"]),
      ("pr", ["padding-right"]), ("pb", ["padding-bottom"]), ("pl", ["padding-left"])]
  rule := .spacing []

def gap : Functional where
  name := "gap"
  priority := .standardFunctional
  roots := [("gap", ["gap"]), ("gap-x", ["column-gap"]), ("gap-y", ["row-gap"])]
  rule := .spacing []

def width : Functional where
  name := "width"
  priority := .standardFunctional
  roots := [("w", ["width"]), ("min-w", ["min-width"]), ("max-w", ["max-width"])]
  rule := .size ["--width", "--container"] widthKeywords

def height : Functional where
  name := "height"
  priority := .standardFunctional
  roots := [("h", ["height"]), ("min-h", ["min-height"]), ("max-h", ["max-height"])]
  rule := .size ["--height"] heightKeywords

def size : Functional where
  name := "size"
  priority := .standardFunctional
  roots := [("size", ["width", "height"])]
  rule := .size ["--size"] sizeKeywords

def flexBasis : Functional where
  name := "flex-basis"
  priority := .standardFunctional
  roots := [("basis", ["flex-basis"])]
  rule := .size ["--container"] sizeKeywords

def borderRadius : Functional where
  name := "border-radius"
  priority := .standardFunctional
  roots :=
    [("rounded", ["border-radius"]),
      ("rounded-t", ["border-top-left-radius", "border-top-right-radius"]),
      ("rounded-r", ["border-top-right-radius", "border-bottom-right-radius"]),
      ("rounded-b", ["border-bottom-right-radius", "border-bottom-left-radius"]),
      ("rounded-l", ["border-top-left-radius", "border-bottom-left-radius"]),
      ("rounded-tl", ["border-top-left-radius"]), ("rounded-tr", ["border-top-right-radius"]),
      ("rounded-br", ["border-bottom-right-radius"]),
      ("rounded-bl", ["border-bottom-left-radius"])]
  rule := .radius

def fontWeight : Functional where
  name := "font-weight"
  priority := .standardFunctional
  roots := [("font", ["font-weight"])]
  rule := .themed ["--font-weight"] fontWeights .integer numberTypes

def fontFamily : Functional where
  name := "font-family"
  priority := .standardFunctional
  roots := [("font", ["font-family"])]
  rule := .themed ["--font"] [] .nothing [.other, .var]

def lineHeight : Functional where
  name := "line-height"
  priority := .standardFunctional
  roots := [("leading", ["line-height"])]
  rule := .themed ["--leading"] [("none", "1")] .spacing lengthTypes

def svgPaint : Functional where
  name := "svg-paint"
  priority := .standardFunctional
  roots :=
    [("fill", ["fill"]), ("stroke", ["stroke"]), ("accent", ["accent-color"]),
      ("caret", ["caret-color"]), ("outline", ["outline-color"]),
      ("decoration", ["text-decoration-color"])]
  rule := .color

def all (internalPrefix : String) : List Utility :=
  let functional (utility : Functional) : Utility := utility.toUtility internalPrefix
  [Utility.static, functional zIndex, functional order, functional opacity,
    functional gridTemplate, functional gridSpan, functional flex, functional transitionDuration,
    functional margin, functional inset, functional letterSpacing, functional backgroundColor,
    Utility.fontSize, functional textColor, functional borderWidth, functional borderColor,
    functional padding, functional gap, functional width, functional height, functional size,
    functional flexBasis, functional borderRadius, functional fontWeight, functional fontFamily,
    functional lineHeight, functional svgPaint, Utility.property]

end Catalogue

end AtomicCss.Utility
