import AtomicCss.Theme.Reference
import AtomicCss.Variant.Family
import AtomicCss.Variant.Supports

/-!
The built-in variant families.
-/

namespace AtomicCss.Variant

inductive DarkMode where
  /-- By a selector that marks dark parts of a document. -/
  | marker (selector : String)
  /-- By the preference of the reader. -/
  | media
  deriving DecidableEq, Repr

def DarkMode.standard : DarkMode := .marker ".dark"

def mediaTable : List (String × String) :=
  [("motion-safe", "(prefers-reduced-motion: no-preference)"),
    ("motion-reduce", "(prefers-reduced-motion: reduce)"),
    ("contrast-more", "(prefers-contrast: more)"),
    ("contrast-less", "(prefers-contrast: less)"),
    ("portrait", "(orientation: portrait)"),
    ("landscape", "(orientation: landscape)"),
    ("forced-colors", "(forced-colors: active)"),
    ("inverted-colors", "(inverted-colors: inverted)"),
    ("pointer-fine", "(pointer: fine)"),
    ("pointer-coarse", "(pointer: coarse)"),
    ("pointer-none", "(pointer: none)"),
    ("noscript", "(scripting: none)"),
    ("print", "print")]

def proseTable : List (String × String) :=
  [("headings", "h1, h2, h3, h4, th"), ("lead", "[class~=\"lead\"]"), ("h1", "h1"), ("h2", "h2"),
    ("h3", "h3"), ("h4", "h4"), ("p", "p"), ("a", "a"), ("blockquote", "blockquote"),
    ("figure", "figure"), ("figcaption", "figcaption"), ("strong", "strong"), ("em", "em"),
    ("kbd", "kbd"), ("code", "code"), ("pre", "pre"), ("ol", "ol"), ("ul", "ul"), ("li", "li"),
    ("table", "table"), ("thead", "thead"), ("tr", "tr"), ("th", "th"), ("td", "td"),
    ("img", "img"), ("video", "video"), ("hr", "hr")]

def placeIn (names : List String) (name : String) : Nat :=
  (names.findIdx? (· == name)).getD 0

def appendCondition? (placement : Placement) (token : Token) : Option Placement :=
  token.condition?.map placement.withSuffix

def pseudoFamily : Family where
  name := "pseudo"
  weight := 100
  capability := .styleRule
  handles token :=
    match token.shape with
    | .plain name => (pseudo? name).isSome
    | _ => false
  place? := appendCondition?
  tokenWeight token := 100 + placeIn (pseudoTable.map Prod.fst) token.name / 2

def functionFamily (name : String) (weight : Nat) (functions : List Function) : Family where
  name
  weight
  capability := .styleRule
  handles token :=
    match token.shape with
    | .function function _ => functions.contains function
    | _ => false
  place? := appendCondition?

def nthFamily : Family :=
  functionFamily "nth" 130 [.nth, .nthLast, .nthOfType, .nthLastOfType]

def attributeFamily : Family :=
  functionFamily "attribute" 140 [.data, .aria]

def selectorFunctionFamily : Family :=
  functionFamily "selector-function" 150 [.has, .not, .is, .whereSelector]

def Marker.selector (marker : Marker) (label : Option String) : String :=
  match label with
  | some label => "." ++ ClassName.escape (marker.name ++ "/" ++ label)
  | none => "." ++ marker.name

def Marker.relation : Marker → String
  | .group => " *"
  | .peer => " ~ *"

/-- The condition on the element with the marker: where bracketed content names it by `&`, the
marker is put there. -/
def markerCondition? (selector : String) (inner : Token) : Option String :=
  let conditioned := inner.condition?.map fun condition =>
    ":where(" ++ selector ++ ")" ++ condition
  match inner.shape with
  | .arbitrary content =>
      let content := decoded content
      if Selector.mentionsParent content then some (Selector.substitute selector content)
      else conditioned
  | _ => conditioned

def markerFamily : Family where
  name := "group-peer"
  weight := 160
  capability := .styleRule
  handles token :=
    match token.shape with
    | .compound _ _ _ => true
    | _ => false
  place? placement token :=
    match token.shape with
    | .compound marker inner label =>
        (markerCondition? (marker.selector label) (classify inner)).map fun condition =>
          placement.withSuffix (":is(" ++ condition ++ marker.relation ++ ")")
    | _ => none

def isAtNameChar (c : Char) : Bool :=
  c.isAlphanum || c == '-'

/-- Bracketed content is an at-rule if it starts with `@`, else a pattern around the selector. -/
def placeArbitrary? (placement : Placement) (content : String) : Option Placement :=
  match content.toList with
  | [] => none
  | '@' :: rest =>
      let name := rest.takeWhile isAtNameChar
      if name.isEmpty then none
      else
        some (placement.withWrapper
          ⟨Sheet.AtRuleKind.ofName (String.ofList name),
            String.ofList (Text.trim (rest.dropWhile isAtNameChar))⟩)
  | _ => some { placement with selector := placement.selector.relativize content }

def arbitraryFamily : Family where
  name := "arbitrary"
  weight := 170
  capability := .both
  handles token :=
    match token.shape with
    | .arbitrary _ => true
    | _ => false
  place? placement token :=
    match token.shape with
    | .arbitrary content => placeArbitrary? placement (decoded content)
    | _ => none

def proseElement? (token : Token) : Option String :=
  match token.shape with
  | .plain name =>
      (Text.after? "prose-".toList name.toList).bind fun element =>
        proseTable.lookup (String.ofList element)
  | _ => none

def proseFamily : Family where
  name := "prose"
  weight := 180
  capability := .styleRule
  handles token := (proseElement? token).isSome
  place? placement token :=
    (proseElement? token).map fun element =>
      placement.withSuffix (" :where(" ++ element ++
        "):not(:where([class~=\"not-prose\"], [class~=\"not-prose\"] *))")

def isDark (token : Token) : Bool :=
  match token.shape with
  | .plain name => name == "dark"
  | _ => false

def darkFamily (mode : DarkMode) : Family where
  name := "dark"
  weight := 250
  capability :=
    match mode with
    | .marker _ => .styleRule
    | .media => .atRule
  handles := isDark
  place? placement _ :=
    match mode with
    | .marker selector =>
        some (placement.withSuffix (":where(" ++ selector ++ ", " ++ selector ++ " *)"))
    | .media => some (placement.withWrapper ⟨.media, "(prefers-color-scheme: dark)"⟩)

def mediaQuery? (token : Token) : Option String :=
  match token.shape with
  | .plain name => mediaTable.lookup name
  | _ => none

def mediaFamily : Family where
  name := "media-feature"
  weight := 300
  capability := .atRule
  handles token := (mediaQuery? token).isSome
  place? placement token :=
    (mediaQuery? token).map fun query => placement.withWrapper ⟨.media, query⟩
  tokenWeight token := 300 + placeIn (mediaTable.map Prod.fst) token.name

def supportsFamily (internalPrefix : String) : Family where
  name := "supports"
  weight := 350
  capability := .atRule
  handles token :=
    match token.shape with
    | .function .supports _ => true
    | _ => false
  place? placement token :=
    match token.shape with
    | .function .supports value =>
        (Supports.query? internalPrefix value).map fun query =>
          placement.withWrapper ⟨.supports, query⟩
    | _ => none

/-- The width that a value means: a token of the namespace with its references followed, because
queries cannot read variables, or any text in brackets. No text is no width. -/
def width? (theme : Theme) (space : String) (value : Value) : Option String :=
  match value with
  | .arbitrary _ => nonEmptyText? value.content
  | .named name =>
      (theme.resolveValue? (some name) [space]).bind fun width =>
        nonEmptyText? (theme.inline Theme.inlineDepth width)

def widthQuery (comparison width : String) : String :=
  "(width " ++ comparison ++ " " ++ width ++ ")"

def breakpoints (theme : Theme) : List String :=
  theme.namesIn "--breakpoint"

/-- The comparison and the value of a token that tests the width of the window. -/
def responsiveTest? (theme : Theme) (token : Token) : Option (String × Value) :=
  match token.shape with
  | .plain name => if (breakpoints theme).contains name then some (">=", .named name) else none
  | .function .min value => some (">=", value)
  | .function .max value => some ("<", value)
  | _ => none

/-- Lower bounds go from narrow to wide, then those in brackets; upper bounds from wide to
narrow. -/
def responsiveWeight (theme : Theme) (token : Token) : Nat :=
  let names := breakpoints theme
  match token.shape with
  | .plain name => 400 + placeIn names name
  | .function .min (.named name) => 400 + placeIn names name
  | .function .min (.arbitrary _) => 400 + names.length
  | .function .max (.named name) => 600 + (names.length - placeIn names name)
  | _ => 600

def responsiveFamily (theme : Theme) : Family where
  name := "responsive"
  weight := 400
  capability := .atRule
  handles token := (responsiveTest? theme token).isSome
  place? placement token := do
    let (comparison, value) ← responsiveTest? theme token
    let width ← width? theme "--breakpoint" value
    some (placement.withWrapper ⟨.media, widthQuery comparison width⟩)
  tokenWeight := responsiveWeight theme

def Bound.comparison : Bound → String
  | .plain => ">="
  | .min => ">="
  | .max => "<"

def containerWeight (theme : Theme) (token : Token) : Nat :=
  let offset :=
    match token.value with
    | some (.named name) => placeIn (theme.namesIn "--container") name
    | _ => 50
  match token.shape with
  | .container .max _ _ => 700 + 100 - min offset 99
  | _ => 700 + offset

def containerFamily (theme : Theme) : Family where
  name := "container"
  weight := 700
  capability := .atRule
  handles token :=
    match token.shape with
    | .container _ _ _ => true
    | _ => false
  place? placement token :=
    match token.shape with
    | .container bound (some value) label =>
        (width? theme "--container" value).map fun width =>
          let query := widthQuery bound.comparison width
          placement.withWrapper
            ⟨.container, (label.map fun label => label ++ " " ++ query).getD query⟩
    | _ => none
  tokenWeight := containerWeight theme

def standardFamilies (theme : Theme) (darkMode : DarkMode) (internalPrefix : String) :
    List Family :=
  [pseudoFamily, nthFamily, attributeFamily, selectorFunctionFamily, markerFamily,
    arbitraryFamily, proseFamily, darkFamily darkMode, mediaFamily,
    supportsFamily internalPrefix, responsiveFamily theme, containerFamily theme]

def Registry.standard (theme : Theme) (darkMode : DarkMode) (internalPrefix : String) :
    Except ConstructionError Registry :=
  Registry.empty.registerAll (standardFamilies theme darkMode internalPrefix)

end AtomicCss.Variant
