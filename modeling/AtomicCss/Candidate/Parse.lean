import AtomicCss.Candidate.Basic
import AtomicCss.ClassName.Bracket
import AtomicCss.Css.Bracketed

/-!
All readings of a base utility that a set of roots allows, the most specific first.
-/

namespace AtomicCss.Candidate

/-- Words that may say in front of a `:` what bracketed content is. -/
def typeHints : List String :=
  ["color", "length", "percentage", "number", "integer", "url", "image", "position", "family-name",
    "absolute-size", "relative-size", "line-width", "angle", "any"]

/-- A base without its `!`, which stands at the end or else at the start. -/
def splitImportant (base : List Char) : List Char × Bool :=
  match Text.before? ['!'] base, Text.after? ['!'] base with
  | some body, _ => (body, true)
  | none, some body => (body, true)
  | none, none => (base, false)

/-- A dash in front of a name makes it negative; two dashes do not. -/
def splitNegative (body : List Char) : List Char × Bool :=
  match body with
  | '-' :: rest =>
      if rest.isEmpty || Text.startsWith ['-'] rest then (body, false) else (rest, true)
  | _ => (body, false)

/-- Reads a modifier. The outer `none` means that it is malformed. -/
def parseModifier : Option (List Char) → Option (Option Modifier)
  | none => some none
  | some text =>
      if text.isEmpty then none
      else
        match ClassName.insideSquare? text, ClassName.insideRound? text with
        | some inner, _ => some (some (.arbitrary (String.ofList (Css.decodeBracketed inner))))
        | none, some inner =>
            if Text.startsWith "--".toList inner then
              some (some (.arbitrary ("var(" ++ String.ofList inner ++ ")")))
            else none
        | none, none => some (some (.named (String.ofList text)))

def parseProperty? (inner : List Char) : Option Reading := do
  let (property, value) ← Text.cut? ':' inner
  let property := Text.trim property
  let value := Css.decodeBracketed value
  if property.isEmpty || value.isEmpty then none
  else some (.property (String.ofList property) (String.ofList value))

def splitHint (inner : List Char) : Option String × List Char :=
  match Text.cut? ':' inner with
  | some (hint, rest) =>
      if typeHints.contains (String.ofList hint) then (some (String.ofList hint), rest)
      else (none, inner)
  | none => (none, inner)

/-- Cuts `root-[content]` at the first dash whose bracket runs to the end. -/
def splitSpan? (inside? : List Char → Option (List Char)) (head : List Char) :
    Option (List Char × List Char) :=
  (Text.cutsAt '-' head).findSome? fun parts =>
    (inside? parts.2).map fun inner => (parts.1, inner)

def squareValue? (inner : List Char) : Option Value :=
  let (hint, content) := splitHint inner
  let content := Css.decodeBracketed content
  if content.isEmpty then none else some (.arbitrary (String.ofList content) hint)

/-- Parentheses hold the name of a custom property. -/
def roundValue? (inner : List Char) : Option Value :=
  let (hint, name) := splitHint inner
  if Text.startsWith "--".toList name then
    some (.arbitrary ("var(" ++ String.ofList name ++ ")") hint)
  else none

def arbitraryValue? (head : List Char) : Option (List Char × Value) :=
  let read (split : Option (List Char × List Char)) (value? : List Char → Option Value) :
      Option (List Char × Value) := do
    let (root, inner) ← split
    if root.isEmpty then none else (value? inner).map fun value => (root, value)
  read (splitSpan? ClassName.insideSquare? head) squareValue? <|>
    read (splitSpan? ClassName.insideRound? head) roundValue?

def fractionOf (value : List Char) : Option Modifier → Option String
  | some (.named denominator) =>
      if Text.isDigits value && Text.isDigits denominator.toList then
        some (String.ofList value ++ "/" ++ denominator)
      else none
  | _ => none

/-- The readings of a head as a functional root: the head itself, then a root and a value for each
dash, by decreasing length of the root. -/
def functionalReadings (roots : Roots) (modifier : Option Modifier) (head : List Char) :
    List Reading :=
  let whole :=
    if roots.isFunctional (String.ofList head) then
      [Reading.functional (String.ofList head) none]
    else []
  let split := (Text.cutsAt '-' head).reverse.filterMap fun (root, value) =>
    if root.isEmpty || value.isEmpty || !roots.isFunctional (String.ofList root) then none
    else
      some (Reading.functional (String.ofList root)
        (some (.named (String.ofList value) (fractionOf value modifier))))
  whole ++ split

/-- The readings of a head with a modifier. An arbitrary value admits no other reading. -/
def headReadings (roots : Roots) (modifier : Option Modifier) (head : List Char) : List Reading :=
  match arbitraryValue? head with
  | some (root, value) =>
      if roots.isFunctional (String.ofList root) then
        [.functional (String.ofList root) (some value)]
      else []
  | none => functionalReadings roots modifier head

def parse (roots : Roots) (base : String) : List Candidate :=
  let (body, important) := splitImportant base.toList
  let make (modifier : Option Modifier) (negative : Bool) (reading : Reading) : Candidate :=
    { reading, modifier, negative, important, body := String.ofList body }
  if body.isEmpty then []
  else if Text.startsWith ['['] body then
    let (head, modifier) := ClassName.splitModifier body
    match parseModifier modifier, (ClassName.insideSquare? head).bind parseProperty? with
    | some modifier, some reading => [make modifier false reading]
    | _, _ => []
  else
    let (unsigned, negative) := splitNegative body
    let static :=
      if !negative && roots.isStatic (String.ofList body) then
        [make none false (.static (String.ofList body))]
      else []
    let (head, modifier) := ClassName.splitModifier unsigned
    match parseModifier modifier with
    | some modifier => static ++ (headReadings roots modifier head).map (make modifier negative)
    | none => static

end AtomicCss.Candidate
