import AtomicCss.Utility.Basic
import AtomicCss.Utility.Length

/-!
Font sizes, with the line height of the modifier or the one that the theme pairs with the size.
-/

namespace AtomicCss.Utility

def lineHeight? (theme : Theme) : Candidate.Modifier → Option String
  | .named name =>
      theme.resolve? (some name) ["--leading"] <|> spacingStep? theme name false
  | .arbitrary text => some text

def fontSize? (theme : Theme) (value : Candidate.Value) : Option (String × Option String) :=
  match value with
  | .named name _ =>
      (theme.resolve? (some name) ["--text"]).map fun size =>
        (size, theme.resolve? (some (name ++ "--line-height")) ["--text"])
  | .arbitrary text _ =>
      if accepts value [.length, .percentage] then some (text, none) else none

def compileFontSize? (candidate : Candidate) (theme : Theme) : Option (List Sheet.Node) := do
  if candidate.negative then none
  else
    let value ← candidate.value?
    let (size, paired) ← fontSize? theme value
    let lineHeight ←
      match candidate.modifier with
      | some modifier => (lineHeight? theme modifier).map some
      | none => some paired
    some (Sheet.Node.declare "font-size" size ::
      (lineHeight.map fun height => Sheet.Node.declare "line-height" height).toList)

def fontSize : Utility where
  name := "font-size"
  priority := .standardFunctional
  functionalRoots := ["text"]
  compile := compileFontSize?

end AtomicCss.Utility
