import AtomicCss.Css.Delimiter
import AtomicCss.Css.TopLevel
import AtomicCss.Theme.Basic

/-!
References between tokens: names that start with `--`, and `var(--name, fallback)`.
-/

namespace AtomicCss.Css

def isNameChar (c : Char) : Bool :=
  c.isAlphanum || c == '-' || c == '_'

/-- Changes each name that starts with `--`; `change` takes and gives the text after the dashes. -/
def mapNames (change : List Char → List Char) (text : List Char) : List Char :=
  match text with
  | [] => []
  | '-' :: '-' :: rest =>
      change (rest.takeWhile isNameChar) ++ mapNames change (rest.dropWhile isNameChar)
  | c :: rest => c :: mapNames change rest
termination_by text.length
decreasing_by
  · have := (List.dropWhile_sublist isNameChar (l := rest)).length_le
    simp
    omega
  · simp

/-- Changes each `var(...)`; `change` takes the text between the parentheses. From a `var(` that is
not closed on, the text is kept. -/
def mapVars (change : List Char → List Char) (text : List Char) : List Char :=
  match _hvar : Text.after? "var(".toList text with
  | some opened =>
      match _hspan : Delimiter.parens.span? opened with
      | some (inner, after) => change inner ++ mapVars change after
      | none => text
  | none =>
      match text with
      | [] => []
      | c :: rest => c :: mapVars change rest
termination_by text.length
decreasing_by
  · have hvar := Text.length_lt_of_after? (by decide) _hvar
    have hspan := Delimiter.length_lt_of_span? _hspan
    omega
  · simp

/-- The name in `var(...)`, and the fallback after the first top-level comma. -/
def varParts (inner : List Char) : List Char × Option (List Char) :=
  match splitTopLevel ',' inner with
  | [] => ([], none)
  | [name] => (Text.trim name, none)
  | name :: fallback => (Text.trim name, some (Text.join [','] fallback))

end AtomicCss.Css

namespace AtomicCss.Theme

/-- Writes the names of this theme in a value as they are written out. Other names are kept. -/
def prefixReferences (theme : Theme) (value : String) : String :=
  match theme.namePrefix with
  | none => value
  | some _ =>
      String.ofList <| Css.mapNames
        (fun rest =>
          let name := "--" ++ String.ofList rest
          if theme.contains name then (theme.varName name).toList else name.toList)
        value.toList

def lookupVar? (theme : Theme) (name : String) : Option String :=
  let unprefixed : Option String := do
    let namePrefix ← theme.namePrefix
    let rest ← Text.after? ("--" ++ namePrefix ++ "-").toList name.toList
    theme.get? ("--" ++ String.ofList rest)
  unprefixed <|> theme.get? name

/-- Replaces references by their values, or by their fallbacks, following references in these
`depth` times; what is left then is kept. -/
def inlineChars (theme : Theme) : (depth : Nat) → List Char → List Char
  | 0, text => text
  | depth + 1, text =>
      Css.mapVars
        (fun inner =>
          let (name, fallback) := Css.varParts inner
          match theme.lookupVar? (String.ofList name), fallback with
          | some value, _ => theme.inlineChars depth value.toList
          | none, some fallback => theme.inlineChars depth (Text.trim fallback)
          | none, none => "var(".toList ++ inner ++ [')'])
        text

def inline (theme : Theme) (depth : Nat) (text : String) : String :=
  String.ofList (theme.inlineChars depth text.toList)

def inlineDepth : Nat := 8

end AtomicCss.Theme
