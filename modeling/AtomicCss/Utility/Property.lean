import AtomicCss.Utility.Basic

/-!
Classes that are one declaration: `[property:value]`.
-/

namespace AtomicCss.Utility

def isPropertyChar (c : Char) : Bool :=
  c.isLower || c.isDigit || c == '-'

/-- A lowercase name that starts with a letter, possibly after two dashes. -/
def isProperty (property : String) : Bool :=
  let name := (Text.after? "--".toList property.toList).getD property.toList
  match name with
  | [] => false
  | first :: rest => first.isLower && rest.all isPropertyChar

def compileProperty? (candidate : Candidate) (_ : Theme) : Option (List Sheet.Node) :=
  match candidate.reading with
  | .property property value =>
      if candidate.modifier.isNone && isProperty property then
        some [Sheet.Node.declare property value]
      else none
  | _ => none

def property : Utility where
  name := "arbitrary-property"
  priority := .arbitraryHandler
  takesProperties := true
  compile := compileProperty?

end AtomicCss.Utility
