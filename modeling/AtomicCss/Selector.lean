import AtomicCss.Css.TopLevel

/-!
Selectors, and how a class name is written in one.
-/

namespace AtomicCss

namespace ClassName

/-- Characters that have a meaning in selectors and are written after a backslash. -/
def isSpecial (c : Char) : Bool :=
  "\\:/[]()&><+~%=!*@#\x27\".?$^|\x7b\x7d;".toList.contains c

def escapeChar (c : Char) : List Char :=
  if c = ',' then ['\\', '2', 'c', ' '] else if isSpecial c then ['\\', c] else [c]

/-- A digit written as the hexadecimal number of its code point. -/
def escapeDigit (c : Char) : List Char :=
  ['\\', '3', c, ' ']

def escapeLead : List Char → List Char
  | [] => []
  | c :: rest =>
      (if c.isDigit then escapeDigit c else escapeChar c) ++ rest.flatMap escapeChar

/-- A class name as it is written after the `.` of a selector. -/
def escapeList : List Char → List Char
  | '-' :: rest => '-' :: escapeLead rest
  | name => escapeLead name

def escape (name : String) : String :=
  String.ofList (escapeList name.toList)

end ClassName

structure Selector where
  text : String
  deriving DecidableEq, Repr, Inhabited

namespace Selector

def ofClass (name : String) : Selector :=
  ⟨"." ++ ClassName.escape name⟩

def escapeFirst (selector : String) : String :=
  match Text.cut? ' ' selector.toList with
  | some (first, rest) =>
      ClassName.escape (String.ofList first) ++ " " ++ String.ofList rest
  | none => ClassName.escape selector

def members (selector : Selector) : List (List Char) :=
  (Css.splitTopLevel ',' selector.text.toList).map Text.trim

def withSuffix (selector : Selector) (suffix : String) : Selector :=
  ⟨", ".intercalate (selector.members.map fun member => String.ofList member ++ suffix)⟩

/-- Appends a pseudo-class, or a pseudo-element if `name` brings its own colons. -/
def withPseudo (selector : Selector) (name : String) : Selector :=
  if Text.startsWith [':'] name.toList then selector.withSuffix name
  else selector.withSuffix (":" ++ name)

def withAttribute (selector : Selector) (condition : String) : Selector :=
  selector.withSuffix ("[" ++ condition ++ "]")

def descendantOf (selector : Selector) (ancestor : String) : Selector :=
  ⟨Text.trimmed ancestor ++ " " ++ selector.text⟩

def substitute (parent pattern : String) : String :=
  String.ofList (Text.replaceChar '&' parent.toList pattern.toList)

def mentionsParent (pattern : String) : Bool :=
  pattern.toList.contains '&'

/-- The selector of a pattern around this selector: it stands for each `&`, and a pattern without
`&` is an ancestor. -/
def relativize (selector : Selector) (pattern : String) : Selector :=
  if mentionsParent pattern then ⟨substitute selector.text pattern⟩
  else selector.descendantOf pattern

/-- The selector of a rule nested in a rule of `parent`: `&` is the parent, and without `&` the
nested selector is a descendant. -/
def nested (parent selector : String) : String :=
  if mentionsParent selector then substitute parent selector else parent ++ " " ++ selector

end Selector

end AtomicCss
