import AtomicCss.Css.Lexical
import AtomicCss.Css.Statement

/-!
User-defined utilities: `@utility` blocks of a CSS text. A pattern is a class name in which a
segment may be the wildcard `*`.
-/

namespace AtomicCss.Utility

structure NestedRule where
  selector : String
  declarations : List (String × String)
  deriving DecidableEq, Repr

structure Definition where
  pattern : String
  declarations : List (String × String)
  nested : List NestedRule
  deriving DecidableEq, Repr

inductive DefinitionError where
  | emptyPattern
  | partialWildcard (pattern : String)
  | invalidPattern (pattern : String)
  | noDeclarations (pattern : String)
  deriving DecidableEq, Repr

def DefinitionError.message : DefinitionError → String
  | .emptyPattern => "utility pattern is empty"
  | .partialWildcard pattern =>
      "utility pattern '" ++ pattern ++ "' mixes '*' with other characters in one segment"
  | .invalidPattern pattern =>
      "utility pattern '" ++ pattern ++ "' must be lowercase words joined by '-'"
  | .noDeclarations pattern => "utility '" ++ pattern ++ "' has no declarations"

namespace Pattern

def isWordChar (c : Char) : Bool :=
  c.isLower || c.isDigit

def isWildcard (segment : List Char) : Bool :=
  segment == ['*']

def isMixed (segment : List Char) : Bool :=
  segment.contains '*' && !isWildcard segment

def isWord (segment : List Char) : Bool :=
  !segment.isEmpty && segment.all isWordChar

/-- Lowercase words and wildcards joined by dashes; the first segment is a word that starts with a
letter. -/
def isWellFormed (pattern : List Char) : Bool :=
  match Text.splitOn '-' pattern with
  | [] => false
  | first :: rest =>
      isWord first && first.head?.any Char.isLower &&
        rest.all fun segment => isWord segment || isWildcard segment

end Pattern

namespace Definition

def isWildcard (definition : Definition) : Bool :=
  definition.pattern.toList.contains '*'

def root (definition : Definition) : String :=
  match (Text.cutsAt '-' definition.pattern.toList).find? fun parts =>
      Text.startsWith ['*'] parts.2 with
  | some (head, _) => String.ofList head
  | none => definition.pattern

def hasDeclarations (definition : Definition) : Bool :=
  !definition.declarations.isEmpty ||
    definition.nested.any fun rule => !rule.declarations.isEmpty

def validate (definition : Definition) : Except DefinitionError Unit :=
  let pattern := definition.pattern.toList
  if pattern.isEmpty then .error .emptyPattern
  else if (Text.splitOn '-' pattern).any Pattern.isMixed then
    .error (.partialWildcard definition.pattern)
  else if !Pattern.isWellFormed pattern then .error (.invalidPattern definition.pattern)
  else if !definition.hasDeclarations then .error (.noDeclarations definition.pattern)
  else .ok ()

end Definition

/-- A statement `property: value`. Text with a block in it is no declaration. -/
def declaration? (statement : List Char) : Option (String × String) := do
  let (property, value) ← Css.nameAndValue? statement
  if property.isEmpty || value.isEmpty || value.contains '{' then none
  else some (String.ofList property, String.ofList value)

def nestedRule? (header body : List Char) : Option NestedRule :=
  let selector := Text.trim header
  if selector.isEmpty then none
  else some ⟨String.ofList selector, (Css.splitTopLevel ';' body).filterMap declaration?⟩

/-- Reads the header and the body of an `@utility` block. The pattern is the first word of the
header. -/
def Definition.ofBlock (block : Css.Block) : Definition :=
  let statements := Css.statements true block.body
  { pattern := String.ofList ((Text.words block.header).head?.getD [])
    declarations := statements.filterMap fun statement =>
      match statement with
      | .plain text => declaration? text
      | .block _ _ => none
    nested := statements.filterMap fun statement =>
      match statement with
      | .plain _ => none
      | .block header body => nestedRule? header body }

/-- The definitions of a CSS text in order, as written: none of them is validated. -/
def definitions (css : List Char) : List Definition :=
  (Css.blocks "@utility".toList css).map Definition.ofBlock

end AtomicCss.Utility
