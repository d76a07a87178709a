import AtomicCss.Css.Comment
import AtomicCss.Dictionary
import AtomicCss.Utility.Definition

/-!
Theme source text: `@theme` blocks with tokens, rules with `@apply`, and `@utility` blocks.
-/

namespace AtomicCss

structure ThemeSource where
  /-- The tokens in order; a repeated name is listed again. -/
  customProperties : List (String × String)
  /-- The classes of each component selector. A repeated selector moves to the end. -/
  applies : Dictionary (List String)
  utilities : List Utility.Definition
  deriving DecidableEq

namespace ThemeSource

def empty : ThemeSource := ⟨[], Dictionary.empty, []⟩

def extend (source later : ThemeSource) : ThemeSource where
  customProperties := source.customProperties ++ later.customProperties
  applies := later.applies.entries.foldl
    (fun applies entry => applies.insertLast entry.1 entry.2) source.applies
  utilities := source.utilities ++ later.utilities

/-- How a block of tokens is cut: at `;` outside braces, and after the brace that closes a block. -/
def stepDepth (depth : Nat) (c : Char) : Nat :=
  if c = '{' then depth + 1 else if c = '}' then depth - 1 else depth

def endsStatement (depth : Nat) (c : Char) : Bool :=
  (c == ';' && depth == 0) || (c == '}' && depth ≤ 1)

/-- The pieces that are statements: those that do not end with a closing brace. -/
def keepStatements (first : List Char) : List (Char × List Char) → List (List Char)
  | [] => [first]
  | (ending, next) :: rest =>
      if ending = ';' then first :: keepStatements next rest else keepStatements next rest

def variableOf? (statement : List Char) : Option (String × String) := do
  let (name, value) ← Css.nameAndValue? statement
  let rest ← Text.after? "--".toList name
  if rest.isEmpty || value.isEmpty then none
  else some (String.ofList name, String.ofList value)

def variablesOf (body : List Char) : List (String × String) :=
  let parts := Text.cutAll stepDepth endsStatement 0 body
  (keepStatements parts.1 parts.2).filterMap variableOf?

def classesOf (body : List Char) : List String :=
  (Text.splitOn ';' body).flatMap fun statement =>
    match Text.after? "@apply".toList (Text.trim statement) with
    | some classes => (Text.words classes).map String.ofList
    | none => []

def applyOf? (statement : Css.Statement) : Option (String × List String) :=
  match statement with
  | .plain _ => none
  | .block header body =>
      let selector := Text.trim header
      let classes := classesOf body
      if selector.isEmpty || Text.startsWith ['@'] selector || classes.isEmpty then none
      else some (String.ofList selector, classes)

def appliesOf (css : List Char) : Dictionary (List String) :=
  ((Css.statements false css).filterMap applyOf?).foldl
    (fun applies entry => applies.insertLast entry.1 entry.2) Dictionary.empty

def parse (css : String) : ThemeSource :=
  let css := Css.stripComments css.toList
  { customProperties := (Css.blocks "@theme".toList css).flatMap fun block => variablesOf block.body
    applies := appliesOf css
    utilities := Utility.definitions css }

/-- Reads fragments as one source; later fragments win. -/
def parseAll (fragments : List String) : ThemeSource :=
  fragments.foldl (fun source css => source.extend (parse css)) empty

end ThemeSource

end AtomicCss
