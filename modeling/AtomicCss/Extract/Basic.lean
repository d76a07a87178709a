import AtomicCss.Extract.ClassList
import AtomicCss.Extract.Literal

/-!
Finding classes in files. Markup contributes its class attributes; all other text contributes its
string and template literals as well.
-/

namespace AtomicCss.Extract

def attributeNames : List String :=
  ["class", "className", "class:list", ":class", "v-bind:class"]

def isNameChar (c : Char) : Bool :=
  c.isAlphanum || c == '-' || c == '_'

/-- Whether a name stands alone between two characters. -/
def isBoundary (previous next : Option Char) : Bool :=
  !previous.any (fun c => isNameChar c || c == ':') && !next.any isNameChar

/-- The texts that an attribute holds, read after its `=`: a quoted value, the literals of an
expression in braces, or a word. -/
def attributeTexts (text : List Char) : List (List Char) :=
  match Text.trimStart text with
  | [] => []
  | c :: rest =>
      if Css.isQuote c then [(readQuoted c rest).1]
      else if c = '{' then literals (braceSpan 0 rest).1
      else [(c :: rest).takeWhile fun c => !(Text.isBlank c || c == '>')]

def textsAt (name : List Char) (previous : Option Char) (text : List Char) : List (List Char) :=
  match Text.after? name text with
  | none => []
  | some after =>
      if isBoundary previous after.head? then
        match Text.trimStart after with
        | '=' :: rest => attributeTexts rest
        | _ => []
      else []

def attributeValues (name : List Char) : (previous : Option Char) → List Char → List (List Char)
  | _, [] => []
  | previous, c :: rest =>
      textsAt name previous (c :: rest) ++ attributeValues name (some c) rest

def allAttributeValues (text : List Char) : List (List Char) :=
  attributeNames.flatMap fun name => attributeValues name.toList none text

def markupExtensions : List String :=
  ["html", "htm", "vue", "svelte", "astro", "yaml", "yml", "json", "toml"]

def classesIn (extension : Option String) (text : String) : List String :=
  let text := text.toList
  let isMarkup := extension.any markupExtensions.contains
  let sources := allAttributeValues text ++ if isMarkup then [] else literals text
  ((sources.flatMap fun source => splitClasses (Text.trim source)).filter isCandidate).map
    String.ofList |>.eraseDups

end AtomicCss.Extract
