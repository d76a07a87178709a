import AtomicCss.Number.Binary64
import AtomicCss.Theme.Reference
import AtomicCss.Utility.Basic
import AtomicCss.Utility.Definition
import AtomicCss.Utility.ValueType
import AtomicCss.Utility.Wildcard

/-!
User-defined utilities at work. A definition without a wildcard answers for its pattern; one with
wildcards answers for the root in front of the first, and what the wildcards stand for is put into
its values.
-/

namespace AtomicCss.Utility

namespace Custom

structure Captures where
  texts : List String
  /-- The arbitrary value of the class, if that is what a wildcard stands for. -/
  arbitrary : Option Candidate.Value

/-- The next capture and those after it; the last one is used again and again. -/
def nextCapture : List String → String × List String
  | [] => ("", [])
  | [last] => (last, [last])
  | first :: rest => (first, rest)

def isOfType (kind capture : String) : Bool :=
  if kind = "integer" then Text.isDigits capture.toList
  else if kind = "number" || kind = "percentage" then
    (Binary64.parse? capture).any Binary64.isNonNegative
  else false

def unquote? (text : List Char) : Option String :=
  let between (quote : Char) : Option (List Char) :=
    (Text.after? [quote] text).bind (Text.before? [quote])
  (between '"' <|> between '\x27').map String.ofList

def themeValue? (theme : Theme) (template : List Char) (capture : String) : Option String :=
  let key := Text.replaceChar '*' (Theme.underscored capture).toList template
  (theme.get? ("--" ++ String.ofList key)).map (theme.inline Theme.inlineDepth)

/-- Tries one argument of `--value(...)`: a theme key template, a bracketed kind of arbitrary value,
a quoted word, or a data type. -/
def argumentValue? (theme : Theme) (arbitrary : Option Candidate.Value) (capture : String)
    (argument : List Char) : Option String :=
  match Text.after? "--".toList argument with
  | some template => if arbitrary.isSome then none else themeValue? theme template capture
  | none =>
      match (Text.after? ['['] argument).bind (Text.before? [']']) with
      | some kind =>
          (arbitrary.filter fun value =>
            kind == ['*'] || accepts value [ValueType.ofHint (String.ofList kind)]).map
              Candidate.Value.text
      | none =>
          match unquote? argument with
          | some word => if arbitrary.isNone && word == capture then some word else none
          | none =>
              let kind := String.ofList argument
              if arbitrary.isNone && isOfType kind capture then
                some (if kind = "percentage" then capture ++ "%" else capture)
              else none

/-- The value of `--value(...)`: that of the first argument that has one. An arbitrary value that no
argument takes is used as it is. -/
def functionValue? (theme : Theme) (arbitrary : Option Candidate.Value) (capture : String)
    (arguments : List Char) : Option String :=
  (Css.splitTopLevel ',' arguments).findSome?
      (fun argument => argumentValue? theme arbitrary capture (Text.trim argument)) <|>
    arbitrary.map Candidate.Value.text

/-- A `*` between two blanks is a multiplication. -/
def isArithmetic (previous : Option Char) (rest : List Char) : Bool :=
  previous.any Text.isBlank && rest.head?.any Text.isBlank

/-- Puts captures into a value: one for each `*`, and one for each `--value(...)`. -/
def substituteFrom? (resolve? : String → List Char → Option String) (previous : Option Char)
    (captures : List String) (text : List Char) : Option (List Char) :=
  match _hvalue : Text.after? "--value(".toList text with
  | some opened =>
      match _hspan : Css.Delimiter.parens.span? opened with
      | none => none
      | some (arguments, rest) => do
          let (capture, captures) := nextCapture captures
          let value ← resolve? capture arguments
          let tail ← substituteFrom? resolve? (some ')') captures rest
          some (value.toList ++ tail)
  | none =>
      match text with
      | [] => some []
      | c :: rest =>
          if c = '*' && !isArithmetic previous rest then do
            let (capture, captures) := nextCapture captures
            let tail ← substituteFrom? resolve? (some c) captures rest
            some (capture.toList ++ tail)
          else (substituteFrom? resolve? (some c) captures rest).map (c :: ·)
termination_by text.length
decreasing_by
  · have hvalue := Text.length_lt_of_after? (by decide) _hvalue
    have hspan := Css.Delimiter.length_lt_of_span? _hspan
    omega
  · simp
  · simp

def substitute? (theme : Theme) (captures : Captures) (value : String) : Option String :=
  (substituteFrom? (functionValue? theme captures.arbitrary) none captures.texts
    value.toList).map String.ofList

/-- What the wildcards stand for in a root and a value. An arbitrary value only fits a pattern whose
one wildcard is its tail. -/
def captures? (definition : Definition) (root : String) (value : Candidate.Value) :
    Option Captures :=
  match value with
  | .named text _ =>
      (Wildcard.captures? definition.pattern.toList (root ++ "-" ++ text).toList).map
        fun parts => ⟨parts.map String.ofList, none⟩
  | .arbitrary text _ =>
      let pattern := definition.pattern.toList
      if pattern.count '*' = 1 ∧ Text.before? "-*".toList pattern = some root.toList then
        some ⟨[text], some value⟩
      else none

def substituteAll? (theme : Theme) (captures : Captures) (declarations : List (String × String)) :
    Option (List Sheet.Node) :=
  declarations.mapM fun entry =>
    (substitute? theme captures entry.2).map fun value => Sheet.Node.declare entry.1 value

def compileWildcard? (definition : Definition) (candidate : Candidate) (theme : Theme) :
    Option (List Sheet.Node) :=
  match candidate.reading with
  | .functional root (some value) =>
      if candidate.negative || candidate.modifier.isSome then none
      else do
        let captures ← captures? definition root value
        let own ← substituteAll? theme captures definition.declarations
        let nested ← definition.nested.mapM fun rule =>
          (substituteAll? theme captures rule.declarations).map fun children =>
            Sheet.Node.rule rule.selector children
        some (own ++ nested)
  | _ => none

def declareAll (declarations : List (String × String)) : List Sheet.Node :=
  declarations.map fun entry => Sheet.Node.declare entry.1 entry.2

def compileStatic? (definition : Definition) (candidate : Candidate) (_ : Theme) :
    Option (List Sheet.Node) :=
  match candidate.reading with
  | .static root =>
      if root = definition.pattern then
        some (declareAll definition.declarations ++
          definition.nested.map fun rule => .rule rule.selector (declareAll rule.declarations))
      else none
  | _ => none

end Custom

def ofDefinition (definition : Definition) : Except DefinitionError Utility :=
  match definition.validate with
  | .error error => .error error
  | .ok () =>
      if definition.isWildcard then
        .ok
          { name := "@utility " ++ definition.pattern
            priority := .namespaceHandler
            functionalRoots := [definition.root]
            compile := Custom.compileWildcard? definition }
      else
        .ok
          { name := "@utility " ++ definition.pattern
            priority := .exactStatic
            staticRoots := [definition.pattern]
            compile := Custom.compileStatic? definition }

end AtomicCss.Utility
