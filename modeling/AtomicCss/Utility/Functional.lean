import AtomicCss.Utility.Basic
import AtomicCss.Utility.Color

/-!
Utilities of a root and a value: which properties a root sets, and how the value is found.
-/

namespace AtomicCss.Utility

inductive Numeric where
  | nothing
  | integer
  | percent
  | milliseconds
  /-- A step of the spacing scale. -/
  | spacing
  /-- A positive integer between pieces of text. -/
  | template (pieces : List String)
  deriving DecidableEq, Repr

def Numeric.value? (numeric : Numeric) (theme : Theme) (text : String) : Option String :=
  match numeric with
  | .nothing => none
  | .integer => if isInteger text then some text else none
  | .percent => if isScaleNumber text then some (text ++ "%") else none
  | .milliseconds => if isInteger text then some (text ++ "ms") else none
  | .spacing => spacingStep? theme text false
  | .template pieces =>
      if isInteger text && text != "0" then some (text.intercalate pieces) else none

inductive ValueRule where
  | color
  | spacing (keywords : List (String × String))
  | size (spaces : List String) (keywords : List (String × String))
  /-- A root without a value means `bare`, and integers are pixels. -/
  | length (bare : String) (spaces : List String)
  /-- A root without a value means the radius of the theme. -/
  | radius
  | themed (spaces : List String) (keywords : List (String × String)) (numeric : Numeric)
      (allowed : List ValueType)
  deriving DecidableEq, Repr

def lengthTypes : List ValueType :=
  [.length, .percentage, .number, .var]

def radiusKeywords : List (String × String) :=
  [("none", "0"), ("full", "calc(infinity * 1px)")]

namespace ValueRule

def bareValue? (rule : ValueRule) (theme : Theme) : Option String :=
  match rule with
  | .length bare _ => some bare
  | .radius => some ((theme.resolve? none ["--radius"]).getD "0.25rem")
  | _ => none

def themedValue? (theme : Theme) (spaces : List String) (keywords : List (String × String))
    (numeric : Numeric) (allowed : List ValueType) (value : Candidate.Value) : Option String :=
  match value with
  | .named name _ =>
      keywords.lookup name <|> theme.resolve? (some name) spaces <|> numeric.value? theme name
  | .arbitrary text _ => if accepts value allowed then some text else none

def value? (rule : ValueRule) (theme : Theme) (value : Candidate.Value) (negative : Bool) :
    Option String :=
  match rule, value with
  | .color, _ => none
  | .spacing keywords, .named name _ =>
      match keywords.lookup name with
      | some keyword => if negative then none else some keyword
      | none => resolveSpacing? theme value negative
  | .spacing _, .arbitrary _ _ => resolveSpacing? theme value negative
  | .size spaces keywords, _ => resolveSize? theme spaces keywords value negative
  | .length _ spaces, .named name _ =>
      theme.resolve? (some name) spaces <|>
        (if isInteger name then some (name ++ "px") else none)
  | .length _ _, .arbitrary text _ =>
      if accepts value [.length, .number] then some text else none
  | .radius, .named name _ =>
      radiusKeywords.lookup name <|> theme.resolve? (some name) ["--radius"]
  | .radius, .arbitrary text _ => if accepts value lengthTypes then some text else none
  | .themed spaces keywords numeric allowed, _ =>
      (themedValue? theme spaces keywords numeric allowed value).map (negateIf negative)

/-- Whether a modifier may stand at a value. Outside colors it only makes fractions. -/
def admitsModifier (rule : ValueRule) (value : Candidate.Value)
    (modifier : Option Candidate.Modifier) : Bool :=
  modifier.isNone ||
    match rule with
    | .size _ _ => value.fraction.isSome
    | _ => false

end ValueRule

structure Functional where
  name : String
  priority : Priority
  roots : List (String × List String)
  rule : ValueRule
  negatable : Bool := false

namespace Functional

def compile? (functional : Functional) (internalPrefix : String) (candidate : Candidate)
    (theme : Theme) : Option (List Sheet.Node) :=
  match candidate.reading with
  | .functional root value =>
      match functional.roots.lookup root with
      | none => none
      | some properties =>
          let declareAll (value : String) : List Sheet.Node :=
            properties.map fun property => Sheet.Node.declare property value
          if candidate.negative && !functional.negatable then none
          else
            match value with
            | none =>
                if candidate.modifier.isSome || candidate.negative then none
                else (functional.rule.bareValue? theme).map declareAll
            | some value =>
                match functional.rule with
                | .color =>
                    (resolveColor? theme value).bind fun color =>
                      colorDeclarations? properties color candidate.modifier root internalPrefix
                | rule =>
                    if rule.admitsModifier value candidate.modifier then
                      (rule.value? theme value candidate.negative).map declareAll
                    else none
  | _ => none

def toUtility (functional : Functional) (internalPrefix : String) : Utility where
  name := functional.name
  priority := functional.priority
  functionalRoots := functional.roots.map Prod.fst
  compile := functional.compile? internalPrefix

end Functional

end AtomicCss.Utility
