import AtomicCss.Theme.Basic
import AtomicCss.Utility.ValueType

/-!
Lengths: steps of the spacing scale, sizes and fractions.
-/

namespace AtomicCss.Utility

def isScaleNumber (text : String) : Bool :=
  match Text.cut? '.' text.toList with
  | some (whole, fraction) => Text.isDigits whole && Text.isDigits fraction
  | none => Text.isDigits text.toList

def isInteger (text : String) : Bool :=
  Text.isDigits text.toList

def isSignable (value : String) : Bool :=
  Number.isLiteral value ||
    match Text.before? "px".toList value.toList with
    | some number => (Number.Literal.parse? number).isSome
    | none => false

def negate (value : String) : String :=
  if isSignable value then
    match Text.after? ['-'] value.toList with
    | some positive => String.ofList positive
    | none => "-" ++ value
  else "calc(" ++ value ++ " * -1)"

def negateIf (negative : Bool) (value : String) : String :=
  if negative then negate value else value

def spacingStep? (theme : Theme) (step : String) (negative : Bool) : Option String :=
  if isScaleNumber step && theme.contains "--spacing" then
    some ("calc(" ++ theme.varRef "--spacing" ++ " * " ++ (if negative then "-" else "") ++ step ++
      ")")
  else none

def spacingTypes : List ValueType :=
  [.length, .percentage, .number, .var, .other]

def resolveSpacing? (theme : Theme) (value : Candidate.Value) (negative : Bool) :
    Option String :=
  match value with
  | .named name _ =>
      if name = "px" then some (negateIf negative "1px")
      else
        match theme.resolve? (some name) ["--spacing"] with
        | some themed => some (negateIf negative themed)
        | none => spacingStep? theme name negative
  | .arbitrary text _ =>
      if accepts value spacingTypes then some (negateIf negative text) else none

/-- A number below `2 ^ 32`, possibly after a plus sign. -/
def word32? (text : List Char) : Option Nat :=
  let digits := (Text.after? ['+'] text).getD text
  if Text.isDigits digits then
    let number := Number.Literal.natOfDigits digits
    if number < Nat.pow 2 32 then some number else none
  else none

/-- A fraction of the whole as a percentage. One that is no whole percentage is left to be
computed. -/
def fractionPercentage? (fraction : String) : Option String := do
  let (numerator, denominator) ← Text.cut? '/' fraction.toList
  let numerator ← word32? numerator
  let denominator ← word32? denominator
  if denominator = 0 then none
  else if 100 * numerator < Nat.pow 2 32 ∧ 100 * numerator % denominator = 0 then
    some (Nat.repr (100 * numerator / denominator) ++ "%")
  else some ("calc(" ++ Nat.repr numerator ++ "/" ++ Nat.repr denominator ++ " * 100%)")

/-- A size: a fraction, a keyword, a name of the namespaces, or a spacing. A keyword has no
negative. -/
def resolveSize? (theme : Theme) (spaces : List String) (keywords : List (String × String))
    (value : Candidate.Value) (negative : Bool) : Option String :=
  match value with
  | .named _ (some fraction) => (fractionPercentage? fraction).map (negateIf negative)
  | .named name none =>
      match keywords.lookup name with
      | some keyword => if negative then none else some keyword
      | none =>
          match theme.resolve? (some name) spaces with
          | some themed => some (negateIf negative themed)
          | none => resolveSpacing? theme value negative
  | .arbitrary _ _ => resolveSpacing? theme value negative

end AtomicCss.Utility
