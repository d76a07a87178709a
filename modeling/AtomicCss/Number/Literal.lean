import AtomicCss.Text.Cut

/-!
Number literals: an optional sign, then digits with an optional point and an optional exponent, or
one of the words `inf`, `infinity` and `nan` in any case.
-/

namespace AtomicCss.Number

inductive Literal where
  /-- The number `digits * 10 ^ exponent`, possibly negated. -/
  | decimal (negative : Bool) (digits : Nat) (exponent : Int)
  | infinity (negative : Bool)
  | nan
  deriving DecidableEq, Repr

namespace Literal

def natOfDigits (digits : List Char) : Nat :=
  digits.foldl (fun number c => number * 10 + (c.toNat - '0'.toNat)) 0

def splitSign : List Char → Bool × List Char
  | '-' :: rest => (true, rest)
  | '+' :: rest => (false, rest)
  | text => (false, text)

/-- The exponent after the digits of a number; no text is the exponent zero. -/
def parseExponent? : List Char → Option Int
  | [] => some 0
  | c :: rest =>
      let (negative, digits) := splitSign rest
      if (c == 'e' || c == 'E') && Text.isDigits digits then
        some (if negative then -(natOfDigits digits : Int) else natOfDigits digits)
      else none

def splitDigits (text : List Char) : List Char × List Char × List Char :=
  let whole := text.takeWhile Char.isDigit
  match text.dropWhile Char.isDigit with
  | '.' :: rest => (whole, rest.takeWhile Char.isDigit, rest.dropWhile Char.isDigit)
  | rest => (whole, [], rest)

def parseDecimal? (negative : Bool) (text : List Char) : Option Literal := do
  let (whole, fraction, rest) := splitDigits text
  if whole.isEmpty && fraction.isEmpty then none
  else
    let exponent ← parseExponent? rest
    some (.decimal negative (natOfDigits (whole ++ fraction)) (exponent - fraction.length))

def parse? (text : List Char) : Option Literal :=
  let (negative, rest) := splitSign text
  let word := String.ofList (rest.map Char.toLower)
  if word = "inf" || word = "infinity" then some (.infinity negative)
  else if word = "nan" then some .nan
  else parseDecimal? negative rest

end Literal

def isLiteral (text : String) : Bool :=
  (Literal.parse? text.toList).isSome

end AtomicCss.Number
