import AtomicCss.Number.Literal

/-!
Double-precision numbers. The size of a finite one is a natural number of units, a unit being the
smallest positive one, `2 ^ (-1074)`. All arithmetic is exact up to one rounding to the nearest
representable number, a tie going to the even one.
-/

namespace AtomicCss

inductive Binary64 where
  | nan
  | infinite (negative : Bool)
  | finite (negative : Bool) (units : Nat)
  deriving DecidableEq, Repr

namespace Binary64

def one : Nat := Nat.pow 2 1074

/-- The least number of units that is too large. -/
def limit : Nat := Nat.pow 2 2098

def precision : Nat := 53

/-- The natural number nearest to a quotient; a tie goes to the even one. -/
def nearest (dividend divisor : Nat) : Nat :=
  let quotient := dividend / divisor
  let remainder := dividend % divisor
  if divisor < 2 * remainder || (divisor == 2 * remainder && quotient % 2 == 1) then quotient + 1
  else quotient

def roundUnits (dividend divisor : Nat) : Nat :=
  let shift := (dividend / divisor).log2 - (precision - 1)
  nearest dividend (divisor * Nat.pow 2 shift) * Nat.pow 2 shift

def ofRatio (negative : Bool) (dividend divisor : Nat) : Binary64 :=
  let units := roundUnits dividend divisor
  if units < limit then .finite negative units else .infinite negative

/-- The number nearest to `digits * 10 ^ exponent`. Exponents far outside the range are not raised
to powers. -/
def ofDecimal (negative : Bool) (digits : Nat) (exponent : Int) : Binary64 :=
  let length := (Nat.toDigits 10 digits).length
  if digits = 0 ∨ exponent + length < -400 then .finite negative 0
  else if 400 < exponent + length then .infinite negative
  else if 0 ≤ exponent then ofRatio negative (digits * Nat.pow 10 exponent.toNat * one) 1
  else ofRatio negative (digits * one) (Nat.pow 10 (-exponent).toNat)

def ofLiteral : Number.Literal → Binary64
  | .decimal negative digits exponent => ofDecimal negative digits exponent
  | .infinity negative => .infinite negative
  | .nan => .nan

def parse? (text : String) : Option Binary64 :=
  (Number.Literal.parse? text.toList).map ofLiteral

def mulNat (number : Binary64) (factor : Nat) : Binary64 :=
  match number with
  | .finite negative units => ofRatio negative (units * factor) 1
  | other => other

def divNat (number : Binary64) (divisor : Nat) : Binary64 :=
  match number with
  | .finite negative units => ofRatio negative units divisor
  | other => other

/-- The nearest integer; a tie goes away from zero. -/
def round (number : Binary64) : Binary64 :=
  match number with
  | .finite negative units => .finite negative ((2 * units + one) / (2 * one) * one)
  | other => other

def isNonNegative : Binary64 → Bool
  | .nan => false
  | .infinite negative => !negative
  | .finite negative units => !negative || units == 0

end Binary64

end AtomicCss
