import AtomicCss.Number.Binary64

/-!
Decimal text of numbers: the fewest digits that read back as the number, without an exponent.
-/

namespace AtomicCss.Binary64

/-- How many digits stand before the point: the least `k` with the number below `10 ^ k`. -/
def pointPosition (units : Nat) : Int :=
  if one ≤ units then (Nat.toDigits 10 (units / one)).length
  else
    match (List.range 400).find? fun places => one ≤ units * Nat.pow 10 (places + 1) with
    | some places => -places
    | none => 0

def readsAs (units digits : Nat) (exponent : Int) : Bool :=
  ofDecimal false digits exponent == .finite false units

/-- The nearer of the two multiples of `10 ^ exponent` around a number that read back as it, the
larger one if they are equally near. -/
def multiple? (units : Nat) (exponent : Int) : Option (Nat × Int) :=
  let dividend := units * Nat.pow 10 (-exponent).toNat
  let divisor := one * Nat.pow 10 exponent.toNat
  let lower := dividend / divisor
  let candidates :=
    if 2 * (dividend % divisor) < divisor then [lower, lower + 1] else [lower + 1, lower]
  (candidates.find? fun digits => readsAs units digits exponent).map fun digits =>
    (digits, exponent)

/-- The fewest digits that read back as a positive number, and their exponent. -/
def shortest (units : Nat) : Nat × Int :=
  let position := pointPosition units
  ((List.range 17).findSome? fun (count : Nat) =>
    multiple? units (position - (count + 1))).getD (0, 0)

def positional (digits : Nat) (exponent : Int) : String :=
  let text := Nat.toDigits 10 digits
  if 0 ≤ exponent then String.ofList (text ++ List.replicate exponent.toNat '0')
  else
    let places := (-exponent).toNat
    if places < text.length then
      String.ofList
        (text.take (text.length - places) ++ '.' :: text.drop (text.length - places))
    else
      String.ofList ('0' :: '.' :: (List.replicate (places - text.length) '0' ++ text))

def text (number : Binary64) : String :=
  let sign (negative : Bool) : String := if negative then "-" else ""
  match number with
  | .nan => "NaN"
  | .infinite negative => sign negative ++ "inf"
  | .finite negative 0 => sign negative ++ "0"
  | .finite negative units =>
      let (digits, exponent) := shortest units
      sign negative ++ positional digits exponent

def roundedText (number : Binary64) : String :=
  (((number.mulNat 10000).round).divNat 10000).text

end AtomicCss.Binary64
