/-!
A candidate is one reading of a base utility: `bg-red-500` may be the root `bg` with the value
`red-500`, or the root `bg-red` with the value `500`.
-/

namespace AtomicCss

namespace Candidate

inductive Value where
  /-- Text after the root. The fraction is set if value and modifier are both numbers. -/
  | named (text : String) (fraction : Option String)
  /-- Decoded content of brackets, possibly with a word that says what it is. -/
  | arbitrary (text : String) (hint : Option String)
  deriving DecidableEq, Repr

namespace Value

def text : Value → String
  | .named text _ => text
  | .arbitrary text _ => text

def isArbitrary : Value → Bool
  | .named _ _ => false
  | .arbitrary _ _ => true

def fraction : Value → Option String
  | .named _ fraction => fraction
  | .arbitrary _ _ => none

def hint : Value → Option String
  | .named _ _ => none
  | .arbitrary _ hint => hint

end Value

inductive Modifier where
  | named (text : String)
  | arbitrary (text : String)
  deriving DecidableEq, Repr

def Modifier.text : Modifier → String
  | .named text => text
  | .arbitrary text => text

inductive Reading where
  | static (root : String)
  | functional (root : String) (value : Option Value)
  | property (property value : String)
  deriving DecidableEq, Repr

namespace Reading

def root? : Reading → Option String
  | .static root => some root
  | .functional root _ => some root
  | .property _ _ => none

def value? : Reading → Option Value
  | .functional _ value => value
  | _ => none

end Reading

end Candidate

structure Candidate where
  reading : Candidate.Reading
  modifier : Option Candidate.Modifier
  negative : Bool
  important : Bool
  /-- The base utility without its importance mark. -/
  body : String
  deriving DecidableEq, Repr

namespace Candidate

def root? (candidate : Candidate) : Option String :=
  candidate.reading.root?

def value? (candidate : Candidate) : Option Value :=
  candidate.reading.value?

structure Roots where
  isStatic : String → Bool
  isFunctional : String → Bool

end Candidate

end AtomicCss
