import AtomicCss.Text.Cut

/-!
A class string is a chain of variant segments and a base utility, joined by a separator. Brackets
and parentheses are not cut, and a backslash hides the character after it.
-/

namespace AtomicCss.ClassName

structure Reader where
  square : Nat
  round : Nat
  escaped : Bool
  deriving DecidableEq, Repr

namespace Reader

def initial : Reader := ⟨0, 0, false⟩

def step (state : Reader) (c : Char) : Reader :=
  if state.escaped then { state with escaped := false }
  else if c = '\\' then { state with escaped := true }
  else if c = '[' then { state with square := state.square + 1 }
  else if c = ']' then { state with square := state.square - 1 }
  else if c = '(' then { state with round := state.round + 1 }
  else if c = ')' then { state with round := state.round - 1 }
  else state

def isReserved (c : Char) : Bool :=
  c == '\\' || c == '[' || c == ']' || c == '(' || c == ')'

def cuts (separator : Char) (state : Reader) (c : Char) : Bool :=
  c == separator && state == initial && !isReserved c

end Reader

/-- The segments of a class string; the last one is the base utility. -/
def segments (separator : Char) (text : List Char) : List (List Char) :=
  Text.pieces Reader.step (Reader.cuts separator) Reader.initial text

def defaultSeparator : Char := ':'

end AtomicCss.ClassName
