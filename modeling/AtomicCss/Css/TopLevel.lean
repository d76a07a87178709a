import AtomicCss.Text.Cut
import AtomicCss.Css.Delimiter

/-!
Lists in CSS values. A separator counts only outside quotes and outside `()`, `[]` and `{}`, whose
three kinds share one depth. A backslash has no meaning here.
-/

namespace AtomicCss.Css

structure Nesting where
  depth : Nat
  quote : Option Char
  deriving DecidableEq, Repr

namespace Nesting

def outside : Nesting := ⟨0, none⟩

def opens (c : Char) : Bool :=
  c == '(' || c == '[' || c == '{'

def closes (c : Char) : Bool :=
  c == ')' || c == ']' || c == '}'

def step (state : Nesting) (c : Char) : Nesting :=
  match state.quote with
  | some quote => if c = quote then { state with quote := none } else state
  | none =>
      if isQuote c then { state with quote := some c }
      else if opens c then { state with depth := state.depth + 1 }
      else if closes c then { state with depth := state.depth - 1 }
      else state

def cuts (separator : Char) (state : Nesting) (c : Char) : Bool :=
  c == separator && state == outside && !isQuote c && !opens c && !closes c

end Nesting

/-- The parts of a value between the separators outside quotes and brackets. -/
def splitTopLevel (separator : Char) (value : List Char) : List (List Char) :=
  Text.pieces Nesting.step (Nesting.cuts separator) Nesting.outside value

theorem join_splitTopLevel (separator : Char) (value : List Char) :
    Text.join [separator] (splitTopLevel separator value) = value := by
  apply Text.join_pieces
  intro state c hcut
  simp only [Nesting.cuts, Bool.and_eq_true, beq_iff_eq] at hcut
  exact hcut.1.1.1.1

end AtomicCss.Css
