import AtomicCss.Css.Delimiter
import AtomicCss.Text.Cut

/-!
Lists of classes, and which words can be classes at all.
-/

namespace AtomicCss.Extract

structure ListReader where
  depth : Nat
  escaped : Bool
  deriving DecidableEq, Repr

namespace ListReader

def initial : ListReader := ⟨0, false⟩

def step (state : ListReader) (c : Char) : ListReader :=
  if state.escaped then { state with escaped := false }
  else if c = '\\' then { state with escaped := true }
  else if c = '[' || c = '(' then { state with depth := state.depth + 1 }
  else if c = ']' || c = ')' then { state with depth := state.depth - 1 }
  else state

def cuts (state : ListReader) (c : Char) : Bool :=
  state == initial && Text.isBlank c

end ListReader

/-- The words of a class list. Blanks in brackets and escaped blanks do not end a word. -/
def splitClasses (text : List Char) : List (List Char) :=
  (Text.pieces ListReader.step ListReader.cuts ListReader.initial text).filter (!·.isEmpty)

def isAllowedChar (c : Char) : Bool :=
  c.isAlphanum || "-_/:.%#[]()!&>+*=@,\x27\"\\".toList.contains c

def needsBrackets (c : Char) : Bool :=
  "\x27\">&,+".toList.contains c

/-- Whether brackets and quotes are closed in a word, and marks stand where they may. `previous` is
the character in front of the text. -/
def isWellFormedFrom : (previous : Option Char) → (depth : Nat) → Css.Quoting → List Char → Bool
  | _, depth, quoting, [] => quoting == .outside && depth == 0
  | previous, depth, quoting, c :: rest =>
      if quoting != .outside then isWellFormedFrom (some c) depth (quoting.step c) rest
      else if c = '[' || c = '(' then isWellFormedFrom (some c) (depth + 1) .outside rest
      else if c = ']' || c = ')' then
        depth != 0 && isWellFormedFrom (some c) (depth - 1) .outside rest
      else if depth == 0 && needsBrackets c then false
      else if Css.isQuote c then isWellFormedFrom (some c) depth (.inside c) rest
      else if c = '!' && depth == 0 && previous.isSome && !rest.isEmpty && previous != some ':' then
        false
      else isWellFormedFrom (some c) depth .outside rest

def isCandidate (word : List Char) : Bool :=
  !word.isEmpty &&
    !Text.startsWith ['.'] word && !Text.startsWith ['/'] word &&
    word.getLast? != some ':' && word.getLast? != some '\\' &&
    word.all isAllowedChar &&
    word.any (fun c => c.isAlpha || c == '[') &&
    isWellFormedFrom none 0 .outside word

end AtomicCss.Extract
