import AtomicCss.Text.Cut
import AtomicCss.Css.Delimiter

/-!
The lexical state of a CSS text: how many blocks are open, and whether the reader is in a comment or
in quoted text. A position is at top level when all of these are closed there.
-/

namespace AtomicCss.Css

inductive Mode where
  | code
  /-- Just after a `/` in code. -/
  | slash
  | comment
  /-- Just after a `*` in a comment. -/
  | star
  | quoted (quoting : Quoting)
  deriving DecidableEq, Repr

structure Lexical where
  depth : Nat
  mode : Mode
  deriving DecidableEq, Repr

namespace Lexical

def initial : Lexical := ⟨0, .code⟩

def stepCode (depth : Nat) (c : Char) : Lexical :=
  if c = '/' then ⟨depth, .slash⟩
  else if isQuote c then ⟨depth, .quoted (.inside c)⟩
  else if c = '{' then ⟨depth + 1, .code⟩
  else if c = '}' then ⟨depth - 1, .code⟩
  else ⟨depth, .code⟩

def step (state : Lexical) (c : Char) : Lexical :=
  match state.mode with
  | .code => stepCode state.depth c
  | .slash => if c = '*' then ⟨state.depth, .comment⟩ else stepCode state.depth c
  | .comment => if c = '*' then ⟨state.depth, .star⟩ else ⟨state.depth, .comment⟩
  | .star =>
      if c = '/' then ⟨state.depth, .code⟩
      else if c = '*' then ⟨state.depth, .star⟩
      else ⟨state.depth, .comment⟩
  | .quoted quoting =>
      match quoting.step c with
      | .outside => ⟨state.depth, .code⟩
      | quoting => ⟨state.depth, .quoted quoting⟩

/-- Whether the state is at top level in front of the character `next`. The `*` that opens a comment
belongs to the comment, the `/` that closes it does not. -/
def isTop (state : Lexical) (next : Option Char) : Bool :=
  state.depth == 0 &&
    match state.mode with
    | .code => true
    | .slash => next != some '*'
    | .comment => false
    | .star => next == some '/'
    | .quoted _ => false

def run (state : Lexical) (text : List Char) : Lexical :=
  text.foldl step state

end Lexical

def isTopLevel (text : List Char) (index : Nat) : Bool :=
  (Lexical.initial.run (text.take index)).isTop (text.drop index).head?

/-- `isTopLevel` at a byte offset; an offset inside a character means the next character. -/
def isTopLevelAtByte (text : List Char) (offset : Nat) : Bool :=
  isTopLevel text (Text.charsBeforeByte offset text)

structure Block where
  /-- The text between the keyword and the opening brace. -/
  header : List Char
  body : List Char
  deriving DecidableEq, Repr

/-- The blocks of `css` that start with `keyword`, in the text that follows its first `index`
characters. The search ends at the first keyword whose block does not open or does not close. -/
def blocksFrom (keyword css : List Char) (index : Nat) (text : List Char) : List Block :=
  match text with
  | [] => []
  | c :: rest =>
      match hkeyword : Text.after? keyword (c :: rest) with
      | none => blocksFrom keyword css (index + 1) rest
      | some tail =>
          if isTopLevel css index then
            match _hopen : Text.cut? '{' tail with
            | none => []
            | some (header, opened) =>
                match _hclose : Delimiter.braces.span? opened with
                | none => []
                | some (body, after) =>
                    ⟨header, body⟩ ::
                      blocksFrom keyword css (css.length - after.length) after
          else blocksFrom keyword css (index + 1) rest
termination_by text.length
decreasing_by
  · simp
  · have hkeyword := congrArg List.length (Text.eq_append_of_after? hkeyword)
    have hopen := Text.length_lt_of_cut? _hopen
    have hclose := Delimiter.length_lt_of_span? _hclose
    simp only [List.length_append] at hkeyword
    omega
  · simp

def blocks (keyword css : List Char) : List Block :=
  blocksFrom keyword css 0 css

end AtomicCss.Css
