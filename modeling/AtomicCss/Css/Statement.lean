import AtomicCss.Css.Delimiter
import AtomicCss.Css.TopLevel

/-!
The statements of a block: texts ended by `;`, and headers followed by a block of their own.
-/

namespace AtomicCss.Css

inductive Statement where
  | plain (text : List Char)
  | block (header body : List Char)
  deriving DecidableEq, Repr

namespace Statement

def prepend (text : List Char) : List Statement → List Statement
  | [] => [.plain text]
  | .plain first :: rest => .plain (text ++ first) :: rest
  | .block header body :: rest => .block (text ++ header) body :: rest

end Statement

/-- The statements of a text. With `skipSpans`, parenthesised and quoted text is passed over as a
whole; a backslash has no meaning in quotes. What follows an opening character without a partner is
one plain statement. -/
def statements (skipSpans : Bool) (text : List Char) : List Statement :=
  match text with
  | [] => [.plain []]
  | c :: rest =>
      if c = ';' then .plain [] :: statements skipSpans rest
      else if c = '{' then
        match _hbody : Delimiter.braces.span? rest with
        | some (body, after) => .block [] body :: statements skipSpans after
        | none => [.plain (c :: rest)]
      else if skipSpans && c == '(' then
        match _hspan : Delimiter.parens.span? rest with
        | some (inner, after) =>
            Statement.prepend (c :: inner ++ [')']) (statements skipSpans after)
        | none => [.plain (c :: rest)]
      else if skipSpans && isQuote c then
        match _hquote : Text.cut? c rest with
        | some (inner, after) => Statement.prepend (c :: inner ++ [c]) (statements skipSpans after)
        | none => [.plain (c :: rest)]
      else Statement.prepend [c] (statements skipSpans rest)
termination_by text.length
decreasing_by
  · simp
  · have := Delimiter.length_lt_of_span? _hbody
    simp
    omega
  · have := Delimiter.length_lt_of_span? _hspan
    simp
    omega
  · have := Text.length_lt_of_cut? _hquote
    simp
    omega
  · simp

/-- The two sides of the first `:`, without the blanks around them. -/
def nameAndValue? (statement : List Char) : Option (List Char × List Char) :=
  (Text.cut? ':' (Text.trim statement)).map fun parts => (Text.trim parts.1, Text.trim parts.2)

end AtomicCss.Css
