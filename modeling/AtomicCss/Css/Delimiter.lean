import AtomicCss.Text.Offset

/-!
Matching delimiters. Text in quotes is skipped, a backslash in it hides the next character, and
comments count as any other text.
-/

namespace AtomicCss.Css

inductive Quoting where
  | outside
  | inside (quote : Char)
  | escaped (quote : Char)
  deriving DecidableEq, Repr

def isQuote (c : Char) : Bool :=
  c == '"' || c == '\x27'

def Quoting.step : Quoting → Char → Quoting
  | .outside, c => if isQuote c then .inside c else .outside
  | .inside quote, c =>
      if c = '\\' then .escaped quote else if c = quote then .outside else .inside quote
  | .escaped quote, _ => .inside quote

structure Delimiter where
  opening : Char
  closing : Char
  deriving DecidableEq, Repr

namespace Delimiter

def braces : Delimiter := ⟨'{', '}'⟩

def parens : Delimiter := ⟨'(', ')'⟩

/-- What precedes the closing delimiter that ends `depth + 1` open ones, and what follows it. -/
def spanFrom (delimiter : Delimiter) :
    Nat → Quoting → List Char → Option (List Char × List Char)
  | _, _, [] => none
  | depth, quoting, c :: rest =>
      let more (depth : Nat) :=
        (delimiter.spanFrom depth (quoting.step c) rest).map fun parts => (c :: parts.1, parts.2)
      if quoting != .outside || isQuote c then more depth
      else if c = delimiter.opening then more (depth + 1)
      else if c = delimiter.closing then
        match depth with
        | 0 => some ([], rest)
        | depth + 1 => more depth
      else more depth

/-- For the text after an opening delimiter: the text up to its partner, and the text after it. -/
def span? (delimiter : Delimiter) (text : List Char) : Option (List Char × List Char) :=
  delimiter.spanFrom 0 .outside text

/-- The byte offset of the partner of the opening delimiter at byte `offset`: no answer at all when
`offset` is not the start of a character or the end, and `none` when there is no such pair. -/
def closingOffset? (delimiter : Delimiter) (text : List Char) (offset : Nat) :
    Option (Option Nat) :=
  (Text.cutAtByte? offset text).map fun parts =>
    match parts.2 with
    | [] => none
    | c :: rest =>
        if c = delimiter.opening then
          (delimiter.span? rest).map fun span =>
            offset + c.utf8Size + Text.byteLength span.1
        else none

theorem eq_append_of_spanFrom {delimiter : Delimiter} {depth : Nat} {quoting : Quoting}
    {text inner rest : List Char} (h : delimiter.spanFrom depth quoting text = some (inner, rest)) :
    text = inner ++ delimiter.closing :: rest := by
  induction text generalizing depth quoting inner with
  | nil => simp [spanFrom] at h
  | cons c text ih =>
      have step {depth : Nat}
          (h : (delimiter.spanFrom depth (quoting.step c) text).map
            (fun parts => (c :: parts.1, parts.2)) = some (inner, rest)) :
          c :: text = inner ++ delimiter.closing :: rest := by
        obtain ⟨parts, hparts, heq⟩ := Option.map_eq_some_iff.mp h
        cases heq
        simp [ih hparts]
      simp only [spanFrom] at h
      split at h
      · exact step h
      · split at h
        · exact step h
        · split at h
          · split at h
            · simp_all
            · exact step h
          · exact step h

theorem eq_append_of_span? {delimiter : Delimiter} {text inner rest : List Char}
    (h : delimiter.span? text = some (inner, rest)) :
    text = inner ++ delimiter.closing :: rest :=
  eq_append_of_spanFrom h

theorem length_lt_of_span? {delimiter : Delimiter} {text inner rest : List Char}
    (h : delimiter.span? text = some (inner, rest)) : rest.length < text.length := by
  rw [eq_append_of_span? h]
  simp
  omega

end Delimiter

end AtomicCss.Css
