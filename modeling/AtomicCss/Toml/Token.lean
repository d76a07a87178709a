import AtomicCss.Text.Cut

/-!
The tokens of a TOML text. Blanks and comments are left out; the ends of lines are tokens.
-/

namespace AtomicCss.Toml

inductive Token where
  | newline
  /-- One of `[`, `]`, `{`, `}`, `,`, `=` and `.`. -/
  | mark (c : Char)
  /-- A text in quotes; `multiline` for those in three of them. -/
  | quoted (value : String) (multiline : Bool)
  | bare (word : String)
  deriving DecidableEq, Repr

def isSpace (c : Char) : Bool :=
  c == ' ' || c == '\t'

/-- The characters of comments and texts: no control characters but the tab. -/
def isTextChar (c : Char) : Bool :=
  c == '\t' || (' ' ≤ c && c != '\x7f')

def isMark (c : Char) : Bool :=
  "[]\x7b\x7d,=.".toList.contains c

def isBareChar (c : Char) : Bool :=
  c.isAlphanum || c == '_' || c == '-' || c == '+'

def afterNewline? : List Char → Option (List Char)
  | '\n' :: rest => some rest
  | '\r' :: '\n' :: rest => some rest
  | _ => none

def digit? (c : Char) : Option Nat :=
  if c.isDigit then some (c.toNat - '0'.toNat)
  else if 'a' ≤ c && c ≤ 'f' then some (c.toNat - 'a'.toNat + 10)
  else if 'A' ≤ c && c ≤ 'F' then some (c.toNat - 'A'.toNat + 10)
  else none

def numeral? (base : Nat) (digits : List Char) : Option Nat :=
  digits.foldlM (fun number c =>
    (digit? c).bind fun digit => if digit < base then some (number * base + digit) else none) 0

def codeChar? (digits : List Char) : Option Char :=
  (numeral? 16 digits).bind fun code =>
    if code.isValidChar then some (Char.ofNat code) else none

def readEscape? : List Char → Option (Char × List Char)
  | [] => none
  | c :: rest =>
      match c with
      | 'b' => some ('\x08', rest)
      | 't' => some ('\t', rest)
      | 'n' => some ('\n', rest)
      | 'f' => some ('\x0c', rest)
      | 'r' => some ('\r', rest)
      | '"' => some ('"', rest)
      | '\\' => some ('\\', rest)
      | 'u' =>
          if rest.length < 4 then none
          else (codeChar? (rest.take 4)).map fun char => (char, rest.drop 4)
      | 'U' =>
          if rest.length < 8 then none
          else (codeChar? (rest.take 8)).map fun char => (char, rest.drop 8)
      | _ => none

theorem length_lt_of_readEscape? {text rest : List Char} {c : Char}
    (h : readEscape? text = some (c, rest)) : rest.length < text.length := by
  cases text with
  | nil => simp [readEscape?] at h
  | cons first text =>
      simp only [readEscape?] at h
      split at h
      case h_10 => simp at h
      case h_8 | h_9 =>
        split at h
        · simp at h
        · simp only [Option.map_eq_some_iff, Prod.mk.injEq] at h
          obtain ⟨_, _, _, rfl⟩ := h
          simp only [List.length_drop, List.length_cons]
          omega
      all_goals
        simp only [Option.some.injEq, Prod.mk.injEq] at h
        simp [h.2]

/-- How many quotes at the start of the text end a text in three quotes, and how many of them belong
to it. -/
def closing? (quote : Char) (text : List Char) : Option (Nat × Nat) :=
  let count := (text.takeWhile (· == quote)).length
  if count < 3 then none else some (min count 5, min count 5 - 3)

def addChar (c : Char) (result : Option (List Char × List Char)) :
    Option (List Char × List Char) :=
  result.map fun result => (c :: result.1, result.2)

theorem eq_some_of_addChar {c : Char} {result : Option (List Char × List Char)}
    {content rest : List Char} (h : addChar c result = some (content, rest)) :
    ∃ inner, result = some (inner, rest) := by
  simp only [addChar, Option.map_eq_some_iff, Prod.mk.injEq] at h
  obtain ⟨⟨inner, after⟩, hresult, _, rfl⟩ := h
  exact ⟨inner, hresult⟩

/-- Reads a text up to its closing quotes: its content, and what follows it. Escapes stand in double
quotes only. A backslash at the end of a line of a text in three quotes takes away the line's end
and all blanks after it, which are passed over while `skipping`. -/
def readQuoted? (quote : Char) (multiline skipping : Bool) (text : List Char) :
    Option (List Char × List Char) :=
  match text with
  | [] => none
  | c :: rest =>
      if c = quote then
        if multiline then
          match closing? quote text with
          | some (count, kept) => some (List.replicate kept quote, text.drop count)
          | none => addChar c (readQuoted? quote multiline false rest)
        else some ([], rest)
      else if c = '\\' ∧ quote = '"' then
        if multiline && (afterNewline? (rest.dropWhile isSpace)).isSome then
          readQuoted? quote multiline true rest
        else
          match _h : readEscape? rest with
          | some (char, after) => addChar char (readQuoted? quote multiline false after)
          | none => none
      else if isSpace c && skipping then readQuoted? quote multiline skipping rest
      else if isTextChar c then addChar c (readQuoted? quote multiline false rest)
      else if multiline && c == '\n' then
        if skipping then readQuoted? quote multiline skipping rest
        else addChar '\n' (readQuoted? quote multiline false rest)
      else if multiline && c == '\r' && rest.head? == some '\n' then
        readQuoted? quote multiline skipping rest
      else none
termination_by text.length
decreasing_by
  all_goals simp_wf
  have := length_lt_of_readEscape? _h
  omega

theorem length_le_of_readQuoted? {quote : Char} {multiline skipping : Bool}
    {text content rest : List Char}
    (h : readQuoted? quote multiline skipping text = some (content, rest)) :
    rest.length ≤ text.length := by
  fun_induction readQuoted? quote multiline skipping text generalizing content with
  | case1 => simp at h
  | _ => grind [eq_some_of_addChar, → length_lt_of_readEscape?]

def readText? (quote : Char) (rest : List Char) : Option (Token × List Char) :=
  match Text.after? [quote, quote] rest with
  | some body =>
      (readQuoted? quote true false ((afterNewline? body).getD body)).map fun result =>
        (.quoted (String.ofList result.1) true, result.2)
  | none =>
      (readQuoted? quote false false rest).map fun result =>
        (.quoted (String.ofList result.1) false, result.2)

theorem length_afterNewline?_getD_le (text : List Char) :
    ((afterNewline? text).getD text).length ≤ text.length := by
  unfold afterNewline?
  split <;> simp
  omega

theorem length_le_of_readText? {quote : Char} {text rest : List Char} {token : Token}
    (h : readText? quote text = some (token, rest)) : rest.length ≤ text.length := by
  simp only [readText?] at h
  split at h
  case h_1 body hbody =>
    simp only [Option.map_eq_some_iff, Prod.mk.injEq] at h
    obtain ⟨_, hread, _, rfl⟩ := h
    have := length_le_of_readQuoted? hread
    have := length_afterNewline?_getD_le body
    have := Text.length_lt_of_after? (by simp) hbody
    omega
  case h_2 =>
    simp only [Option.map_eq_some_iff, Prod.mk.injEq] at h
    obtain ⟨_, hread, _, rfl⟩ := h
    exact length_le_of_readQuoted? hread

def tokens? (text : List Char) : Option (List Token) :=
  match text with
  | [] => some []
  | c :: rest =>
      if isSpace c then tokens? rest
      else if c = '#' then tokens? (rest.dropWhile isTextChar)
      else if isMark c then (tokens? rest).map (.mark c :: ·)
      else if c = '"' ∨ c = '\x27' then
        match _h : readText? c rest with
        | some (token, after) => (tokens? after).map (token :: ·)
        | none => none
      else if isBareChar c then
        (tokens? (rest.dropWhile isBareChar)).map
          (.bare (String.ofList (c :: rest.takeWhile isBareChar)) :: ·)
      else if c = '\n' then (tokens? rest).map (.newline :: ·)
      else if c = '\r' ∧ rest.head? = some '\n' then tokens? rest
      else none
termination_by text.length
decreasing_by
  · simp
  · exact Nat.lt_succ_of_le (List.dropWhile_sublist isTextChar).length_le
  · simp
  · exact Nat.lt_succ_of_le (length_le_of_readText? _h)
  · exact Nat.lt_succ_of_le (List.dropWhile_sublist isBareChar).length_le
  · simp
  · simp

end AtomicCss.Toml
