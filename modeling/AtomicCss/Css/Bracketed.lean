import AtomicCss.Text.Blank

/-!
The content of `[...]` in a class name. A class name holds no space, so `_` stands for a space and
`\_` for an underscore.
-/

namespace AtomicCss.Css

def decodeUnderscores : List Char → List Char
  | '\\' :: '_' :: rest => '_' :: decodeUnderscores rest
  | '_' :: rest => ' ' :: decodeUnderscores rest
  | c :: rest => c :: decodeUnderscores rest
  | [] => []

def decodeBracketed (content : List Char) : List Char :=
  Text.trim (decodeUnderscores content)

/-- Decoding touches nothing but blanks, underscores and backslashes. -/
theorem filter_decodeUnderscores {keeps : Char → Bool} (hbackslash : keeps '\\' = false)
    (hunderscore : keeps '_' = false) (hblank : keeps ' ' = false) (text : List Char) :
    (decodeUnderscores text).filter keeps = text.filter keeps := by
  fun_induction decodeUnderscores text with
  | case1 rest ih => simp [hbackslash, hunderscore, ih]
  | case2 rest ih => simp [hunderscore, hblank, ih]
  | case3 c rest _ _ ih => rw [List.filter_cons, List.filter_cons, ih]
  | case4 => rfl

end AtomicCss.Css
