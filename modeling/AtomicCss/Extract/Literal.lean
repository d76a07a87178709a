import AtomicCss.Css.Delimiter

/-!
String and template literals in source text. A literal that is not closed runs to the end.
-/

namespace AtomicCss.Extract

/-- The text up to the closing quote, and the text after it. Escapes are kept; a backslash at the
very end is dropped. -/
def readQuoted (quote : Char) : List Char → List Char × List Char
  | [] => ([], [])
  | '\\' :: rest =>
      match rest with
      | [] => ([], [])
      | next :: rest =>
          let later := readQuoted quote rest
          ('\\' :: next :: later.1, later.2)
  | c :: rest =>
      if c = quote then ([], rest)
      else
        let later := readQuoted quote rest
        (c :: later.1, later.2)

/-- The text up to the brace that closes a block with `depth` blocks inside it open, and the text
after that brace. Quotes have no meaning here. -/
def braceSpan : (depth : Nat) → List Char → List Char × List Char
  | _, [] => ([], [])
  | depth, c :: rest =>
      if c = '}' then
        match depth with
        | 0 => ([], rest)
        | depth + 1 =>
            let later := braceSpan depth rest
            (c :: later.1, later.2)
      else
        let later := braceSpan (if c = '{' then depth + 1 else depth) rest
        (c :: later.1, later.2)

theorem readQuoted_parts (quote : Char) (text : List Char) :
    (readQuoted quote text).1 <+: text ∧ (readQuoted quote text).2 <:+ text := by
  fun_induction readQuoted quote text with
  | case1 => exact ⟨List.prefix_rfl, List.suffix_rfl⟩
  | case2 => exact ⟨List.nil_prefix, List.nil_suffix⟩
  | case3 next rest later ih =>
      refine ⟨?_, (ih.2.trans (List.suffix_cons next rest)).trans (List.suffix_cons _ _)⟩
      exact List.cons_prefix_cons.mpr ⟨rfl, List.cons_prefix_cons.mpr ⟨rfl, ih.1⟩⟩
  | case4 rest => exact ⟨List.nil_prefix, List.suffix_cons quote rest⟩
  | case5 c rest _ _ later ih =>
      exact ⟨List.cons_prefix_cons.mpr ⟨rfl, ih.1⟩, ih.2.trans (List.suffix_cons c rest)⟩

theorem braceSpan_parts (depth : Nat) (text : List Char) :
    (braceSpan depth text).1 <+: text ∧ (braceSpan depth text).2 <:+ text := by
  induction text generalizing depth with
  | nil => exact ⟨List.prefix_rfl, List.suffix_rfl⟩
  | cons c rest ih =>
      have hlater (depth : Nat) : c :: (braceSpan depth rest).1 <+: c :: rest ∧
          (braceSpan depth rest).2 <:+ c :: rest :=
        ⟨List.cons_prefix_cons.mpr ⟨rfl, (ih depth).1⟩,
          (ih depth).2.trans (List.suffix_cons c rest)⟩
      simp only [braceSpan]
      split
      · split
        · exact ⟨List.nil_prefix, List.suffix_cons c rest⟩
        · exact hlater _
      · exact hlater _

theorem length_readQuoted_le (quote : Char) (text : List Char) :
    (readQuoted quote text).2.length ≤ text.length :=
  (readQuoted_parts quote text).2.length_le

theorem length_braceSpan_le (depth : Nat) (text : List Char) :
    (braceSpan depth text).1.length ≤ text.length ∧
      (braceSpan depth text).2.length ≤ text.length :=
  (braceSpan_parts depth text).imp List.IsPrefix.length_le List.IsSuffix.length_le

/-- Scans code, or the inside of a template literal. Gives the text up to the first end or hole of
the template, and then the literals in order. The holes of a template are code. -/
def scanLiterals (inTemplate : Bool) (text : List Char) : List Char × List (List Char) :=
  match inTemplate, text with
  | _, [] => ([], [])
  | false, c :: rest =>
      if Css.isQuote c then
        let quoted := readQuoted c rest
        ([], quoted.1 :: (scanLiterals false quoted.2).2)
      else if c = '\x60' then
        let template := scanLiterals true rest
        ([], template.1 :: template.2)
      else ([], (scanLiterals false rest).2)
  | true, '\\' :: rest =>
      match rest with
      | [] => ([], [])
      | next :: rest =>
          let later := scanLiterals true rest
          ('\\' :: next :: later.1, later.2)
  | true, '$' :: '{' :: rest =>
      let hole := braceSpan 0 rest
      let later := scanLiterals true hole.2
      ([], (scanLiterals false hole.1).2 ++ later.1 :: later.2)
  | true, c :: rest =>
      if c = '\x60' then ([], (scanLiterals false rest).2)
      else
        let later := scanLiterals true rest
        (c :: later.1, later.2)
termination_by text.length
decreasing_by
  all_goals simp only [List.length_cons]
  · have := length_readQuoted_le c rest
    omega
  · omega
  · omega
  · omega
  · have := length_braceSpan_le 0 rest
    omega
  · have := length_braceSpan_le 0 rest
    omega
  · omega
  · omega

/-- The string and template literals of source text, templates cut at their holes. -/
def literals (text : List Char) : List (List Char) :=
  (scanLiterals false text).2

end AtomicCss.Extract
