import AtomicCss.Css.Bracketed

/-!
Writing text as the content of brackets. Decoding gives the text back exactly when no blank stands
at one of its ends and no backslash in front of a space: such a pair is written like an underscore.
-/

namespace AtomicCss

namespace Text

variable {text : List Char}

theorem trim_eq_self_iff :
    trim text = text ↔
      (∀ c ∈ text.head?, isBlank c = false) ∧ ∀ c ∈ text.getLast?, isBlank c = false := by
  constructor
  · intro h
    have hstart : trimStart text = text := by
      have hinfix : trim text <:+: trimStart text := by
        rw [trim, trimEnd, ← List.reverse_infix, List.reverse_reverse]
        exact (List.dropWhile_suffix isBlank).isInfix
      refine (List.dropWhile_suffix isBlank).eq_of_length_le ?_
      exact Nat.le_trans (Nat.le_of_eq (congrArg List.length h).symm) hinfix.length_le
    refine ⟨?_, ?_⟩
    · intro c hc
      have hhead := List.head?_dropWhile_not isBlank text
      rw [show text.dropWhile isBlank = text from hstart, Option.mem_def.mp hc] at hhead
      simpa using hhead
    · intro c hc
      rw [trim, hstart] at h
      rw [← h] at hc
      exact isBlank_getLast?_trimEnd hc
  · rintro ⟨hhead, hlast⟩
    have hstart : trimStart text = text := by
      cases text with
      | nil => rfl
      | cons c rest => simp [trimStart, hhead c rfl]
    rw [trim, hstart, trimEnd_eq_self hlast]

end Text

namespace Css

def encodeChar (c : Char) : List Char :=
  if c = '_' then ['\\', '_'] else if c = ' ' then ['_'] else [c]

def encodeBracketed (text : List Char) : List Char :=
  text.flatMap encodeChar

theorem encodeBracketed_cons (c : Char) (rest : List Char) :
    encodeBracketed (c :: rest) = encodeChar c ++ encodeBracketed rest :=
  List.flatMap_cons

/-- The text in which an underscore stands for each backslash with a space behind it. -/
def joinEscapes : List Char → List Char
  | '\\' :: ' ' :: rest => '_' :: joinEscapes rest
  | c :: rest => c :: joinEscapes rest
  | [] => []

/-- Only a space is written with an underscore at its start. -/
theorem head?_encodeBracketed_ne {text : List Char} (h : text.head? ≠ some ' ') :
    (encodeBracketed text).head? ≠ some '_' := by
  cases text with
  | nil => simp [encodeBracketed]
  | cons c rest =>
      have hspace : c ≠ ' ' := by simpa using h
      rw [encodeBracketed_cons, encodeChar, if_neg hspace]
      split
      · simp
      · rename_i hunderscore
        simpa using hunderscore

theorem decodeUnderscores_backslash {text : List Char} (h : text.head? ≠ some '_') :
    decodeUnderscores ('\\' :: text) = '\\' :: decodeUnderscores text := by
  cases text with
  | nil => rfl
  | cons c rest =>
      have hc : c ≠ '_' := by simpa using h
      simp [decodeUnderscores, hc]

theorem decodeUnderscores_cons {c : Char} (hbackslash : c ≠ '\\') (hunderscore : c ≠ '_')
    (rest : List Char) : decodeUnderscores (c :: rest) = c :: decodeUnderscores rest := by
  simp [decodeUnderscores, hbackslash]

/-- A run of backslashes is read from its left end: each of them that another follows stands for
itself, so only the last can take part in an escape. -/
theorem decodeUnderscores_encodeBracketed (text : List Char) :
    decodeUnderscores (encodeBracketed text) = joinEscapes text := by
  fun_induction joinEscapes text with
  | case1 rest ih =>
      rw [encodeBracketed_cons, encodeBracketed_cons]
      exact congrArg ('_' :: ·) ih
  | case2 c rest hpair ih =>
      rw [encodeBracketed_cons, encodeChar]
      split
      · rename_i hc
        rw [hc]
        exact congrArg ('_' :: ·) ih
      · rename_i hunderscore
        split
        · rename_i hc
          rw [hc]
          exact congrArg (' ' :: ·) ih
        · by_cases hbackslash : c = '\\'
          · subst hbackslash
            have hhead : rest.head? ≠ some ' ' := by
              intro hhead
              obtain ⟨later, hlater⟩ := List.head?_eq_some_iff.mp hhead
              exact hpair later rfl hlater
            rw [List.singleton_append,
              decodeUnderscores_backslash (head?_encodeBracketed_ne hhead), ih]
          · rw [List.singleton_append, decodeUnderscores_cons hbackslash hunderscore, ih]
  | case3 => rfl

theorem length_joinEscapes_le (text : List Char) :
    (joinEscapes text).length ≤ text.length := by
  fun_induction joinEscapes text with
  | case1 rest ih =>
      simp only [List.length_cons]
      omega
  | case2 c rest _ ih =>
      simp only [List.length_cons]
      omega
  | case3 => exact Nat.le_refl _

theorem joinEscapes_eq_self_iff {text : List Char} :
    joinEscapes text = text ↔ ¬['\\', ' '] <:+: text := by
  fun_induction joinEscapes text with
  | case1 rest ih =>
      refine iff_of_false ?_ ?_
      · intro heq
        cases (List.cons.inj heq).1
      · intro hfree
        exact hfree ⟨[], rest, rfl⟩
  | case2 c rest hpair ih =>
      have hlead : ¬['\\', ' '] <+: c :: rest := by
        rintro ⟨later, hlater⟩
        obtain ⟨hc, hrest⟩ := List.cons.inj hlater
        exact hpair later hc.symm hrest.symm
      rw [List.cons.injEq, ih, List.infix_cons_iff]
      simp [hlead]
  | case3 => simp

/-- A text comes back from its written form if and only if no blank stands at one of its ends and no
backslash in front of a space. -/
theorem decodeBracketed_undoes_encoding_iff (text : List Char) :
    decodeBracketed (encodeBracketed text) = text ↔
      (∀ c ∈ text.head?, Text.isBlank c = false) ∧ (∀ c ∈ text.getLast?, Text.isBlank c = false) ∧
        ¬['\\', ' '] <:+: text := by
  rw [decodeBracketed, decodeUnderscores_encodeBracketed, ← and_assoc, ← Text.trim_eq_self_iff,
    ← joinEscapes_eq_self_iff]
  constructor
  · intro h
    -- neither step makes the text longer, so neither changes it
    have hlength := congrArg List.length h
    have hjoin : Text.trim (joinEscapes text) = joinEscapes text := by
      refine (Text.trim_infix _).eq_of_length_le ?_
      rw [hlength]
      exact length_joinEscapes_le text
    rw [hjoin] at h
    rw [h] at hjoin
    exact ⟨hjoin, h⟩
  · rintro ⟨htrim, hjoin⟩
    rw [hjoin, htrim]

end Css

end AtomicCss
