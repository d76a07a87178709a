import AtomicCss.Proofs.OperatorPass

/-!
Feature queries with blanks around their operators. What the pass makes of a query depends on the
words of the query only; a second pass finds the operators of the first one between blanks, and no
others.
-/

namespace AtomicCss

namespace Variant.Supports

open Text (dense isBlank isWordChar words)

variable {depth : Nat} {previous : Option Char} {operator text : List Char}

/-- The words that the pass makes of a list of words, each read as a text of its own. -/
def spaceWords : Nat → List (List Char) → List (List Char)
  | _, [] => []
  | depth, word :: rest =>
      words (spaceOperators depth none word) ++ spaceWords (word.foldl stepDepth depth) rest

theorem spaceWords_words_word {word : List Char} (h : ∀ c ∈ word, isBlank c = false) (depth : Nat)
    (rest : List (List Char)) :
    spaceWords depth (words word ++ rest) =
      words (spaceOperators depth none word) ++ spaceWords (word.foldl stepDepth depth) rest := by
  rw [Text.words_word h]
  cases word with
  | nil =>
      rw [spaceOperators]
      rfl
  | cons c word => rfl

/-- What the pass makes of a text depends on the words of the text only. -/
theorem words_spaceOperators (depth : Nat) (text : List Char) :
    words (spaceOperators depth none text) = spaceWords depth (words text) := by
  induction text using Text.word_induction generalizing depth with
  | word word hword =>
      have hspaced := spaceWords_words_word hword depth []
      rw [List.append_nil] at hspaced
      rw [hspaced, spaceWords, List.append_nil]
  | blank word c rest hword hc ih =>
      rw [words_spaceOperators_append hc, ih, Text.words_append_cons hc,
        spaceWords_words_word hword]

section SecondPass

variable {result : List Char}

/-- In front of the first blank, the pass has changed nothing. -/
theorem Spaced.exists_of_append {lead tail : List Char} (h : Spaced depth previous text result)
    (hresult : result = lead ++ tail) (hlead : ∀ c ∈ lead, isBlank c = false) :
    ∃ after, text = lead ++ after ∧
      Spaced (lead.foldl stepDepth depth) (lead.getLast?.or previous) after tail := by
  induction h generalizing lead with
  | @nil depth previous =>
      obtain ⟨hleadNil, htailNil⟩ := List.append_eq_nil_iff.mp hresult.symm
      rw [hleadNil, htailNil]
      exact ⟨[], rfl, .nil⟩
  | @operator depth previous operator after result hoperator hjoins hafter ih =>
      cases lead with
      | nil =>
          rw [← List.nil_append tail, ← hresult]
          exact ⟨operator ++ after, rfl, .operator hoperator hjoins hafter⟩
      | cons c lead =>
          -- the first thing written is a blank
          have hc := hlead c List.mem_cons_self
          rw [List.cons_append, List.cons_append, List.cons.injEq] at hresult
          rw [← hresult.1] at hc
          cases hc
  | @char depth previous c rest result hquiet hrest ih =>
      cases lead with
      | nil =>
          rw [← List.nil_append tail, ← hresult]
          exact ⟨c :: rest, rfl, .char hquiet hrest⟩
      | cons d lead =>
          rw [List.cons_append, List.cons.injEq] at hresult
          obtain ⟨after, hafter, hspaced⟩ := ih hresult.2 fun c hc =>
            hlead c (List.mem_cons_of_mem d hc)
          rw [List.foldl_cons, getLast?_cons_or, ← hresult.1, hafter]
          exact ⟨after, rfl, hspaced⟩

theorem Spaced.head?_eq {c : Char} (h : Spaced depth (some c) text result)
    (hc : isWordChar c = true) : result.head? = text.head? := by
  cases h with
  | nil => rfl
  | operator hoperator hjoins hafter =>
      have hboundary := ((joinsConditions_iff.mp hjoins).2.1 c rfl).1
      rw [hc] at hboundary
      cases hboundary
  | char hquiet hrest => rfl

/-- No operator comes up in the result that the text did not have. -/
theorem IsQuiet.of_spaced (h : Spaced depth previous text result)
    (hquiet : IsQuiet depth previous text) : IsQuiet depth previous result := by
  intro operator hoperator tail hresult
  have hblank : ∀ c ∈ operator, isBlank c = false := fun c hc => (operator_chars hoperator hc).2.1
  obtain ⟨after, htext, hspaced⟩ := h.exists_of_append hresult hblank
  have hempty := operator_ne_nil hoperator
  rw [List.getLast?_eq_some_getLast hempty, Option.some_or] at hspaced
  have hword := (operator_chars hoperator (List.getLast_mem hempty)).1
  have hjoins := hquiet operator hoperator after htext
  rwa [joinsConditions, ← hspaced.head?_eq hword, ← joinsConditions] at hjoins

theorem isQuiet_of_head (h : ∀ c ∈ text.head?, isWordChar c = false) :
    IsQuiet depth previous text := by
  intro operator hoperator after htext
  have hempty := operator_ne_nil hoperator
  have hhead : text.head? = some (operator.head hempty) := by
    rw [htext, List.head?_append_of_ne_nil _ hempty, List.head?_eq_some_head hempty]
  have hword := (operator_chars hoperator (List.head_mem hempty)).1
  rw [h _ hhead] at hword
  cases hword

theorem spaceOperators_spaced_operator (hoperator : operator ∈ operators) (hdepth : depth = 0)
    (rest : List Char) :
    spaceOperators depth previous (' ' :: operator ++ ' ' :: rest) =
      ' ' :: ' ' :: operator ++ ' ' :: ' ' :: spaceOperators depth none rest := by
  have hjoins : joinsConditions depth none [] = true := joinsConditions_iff.mpr ⟨hdepth, by simp⟩
  have halone : spaceOperators depth none operator = ' ' :: operator ++ [' '] := by
    have hspaced := spaceOperators_operator hoperator hjoins
    rwa [List.append_nil, spaceOperators] at hspaced
  have hbehind : spaceOperators depth none (operator ++ ' ' :: rest) =
      ' ' :: operator ++ ' ' :: ' ' :: spaceOperators depth none rest := by
    rw [spaceOperators_append_blank rfl, foldl_stepDepth_operator hoperator, halone]
    simp
  have hfront := @spaceOperators_append_blank ' ' rfl depth previous [] (operator ++ ' ' :: rest)
  rw [List.nil_append, List.foldl_nil, hbehind, spaceOperators] at hfront
  exact hfront

/-- The pass goes over its own result and finds the same words: the operators stand between blanks
already. The two passes may differ in what they have seen last, as long as no word goes on there. -/
theorem Spaced.words_again (h : Spaced depth previous text result) {seen : Option Char}
    (hseen : seen = previous ∨ ∀ c ∈ text.head?, isWordChar c = false) (lead : List Char) :
    words (lead ++ spaceOperators depth seen result) = words (lead ++ result) := by
  induction h generalizing seen lead with
  | nil => rw [spaceOperators]
  | @operator depth previous operator after result hoperator hjoins hafter ih =>
      obtain ⟨hdepth, -, hbehind⟩ := joinsConditions_iff.mp hjoins
      have hlater : words (spaceOperators depth none result) = words result :=
        @ih none (.inr fun c hc => (hbehind c hc).1) []
      have hblank : isBlank ' ' = true := rfl
      rw [spaceOperators_spaced_operator hoperator hdepth]
      simp only [List.cons_append, Text.words_append_cons hblank, Text.words_cons hblank, hlater]
  | @char depth previous c rest result hquiet hrest ih =>
      have hquiet' : IsQuiet depth seen (c :: result) := by
        rcases hseen with heq | hword
        · rw [heq]
          exact hquiet.of_spaced (.char hquiet hrest)
        · exact isQuiet_of_head hword
      rw [spaceOperators_char hquiet', List.append_cons, List.append_cons lead c result]
      exact ih (.inl rfl) (lead ++ [c])

theorem words_spaceOperators_spaceOperators (query : List Char) :
    words (spaceOperators 0 none (spaceOperators 0 none query)) =
      words (spaceOperators 0 none query) :=
  (spaced_spaceOperators 0 none query).words_again (.inl rfl) []

theorem normalize_normalize (query : List Char) :
    normalize (normalize query) = normalize query := by
  have hwords : words (spaceOperators 0 none (normalize query)) =
      words (spaceOperators 0 none query) :=
    calc words (spaceOperators 0 none (normalize query))
      _ = spaceWords 0 (words (normalize query)) := words_spaceOperators 0 _
      _ = spaceWords 0 (words (spaceOperators 0 none query)) := by
        rw [normalize_eq, Text.words_join_words]
      _ = words (spaceOperators 0 none (spaceOperators 0 none query)) :=
        (words_spaceOperators 0 _).symm
      _ = words (spaceOperators 0 none query) := words_spaceOperators_spaceOperators query
  rw [normalize_eq, hwords, ← normalize_eq]

end SecondPass

/-- An operator between these texts stands as a word of its own outside parentheses, with no colon
and no dash in front of it and no dash behind it. -/
structure StandsBetween (before after : List Char) : Prop where
  outside : before.foldl stepDepth 0 = 0
  front : ∀ c ∈ before.getLast?, isWordChar c = false ∧ c ≠ ':' ∧ c ≠ '-'
  behind : ∀ c ∈ after.head?, isWordChar c = false ∧ c ≠ '-'

/-- An operator that leads a text ends before a place where no word goes on. -/
theorem exists_eq_append_of_boundary {before rest tail : List Char}
    (hoperator : operator ∈ operators) (hempty : before ≠ [])
    (hfront : ∀ c ∈ before.getLast?, isWordChar c = false)
    (h : before ++ rest = operator ++ tail) :
    ∃ middle, before = operator ++ middle ∧ tail = middle ++ rest := by
  rcases List.append_eq_append_iff.mp h with ⟨more, heq, -⟩ | hmiddle
  · have hlast : before.getLast hempty ∈ operator := by
      rw [heq]
      exact List.mem_append_left more (List.getLast_mem hempty)
    have hword := (operator_chars hoperator hlast).1
    rw [hfront _ (List.getLast?_eq_some_getLast hempty)] at hword
    cases hword
  · exact hmiddle

/-- The pass sets off an operator wherever it stands. -/
theorem Spaced.exists_eq {result before after : List Char} (h : Spaced depth previous text result)
    (htext : before ++ (operator ++ after) = text) (hoperator : operator ∈ operators)
    (hjoins : joinsConditions (before.foldl stepDepth depth) (before.getLast?.or previous) after =
      true) :
    ∃ front behind, dense front = dense before ∧ dense behind = dense after ∧
      result = front ++ ' ' :: (operator ++ ' ' :: behind) := by
  induction h generalizing before with
  | nil => simp [operator_ne_nil hoperator] at htext
  | @operator depth previous other tail result hother hotherJoins htail ih =>
      cases before with
      | nil =>
          -- only one operator can lead the text
          have hleading := leadingOperator?_eq_some_iff.mpr ⟨hoperator, htext.symm⟩
          rw [leadingOperator?_eq_some_iff.mpr ⟨hother, rfl⟩] at hleading
          cases hleading
          exact ⟨[], result, rfl, htail.dense_eq, rfl⟩
      | cons c before =>
          have hboundary : ∀ d ∈ (c :: before).getLast?, isWordChar d = false := by
            intro d hd
            apply ((joinsConditions_iff.mp hjoins).2.1 d _).1
            rw [hd, Option.some_or]
            rfl
          obtain ⟨middle, hbefore, hmiddle⟩ :=
            exists_eq_append_of_boundary hother (List.cons_ne_nil c before) hboundary htext
          rw [hbefore, List.foldl_append, foldl_stepDepth_operator hother,
            getLast?_operator_append_or hother] at hjoins
          obtain ⟨front, behind, hfront, hbehind, heq⟩ := ih hmiddle.symm hjoins
          refine ⟨' ' :: (other ++ ' ' :: front), behind, ?_, hbehind, by simp [heq]⟩
          rw [Text.dense_blank rfl, Text.dense_append, Text.dense_blank rfl, hfront, hbefore,
            Text.dense_append]
  | @char depth previous c rest result hquiet hrest ih =>
      cases before with
      | nil =>
          have hnone := hquiet operator hoperator after htext.symm
          rw [List.foldl_nil, List.getLast?_nil, Option.none_or, hnone] at hjoins
          cases hjoins
      | cons d before =>
          rw [List.cons_append, List.cons.injEq] at htext
          rw [List.foldl_cons, getLast?_cons_or, htext.1] at hjoins
          obtain ⟨front, behind, hfront, hbehind, heq⟩ := ih htext.2 hjoins
          rw [htext.1, heq]
          exact ⟨c :: front, behind, Text.dense_cons_congr hfront c, hbehind, rfl⟩

theorem exists_normalize_eq {before after : List Char} (hoperator : operator ∈ operators)
    (h : StandsBetween before after) :
    ∃ front behind, normalize (before ++ operator ++ after) = front ++ operator ++ behind ∧
      dense front = dense before ∧ dense behind = dense after ∧
      (∀ c ∈ front.getLast?, c = ' ') ∧ ∀ c ∈ behind.head?, c = ' ' := by
  have hjoins :
      joinsConditions (before.foldl stepDepth 0) (before.getLast?.or none) after = true := by
    rw [Option.or_none]
    exact joinsConditions_iff.mpr ⟨h.outside, h.front, h.behind⟩
  obtain ⟨front, behind, hfront, hbehind, heq⟩ :=
    (spaced_spaceOperators 0 none _).exists_eq rfl hoperator hjoins
  have hword : words operator = [operator] := by
    rw [Text.words_word fun c hc => (operator_chars hoperator hc).2.1]
    simp [operator_ne_nil hoperator]
  have hwords : words (spaceOperators 0 none (before ++ operator ++ after)) =
      words front ++ operator :: words behind := by
    rw [List.append_assoc, heq, Text.words_append_cons rfl, Text.words_append_cons rfl, hword]
    rfl
  refine ⟨(words front).flatMap (· ++ [' ']), (words behind).flatMap (' ' :: ·), ?_, ?_, ?_, ?_, ?_⟩
  · rw [normalize_eq, hwords, Text.join_around]
  · rw [Text.dense_flatMap_words, hfront]
    intro word
    rw [Text.dense_append]
    exact List.append_nil _
  · rw [Text.dense_flatMap_words, hbehind]
    intro word
    rfl
  · intro c hc
    exact Text.eq_of_mem_getLast?_flatMap hc
  · intro c hc
    exact Text.eq_of_mem_head?_flatMap hc

/-- Normalizing a query moves nothing but blanks. They are single and stand between other
characters, a second run finds them in place, and each operator that joins conditions has them
around it. -/
theorem normalize_sets_off_operators (query : List Char) :
    dense (normalize query) = dense query ∧
    Text.IsNeat (normalize query) ∧
    normalize (normalize query) = normalize query ∧
    ∀ before operator after, query = before ++ operator ++ after → operator ∈ operators →
      StandsBetween before after →
      ∃ front behind, normalize query = front ++ operator ++ behind ∧
        dense front = dense before ∧ dense behind = dense after ∧
        (∀ c ∈ front.getLast?, c = ' ') ∧ ∀ c ∈ behind.head?, c = ' ' := by
  refine ⟨?_, ?_, normalize_normalize query, ?_⟩
  · rw [normalize_eq, ← Text.flatten_words, Text.words_join_words, Text.flatten_words]
    exact (spaced_spaceOperators 0 none query).dense_eq
  · exact Text.isNeat_join fun word hword => Text.mem_words hword
  · intro before operator after hquery hoperator hstands
    rw [hquery]
    exact exists_normalize_eq hoperator hstands

theorem normalize_sets_off_operators_grid :
    ∃ front behind,
      normalize "(display:grid)and(gap:1px)".toList = front ++ "and".toList ++ behind ∧
        dense front = "(display:grid)".toList ∧ dense behind = "(gap:1px)".toList ∧
        (∀ c ∈ front.getLast?, c = ' ') ∧ ∀ c ∈ behind.head?, c = ' ' := by
  have hstands : StandsBetween "(display:grid)".toList "(gap:1px)".toList := by
    have hmarks : isWordChar ')' = false ∧ isWordChar '(' = false := by decide +kernel
    exact ⟨by decide, by simp [hmarks], by simp [hmarks]⟩
  obtain ⟨-, -, -, hsetOff⟩ := normalize_sets_off_operators "(display:grid)and(gap:1px)".toList
  exact hsetOff "(display:grid)".toList "and".toList "(gap:1px)".toList (by decide) (by decide)
    hstands

end Variant.Supports

end AtomicCss
