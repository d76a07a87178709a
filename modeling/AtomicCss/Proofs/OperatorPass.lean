import AtomicCss.Proofs.Words
import AtomicCss.Variant.Supports

/-!
Operators in feature queries are found by a search from match to match, and what lies between is
copied up to a cursor. A single pass over the query, which writes as it reads, finds the same words
and can be followed character by character: it goes on behind each blank as if the text began there.
-/

namespace AtomicCss

namespace Variant.Supports

open Text (dense isBlank isWordChar words)

variable {depth : Nat} {previous : Option Char} {operator text : List Char}

def joinsConditions (depth : Nat) (previous : Option Char) (rest : List Char) : Bool :=
  let next := rest.head?
  isWhole previous next && depth == 0 && previous != some ':' && previous != some '-' &&
    next != some '-'

def spaceOperators (depth : Nat) (previous : Option Char) (text : List Char) : List Char :=
  match text with
  | [] => []
  | c :: rest =>
      match _hoperator : leadingOperator? (c :: rest) with
      | some (operator, after) =>
          if joinsConditions depth previous after then
            ' ' :: operator ++ ' ' :: spaceOperators depth operator.getLast? after
          else c :: spaceOperators depth (some c) rest
      | none => c :: spaceOperators (stepDepth depth c) (some c) rest
termination_by text.length
decreasing_by
  · exact length_lt_of_leadingOperator? _hoperator
  · simp
  · simp

section Operators

theorem operator_ne_nil (h : operator ∈ operators) : operator ≠ [] := by
  revert operator
  decide

theorem operator_chars (h : operator ∈ operators) {c : Char} (hc : c ∈ operator) :
    isWordChar c = true ∧ isBlank c = false ∧ ∀ depth, stepDepth depth c = depth := by
  have htable : ∀ operator ∈ operators, operator.all (fun c =>
      c.isAlphanum && !isBlank c && c != '(' && c != ')') = true := by
    decide
  have hchar := List.all_eq_true.mp (htable operator h) c hc
  simp only [Bool.and_eq_true, Bool.not_eq_true', bne_iff_ne] at hchar
  obtain ⟨⟨⟨halphanum, hblank⟩, hopening⟩, hclosing⟩ := hchar
  refine ⟨Text.isWordChar_of_isAlphanum c halphanum, hblank, ?_⟩
  intro depth
  rw [stepDepth, if_neg hopening, if_neg hclosing]

theorem foldl_stepDepth_operator (h : operator ∈ operators) (depth : Nat) :
    operator.foldl stepDepth depth = depth := by
  have hfold (part : List Char) (hpart : ∀ c ∈ part, c ∈ operator) :
      part.foldl stepDepth depth = depth := by
    induction part with
    | nil => rfl
    | cons c part ih =>
        obtain ⟨hc, hpart⟩ := List.forall_mem_cons.mp hpart
        rw [List.foldl_cons, (operator_chars h hc).2.2, ih hpart]
  exact hfold operator fun _ hc => hc

theorem leadingOperator?_eq_some_iff {rest : List Char} :
    leadingOperator? text = some (operator, rest) ↔
      operator ∈ operators ∧ text = operator ++ rest := by
  constructor
  · exact of_leadingOperator?_eq_some
  · intro h
    obtain ⟨hoperator, htext⟩ := h
    cases hleading : leadingOperator? text with
    | none =>
        have hmissed := List.findSome?_eq_none_iff.mp hleading operator hoperator
        simp [htext] at hmissed
    | some found =>
        -- the operators differ in their first letters, so only one of them can lead the text
        have hheads : ∀ operator ∈ operators, ∀ other ∈ operators,
            operator.head? = other.head? → operator = other := by
          decide
        obtain ⟨hother, htext'⟩ := of_leadingOperator?_eq_some hleading
        have heq : found.1 = operator := by
          apply hheads _ hother _ hoperator
          rw [← List.head?_append_of_ne_nil _ (operator_ne_nil hother), ← htext', htext,
            List.head?_append_of_ne_nil _ (operator_ne_nil hoperator)]
        rw [htext, heq, List.append_cancel_left_eq] at htext'
        rw [htext', ← heq]

theorem joinsConditions_iff {rest : List Char} :
    joinsConditions depth previous rest = true ↔
      depth = 0 ∧ (∀ c ∈ previous, isWordChar c = false ∧ c ≠ ':' ∧ c ≠ '-') ∧
        ∀ c ∈ rest.head?, isWordChar c = false ∧ c ≠ '-' := by
  cases previous <;> cases rest <;> grind [joinsConditions, isWhole]

theorem joinsConditions_append {c : Char} (hc : isBlank c = true) (after rest : List Char) :
    joinsConditions depth previous (after ++ c :: rest) = joinsConditions depth previous after := by
  cases after with
  | nil =>
      rw [Bool.eq_iff_iff, joinsConditions_iff, joinsConditions_iff]
      simp [Text.isWordChar_of_isBlank hc, show c ≠ '-' from Text.ne_of_isBlank hc rfl]
  | cons d after => rfl

theorem joinsConditions_blank {c : Char} (hc : isBlank c = true) (rest : List Char) :
    joinsConditions depth (some c) rest = joinsConditions depth none rest := by
  have hmarks : c ≠ ':' ∧ c ≠ '-' := ⟨Text.ne_of_isBlank hc rfl, Text.ne_of_isBlank hc rfl⟩
  rw [Bool.eq_iff_iff, joinsConditions_iff, joinsConditions_iff]
  simp [Text.isWordChar_of_isBlank hc, hmarks]

end Operators

/-- No operator that joins conditions stands at the start of the text. -/
def IsQuiet (depth : Nat) (previous : Option Char) (text : List Char) : Prop :=
  ∀ operator ∈ operators, ∀ after, text = operator ++ after →
    joinsConditions depth previous after = false

theorem spaceOperators_operator {after : List Char} (hoperator : operator ∈ operators)
    (hjoins : joinsConditions depth previous after = true) :
    spaceOperators depth previous (operator ++ after) =
      ' ' :: operator ++ ' ' :: spaceOperators depth operator.getLast? after := by
  have hleading : leadingOperator? (operator ++ after) = some (operator, after) :=
    leadingOperator?_eq_some_iff.mpr ⟨hoperator, rfl⟩
  obtain ⟨c, rest, htext⟩ := List.exists_cons_of_ne_nil
    (List.append_ne_nil_of_left_ne_nil (operator_ne_nil hoperator) after)
  rw [htext] at hleading ⊢
  rw [spaceOperators]
  split
  · rename_i found rest' hfound
    rw [hleading] at hfound
    cases hfound
    rw [if_pos hjoins]
  · rename_i hfound
    rw [hleading] at hfound
    cases hfound

theorem spaceOperators_char {c : Char} {rest : List Char}
    (hquiet : IsQuiet depth previous (c :: rest)) :
    spaceOperators depth previous (c :: rest) =
      c :: spaceOperators (stepDepth depth c) (some c) rest := by
  rw [spaceOperators]
  split
  · rename_i found after hfound
    obtain ⟨hoperator, htext⟩ := leadingOperator?_eq_some_iff.mp hfound
    have hc : c ∈ found := by
      have hhead := congrArg List.head? htext
      rw [List.head?_append_of_ne_nil _ (operator_ne_nil hoperator)] at hhead
      exact List.mem_of_head? hhead.symm
    have hjoins : ¬joinsConditions depth previous after = true := by
      simp [hquiet found hoperator after htext]
    rw [if_neg hjoins, (operator_chars hoperator hc).2.2]
  · rfl

/-- The pass over a text: each operator that joins conditions is set off by blanks, and every other
character is kept. -/
inductive Spaced : Nat → Option Char → List Char → List Char → Prop
  | nil {depth : Nat} {previous : Option Char} : Spaced depth previous [] []
  | operator {depth : Nat} {previous : Option Char} {operator after result : List Char}
      (hoperator : operator ∈ operators) (hjoins : joinsConditions depth previous after = true)
      (hafter : Spaced depth operator.getLast? after result) :
      Spaced depth previous (operator ++ after) (' ' :: operator ++ ' ' :: result)
  | char {depth : Nat} {previous : Option Char} {c : Char} {rest result : List Char}
      (hquiet : IsQuiet depth previous (c :: rest))
      (hrest : Spaced (stepDepth depth c) (some c) rest result) :
      Spaced depth previous (c :: rest) (c :: result)

theorem spaced_spaceOperators (depth : Nat) (previous : Option Char) (text : List Char) :
    Spaced depth previous text (spaceOperators depth previous text) := by
  induction hlength : text.length using Nat.strongRecOn generalizing depth previous text with
  | ind length ih =>
      cases text with
      | nil =>
          rw [spaceOperators]
          exact .nil
      | cons c rest =>
          by_cases hquiet : IsQuiet depth previous (c :: rest)
          · rw [spaceOperators_char hquiet]
            apply Spaced.char hquiet
            apply ih rest.length _ _ _ _ rfl
            rw [← hlength]
            exact Nat.lt_succ_self _
          · simp only [IsQuiet, not_forall, Bool.not_eq_false] at hquiet
            obtain ⟨operator, hoperator, after, htext, hjoins⟩ := hquiet
            rw [htext] at hlength ⊢
            rw [spaceOperators_operator hoperator hjoins]
            apply Spaced.operator hoperator hjoins
            apply ih after.length _ _ _ _ rfl
            have hpositive := List.length_pos_iff.mpr (operator_ne_nil hoperator)
            rw [← hlength, List.length_append]
            omega

theorem Spaced.eq {result : List Char} (h : Spaced depth previous text result) :
    spaceOperators depth previous text = result := by
  induction h with
  | nil => rw [spaceOperators]
  | operator hoperator hjoins hafter ih => rw [spaceOperators_operator hoperator hjoins, ih]
  | char hquiet hrest ih => rw [spaceOperators_char hquiet, ih]

theorem Spaced.dense_eq {result : List Char} (h : Spaced depth previous text result) :
    dense result = dense text := by
  induction h with
  | nil => rfl
  | @operator _ _ operator after result hoperator hjoins hafter ih =>
      rw [List.cons_append, Text.dense_blank rfl, Text.dense_append, Text.dense_blank rfl, ih,
        Text.dense_append]
  | @char _ _ c rest result hquiet hrest ih => exact Text.dense_cons_congr ih c

section Barriers

variable {c : Char}

theorem stepDepth_blank (hc : isBlank c = true) (depth : Nat) : stepDepth depth c = depth := by
  rw [stepDepth, if_neg (Text.ne_of_isBlank hc rfl), if_neg (Text.ne_of_isBlank hc rfl)]

theorem isQuiet_nil : IsQuiet depth previous [] := by
  intro operator hoperator after htext
  exact (operator_ne_nil hoperator (List.append_eq_nil_iff.mp htext.symm).1).elim

theorem IsQuiet.append (h : IsQuiet depth previous text) (hc : isBlank c = true)
    (rest : List Char) : IsQuiet depth previous (text ++ c :: rest) := by
  intro operator hoperator after htext
  rcases List.append_eq_append_iff.mp htext with ⟨tail, heq, htail⟩ | ⟨tail, heq, hafter⟩
  · -- The operator goes on behind the text, where the blank is.
    cases tail with
    | nil =>
        rw [List.append_nil] at heq
        have hquiet := h operator hoperator [] (by simp [heq])
        rwa [← joinsConditions_append hc [] rest, List.nil_append, htail] at hquiet
    | cons d tail =>
        have hd : d ∈ operator := by simp [heq]
        rw [List.cons_append, List.cons.injEq] at htail
        rw [htail.1, (operator_chars hoperator hd).2.1] at hc
        cases hc
  · rw [hafter, joinsConditions_append hc]
    exact h operator hoperator tail heq

theorem Spaced.after_blank {result : List Char} (hc : isBlank c = true)
    (h : Spaced depth (some c) text result) : Spaced depth none text result := by
  cases h with
  | nil => exact .nil
  | operator hoperator hjoins hafter =>
      exact .operator hoperator (by rwa [← joinsConditions_blank hc]) hafter
  | char hquiet hrest =>
      refine .char ?_ hrest
      intro operator hoperator after htext
      rw [← joinsConditions_blank hc]
      exact hquiet operator hoperator after htext

theorem spaceOperators_after_blank (hc : isBlank c = true) (depth : Nat) (text : List Char) :
    spaceOperators depth (some c) text = spaceOperators depth none text :=
  ((spaced_spaceOperators depth (some c) text).after_blank hc).eq.symm

/-- A blank is a barrier: the pass goes on behind it as if the text began there. -/
theorem Spaced.append {result : List Char} (h : Spaced depth previous text result)
    (hc : isBlank c = true) (rest : List Char) :
    spaceOperators depth previous (text ++ c :: rest) =
      result ++ c :: spaceOperators (text.foldl stepDepth depth) none rest := by
  induction h with
  | @nil depth previous =>
      have hquiet : IsQuiet depth previous (c :: rest) := isQuiet_nil.append hc rest
      rw [List.nil_append, spaceOperators_char hquiet, stepDepth_blank hc,
        spaceOperators_after_blank hc]
      rfl
  | operator hoperator hjoins hafter ih =>
      rw [List.append_assoc,
        spaceOperators_operator hoperator (by rwa [joinsConditions_append hc]), ih,
        List.foldl_append, foldl_stepDepth_operator hoperator]
      simp
  | char hquiet hrest ih =>
      have hquiet' := hquiet.append hc rest
      rw [List.cons_append] at hquiet'
      rw [List.cons_append, spaceOperators_char hquiet', ih]
      rfl

theorem spaceOperators_append_blank (hc : isBlank c = true) (depth : Nat)
    (previous : Option Char) (text rest : List Char) :
    spaceOperators depth previous (text ++ c :: rest) =
      spaceOperators depth previous text ++
        c :: spaceOperators (text.foldl stepDepth depth) none rest :=
  (spaced_spaceOperators depth previous text).append hc rest

theorem words_spaceOperators_append (hc : isBlank c = true) (depth : Nat)
    (text rest : List Char) :
    words (spaceOperators depth none (text ++ c :: rest)) =
      words (spaceOperators depth none text) ++
        words (spaceOperators (text.foldl stepDepth depth) none rest) := by
  rw [spaceOperators_append_blank hc, Text.words_append_cons hc]

end Barriers

/-- What a pass has seen last after a text. -/
theorem getLast?_cons_or (c : Char) (text : List Char) (previous : Option Char) :
    (c :: text).getLast?.or previous = text.getLast?.or (some c) := by
  rw [List.getLast?_cons]
  cases text.getLast? <;> rfl

theorem getLast?_operator_append_or (hoperator : operator ∈ operators) (text : List Char)
    (previous : Option Char) :
    (operator ++ text).getLast?.or previous = text.getLast?.or operator.getLast? := by
  rw [List.getLast?_append, Option.or_assoc,
    List.getLast?_eq_some_getLast (operator_ne_nil hoperator), Option.some_or]

/-! The search from match to match. -/

section Matches

theorem isQuiet_of_leadingOperator?_eq_none (h : leadingOperator? text = none) :
    IsQuiet depth previous text := by
  intro operator hoperator after htext
  rw [leadingOperator?_eq_some_iff.mpr ⟨hoperator, htext⟩] at h
  cases h

theorem isQuiet_of_leadingOperator? {after : List Char}
    (h : leadingOperator? text = some (operator, after))
    (hjoins : joinsConditions depth previous after = false) : IsQuiet depth previous text := by
  intro other hother rest htext
  rw [leadingOperator?_eq_some_iff.mpr ⟨hother, htext⟩] at h
  cases h
  exact hjoins

theorem isQuiet_of_isWordChar {c : Char} (hc : isWordChar c = true) :
    IsQuiet depth (some c) text := by
  intro operator _ after _
  simp [joinsConditions, isWhole, hc]

/-- Behind a character of a word, the rest of the word is copied. -/
theorem spaceOperators_word {c : Char} {word rest : List Char} (hc : isWordChar c = true)
    (hword : ∀ d ∈ word, isWordChar d = true ∧ ∀ depth, stepDepth depth d = depth) :
    spaceOperators depth (some c) (word ++ rest) =
      word ++ spaceOperators depth (word.getLast?.or (some c)) rest := by
  induction word generalizing c with
  | nil => rfl
  | cons d word ih =>
      obtain ⟨hd, hword⟩ := List.forall_mem_cons.mp hword
      rw [List.cons_append, spaceOperators_char (isQuiet_of_isWordChar hc), hd.2, ih hd.1 hword,
        getLast?_cons_or]
      rfl

theorem spaceOperators_quiet_operator {after : List Char} (hoperator : operator ∈ operators)
    (hquiet : IsQuiet depth previous (operator ++ after)) :
    spaceOperators depth previous (operator ++ after) =
      operator ++ spaceOperators depth operator.getLast? after := by
  obtain ⟨c, word, rfl⟩ := List.exists_cons_of_ne_nil (operator_ne_nil hoperator)
  obtain ⟨hword, -, hdepth⟩ := operator_chars hoperator List.mem_cons_self
  have hrest : ∀ d ∈ word, isWordChar d = true ∧ ∀ depth, stepDepth depth d = depth := by
    intro d hd
    obtain ⟨hd, -, hstep⟩ := operator_chars hoperator (List.mem_cons_of_mem c hd)
    exact ⟨hd, hstep⟩
  rw [List.cons_append] at hquiet ⊢
  rw [spaceOperators_char hquiet, hdepth, spaceOperators_word hword hrest,
    ← getLast?_cons_or c word none, Option.or_none]
  rfl

theorem spaceOperators_blanks {blanks : List Char} (h : ∀ c ∈ blanks, isBlank c = true)
    (depth : Nat) (previous : Option Char) (rest : List Char) :
    spaceOperators depth previous (blanks ++ rest) =
      blanks ++ spaceOperators depth (blanks.getLast?.or previous) rest := by
  induction blanks generalizing previous with
  | nil => rfl
  | cons c blanks ih =>
      obtain ⟨hc, hblanks⟩ := List.forall_mem_cons.mp h
      have hquiet : IsQuiet depth previous (c :: (blanks ++ rest)) :=
        isQuiet_nil.append hc (blanks ++ rest)
      rw [List.cons_append, spaceOperators_char hquiet, stepDepth_blank hc, ih hblanks,
        getLast?_cons_or]
      rfl

theorem foldl_stepDepth_blanks {blanks : List Char} (h : ∀ c ∈ blanks, isBlank c = true)
    (depth : Nat) : blanks.foldl stepDepth depth = depth := by
  induction blanks with
  | nil => rfl
  | cons c blanks ih =>
      obtain ⟨hc, hblanks⟩ := List.forall_mem_cons.mp h
      rw [List.foldl_cons, stepDepth_blank hc, ih hblanks]

/-- What a search has passed once it has found an operator: the operator and the blanks behind
it. -/
def passedBy (before operator after : List Char) : List Char :=
  before ++ operator ++ after.takeWhile isBlank

section Found

variable {before after : List Char} (hoperator : operator ∈ operators)

include hoperator

theorem spaceOperators_behind_operator :
    spaceOperators (before.foldl stepDepth 0) operator.getLast? after =
      after.takeWhile isBlank ++
        spaceOperators ((passedBy before operator after).foldl stepDepth 0)
          (passedBy before operator after).getLast? (after.dropWhile isBlank) := by
  have hblanks : ∀ c ∈ after.takeWhile isBlank, isBlank c = true :=
    fun c hc => List.mem_takeWhile_imp hc
  have hlast : (passedBy before operator after).getLast? =
      (after.takeWhile isBlank).getLast?.or operator.getLast? := by
    rw [passedBy, List.getLast?_append,
      List.getLast?_append_of_ne_nil _ (operator_ne_nil hoperator)]
  have hdepth : (passedBy before operator after).foldl stepDepth 0 = before.foldl stepDepth 0 := by
    rw [passedBy, List.foldl_append, List.foldl_append, foldl_stepDepth_operator hoperator,
      foldl_stepDepth_blanks hblanks]
  rw [hlast, hdepth, ← spaceOperators_blanks hblanks, List.takeWhile_append_dropWhile]

theorem words_spaceOperators_joining
    (hjoins : joinsConditions (before.foldl stepDepth 0) before.getLast? after = true)
    (front : List Char) :
    words (front ++ spaceOperators (before.foldl stepDepth 0) before.getLast? (operator ++ after)) =
      words front ++ words operator ++
        words (spaceOperators ((passedBy before operator after).foldl stepDepth 0)
          (passedBy before operator after).getLast? (after.dropWhile isBlank)) := by
  have hblank : isBlank ' ' = true := rfl
  rw [spaceOperators_operator hoperator hjoins, spaceOperators_behind_operator hoperator,
    List.cons_append, Text.words_append_cons hblank, Text.words_append_cons hblank,
    Text.words_blanks_append fun c hc => List.mem_takeWhile_imp hc, List.append_assoc]

theorem drop_append_spaceOperators_skipped {cursor : Nat} (hcursor : cursor ≤ before.length)
    (hjoins : joinsConditions (before.foldl stepDepth 0) before.getLast? after = false) :
    before.drop cursor ++
        spaceOperators (before.foldl stepDepth 0) before.getLast? (operator ++ after) =
      (passedBy before operator after).drop cursor ++
        spaceOperators ((passedBy before operator after).foldl stepDepth 0)
          (passedBy before operator after).getLast? (after.dropWhile isBlank) := by
  have hleading : leadingOperator? (operator ++ after) = some (operator, after) :=
    leadingOperator?_eq_some_iff.mpr ⟨hoperator, rfl⟩
  have hdrop : (passedBy before operator after).drop cursor =
      before.drop cursor ++ (operator ++ after.takeWhile isBlank) := by
    rw [passedBy, List.append_assoc, List.drop_append_of_le_length hcursor]
  rw [spaceOperators_quiet_operator hoperator (isQuiet_of_leadingOperator? hleading hjoins),
    spaceOperators_behind_operator hoperator, hdrop, List.append_assoc, List.append_assoc]

end Found

theorem drop_append_spaceOperators_char {before rest : List Char} {c : Char} {cursor : Nat}
    (hcursor : cursor ≤ before.length)
    (hquiet : IsQuiet (before.foldl stepDepth 0) before.getLast? (c :: rest)) :
    before.drop cursor ++ spaceOperators (before.foldl stepDepth 0) before.getLast? (c :: rest) =
      (before ++ [c]).drop cursor ++
        spaceOperators ((before ++ [c]).foldl stepDepth 0) (before ++ [c]).getLast? rest := by
  rw [spaceOperators_char hquiet, List.drop_append_of_le_length hcursor, List.append_assoc,
    List.foldl_append, List.getLast?_concat]
  rfl

theorem joins_eq_joinsConditions {found : Match}
    (hwhole : isWhole found.before.getLast? found.after.head? = true) :
    found.joins =
      joinsConditions (found.before.foldl stepDepth 0) found.before.getLast? found.after := by
  simp only [joinsConditions, Match.joins, hwhole, Bool.true_and, Bool.and_assoc]

/-- In front of a match, only blanks are left out. -/
theorem words_take_start {query before text out : List Char} (hquery : query = before ++ text)
    {cursor stop : Nat} (hcursor : cursor ≤ stop) (hstop : stop ≤ before.length) :
    words (out ++ (query.take (stop + (Text.trimEnd (before.drop stop)).length)).drop cursor) =
      words (out ++ before.drop cursor) := by
  obtain ⟨blanks, hblanks, htrim⟩ := Text.exists_trimEnd_append (before.drop stop)
  have hbefore : before = before.take stop ++ Text.trimEnd (before.drop stop) ++ blanks := by
    rw [List.append_assoc, htrim, List.take_append_drop]
  generalize htrimmed : Text.trimEnd (before.drop stop) = trimmed at hbefore ⊢
  generalize hfront : before.take stop = front at hbefore
  have hlength : front.length = stop := by rw [← hfront, List.length_take_of_le hstop]
  have htake : query.take (stop + trimmed.length) = front ++ trimmed := by
    rw [hquery, hbefore, List.append_assoc, ← hlength, ← List.length_append, List.take_left]
  have hdrop : (front ++ trimmed ++ blanks).drop cursor =
      (front ++ trimmed).drop cursor ++ blanks :=
    List.drop_append_of_le_length (by rw [List.length_append]; omega)
  rw [htake, hbefore, hdrop, ← List.append_assoc, Text.words_append_blanks hblanks]

/-- The search and the pass write the same words, wherever the search stands: behind `before`, with
what lies between its cursor and this place still to be copied. -/
theorem words_finish (query : List Char) {before text : List Char} (hquery : query = before ++ text)
    {stop cursor : Nat} (hcursor : cursor ≤ stop) (hstop : stop ≤ before.length)
    (out : List Char) :
    words (((matchesFrom stop before text).foldl (Rewriting.step query) ⟨out, cursor⟩).finish
        query) =
      words (out ++ before.drop cursor ++
        spaceOperators (before.foldl stepDepth 0) before.getLast? text) := by
  fun_induction matchesFrom stop before text generalizing out cursor with
  | case1 stop before =>
      rw [hquery, List.foldl_nil, Rewriting.finish, spaceOperators, List.append_nil,
        List.append_nil]
  | case2 stop before c rest operator after hleading hwhole passed ih =>
      obtain ⟨hoperator, htext⟩ := leadingOperator?_eq_some_iff.mp hleading
      have hpassed : query = passed ++ after.dropWhile isBlank := by
        rw [hquery, htext, List.append_assoc, List.append_assoc,
          List.takeWhile_append_dropWhile]
      rw [htext, List.foldl_cons, Rewriting.step, joins_eq_joinsConditions hwhole]
      split
      · rename_i hjoins
        have hblank : isBlank ' ' = true := rfl
        rw [ih hpassed (Nat.le_refl _) (Nat.le_refl _), List.drop_length, List.append_nil,
          words_spaceOperators_joining hoperator hjoins, List.append_assoc, List.singleton_append,
          Text.words_append_cons hblank, Text.words_append_cons hblank,
          words_take_start hquery hcursor hstop]
        rfl
      · rename_i hjoins
        rw [Bool.not_eq_true] at hjoins
        have hlength : before.length ≤ passed.length := by simp [passed]
        rw [ih hpassed (hcursor.trans (hstop.trans hlength)) (Nat.le_refl _), List.append_assoc,
          List.append_assoc,
          drop_append_spaceOperators_skipped hoperator (hcursor.trans hstop) hjoins]
        rfl
  | case3 stop before c rest operator after hleading hwhole ih =>
      have hquiet : IsQuiet (before.foldl stepDepth 0) before.getLast? (c :: rest) := by
        apply isQuiet_of_leadingOperator? hleading
        simp [joinsConditions, hwhole]
      rw [ih (by rw [hquery]; simp) hcursor (by simp; omega), List.append_assoc, List.append_assoc,
        drop_append_spaceOperators_char (hcursor.trans hstop) hquiet]
  | case4 stop before c rest hleading ih =>
      have hquiet : IsQuiet (before.foldl stepDepth 0) before.getLast? (c :: rest) :=
        isQuiet_of_leadingOperator?_eq_none hleading
      rw [ih (by rw [hquery]; simp) hcursor (by simp; omega), List.append_assoc, List.append_assoc,
        drop_append_spaceOperators_char (hcursor.trans hstop) hquiet]

theorem words_setOffOperators (query : List Char) :
    words (setOffOperators query) = words (spaceOperators 0 none query) :=
  words_finish query (List.nil_append query).symm (Nat.le_refl 0) (Nat.zero_le _) []

theorem normalize_eq (query : List Char) :
    normalize query = Text.join [' '] (words (spaceOperators 0 none query)) := by
  rw [normalize, words_setOffOperators]

end Matches

end Variant.Supports

end AtomicCss
