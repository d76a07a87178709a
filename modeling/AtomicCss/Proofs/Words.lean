import AtomicCss.Proofs.SelectorLists
import AtomicCss.Text.Word

/-!
Texts as words between blanks. The words hold all that is no blank, and joined by single blanks they
make a neat text.
-/

namespace AtomicCss

namespace Text

/-- A text is a word, or a word, a blank and a text. -/
@[elab_as_elim]
theorem word_induction {motive : List Char → Prop}
    (word : ∀ word, (∀ c ∈ word, isBlank c = false) → motive word)
    (blank : ∀ word c rest, (∀ c ∈ word, isBlank c = false) → isBlank c = true → motive rest →
      motive (word ++ c :: rest)) (text : List Char) : motive text := by
  induction hlength : text.length using Nat.strongRecOn generalizing text with
  | ind length ih =>
      cases hrest : text.dropWhile fun c => !isBlank c with
      | nil =>
          apply word
          intro c hc
          have hall := List.dropWhile_eq_nil_iff.mp hrest c hc
          simpa using hall
      | cons c rest =>
          have htext := List.takeWhile_append_dropWhile (p := fun c => !isBlank c) (l := text)
          rw [hrest] at htext
          rw [← htext]
          apply blank
          · intro d hd
            simpa using List.mem_takeWhile_imp hd
          · have hc := List.head?_dropWhile_not (fun c => !isBlank c) text
            rw [hrest] at hc
            simpa using hc
          · apply ih rest.length _ rest rfl
            rw [← hlength, ← htext, List.length_append, List.length_cons]
            omega

theorem ne_of_isBlank {c mark : Char} (hc : isBlank c = true) (hmark : isBlank mark = false) :
    c ≠ mark := by
  intro heq
  rw [heq, hmark] at hc
  cases hc

theorem dense_blank {c : Char} (hc : isBlank c = true) (text : List Char) :
    dense (c :: text) = dense text := by
  simp [dense, hc]

theorem dense_cons_congr {first second : List Char} (h : dense first = dense second) (c : Char) :
    dense (c :: first) = dense (c :: second) := by
  rw [← List.singleton_append, dense_append, h, ← dense_append, List.singleton_append]

section Words

variable {word : List Char}

theorem words_word (h : ∀ c ∈ word, isBlank c = false) :
    words word = [word].filter (!·.isEmpty) := by
  rw [words, splitWhere_eq_singleton h]

theorem dense_word (h : ∀ c ∈ word, isBlank c = false) : dense word = word := by
  apply List.filter_eq_self.mpr
  intro c hc
  simp [h c hc]

theorem mem_words_word {part : List Char} (h : ∀ c ∈ word, isBlank c = false)
    (hpart : part ∈ words word) : part ≠ [] ∧ ∀ c ∈ part, isBlank c = false := by
  rw [words_word h, List.mem_filter, List.mem_singleton] at hpart
  obtain ⟨heq, hempty⟩ := hpart
  exact ⟨by simpa using hempty, heq ▸ h⟩

end Words

theorem mem_words {text word : List Char} (h : word ∈ words text) :
    word ≠ [] ∧ ∀ c ∈ word, isBlank c = false := by
  induction text using word_induction with
  | word first hfirst => exact mem_words_word hfirst h
  | blank first c rest hfirst hc ih =>
      rw [words_append_cons hc, List.mem_append] at h
      rcases h with h | h
      · exact mem_words_word hfirst h
      · exact ih h

theorem words_join_words (text : List Char) : words (join [' '] (words text)) = words text := by
  apply words_join
  intro word hword
  obtain ⟨hempty, hblank⟩ := mem_words hword
  refine ⟨hempty, List.any_eq_false.mpr ?_⟩
  intro c hc
  simp [hblank c hc]

theorem words_blanks_append {blanks : List Char} (h : ∀ c ∈ blanks, isBlank c = true)
    (text : List Char) : words (blanks ++ text) = words text := by
  induction blanks with
  | nil => rfl
  | cons c blanks ih =>
      obtain ⟨hc, hblanks⟩ := List.forall_mem_cons.mp h
      rw [List.cons_append, words_cons hc, ih hblanks]

theorem words_append_blanks {blanks : List Char} (h : ∀ c ∈ blanks, isBlank c = true)
    (text : List Char) : words (text ++ blanks) = words text := by
  cases blanks with
  | nil => rw [List.append_nil]
  | cons c blanks =>
      obtain ⟨hc, hblanks⟩ := List.forall_mem_cons.mp h
      have hnone := words_blanks_append hblanks []
      rw [List.append_nil] at hnone
      rw [words_append_cons hc, hnone]
      exact List.append_nil _

theorem exists_trimEnd_append (text : List Char) :
    ∃ blanks, (∀ c ∈ blanks, isBlank c = true) ∧ trimEnd text ++ blanks = text := by
  refine ⟨(text.reverse.takeWhile isBlank).reverse, ?_, ?_⟩
  · intro c hc
    exact List.mem_takeWhile_imp (List.mem_reverse.mp hc)
  · rw [trimEnd, ← List.reverse_append, List.takeWhile_append_dropWhile, List.reverse_reverse]

theorem flatten_words (text : List Char) : (words text).flatten = dense text := by
  induction text using word_induction with
  | word word hword =>
      rw [words_word hword, dense_word hword]
      cases word <;> simp
  | blank word c rest hword hc ih =>
      rw [words_append_cons hc, List.flatten_append, ih, dense_append, dense_blank hc,
        dense_word hword, words_word hword]
      cases word <;> simp

/-- No blanks at the ends, and never two in a row. -/
structure IsNeat (text : List Char) : Prop where
  head : ∀ c ∈ text.head?, isBlank c = false
  last : ∀ c ∈ text.getLast?, isBlank c = false
  single : text.IsChain fun c next => isBlank c = true → isBlank next = false

theorem isNeat_word {word : List Char} (h : ∀ c ∈ word, isBlank c = false) : IsNeat word where
  head c hc := h c (List.mem_of_head? hc)
  last c hc := h c (List.mem_of_getLast? hc)
  single := by
    induction word with
    | nil => exact .nil
    | cons c rest ih =>
        obtain ⟨hc, hrest⟩ := List.forall_mem_cons.mp h
        refine List.isChain_cons.mpr ⟨?_, ih hrest⟩
        intro next _ hblank
        simp [hc] at hblank

theorem IsNeat.append {word rest : List Char} (hempty : word ≠ [])
    (hword : ∀ c ∈ word, isBlank c = false) (hrestEmpty : rest ≠ []) (hrest : IsNeat rest) :
    IsNeat (word ++ ' ' :: rest) where
  head := by
    intro c hc
    apply hword
    rw [List.head?_append_of_ne_nil _ hempty] at hc
    exact List.mem_of_head? hc
  last := by
    intro c hc
    apply hrest.last
    rw [List.getLast?_append_of_ne_nil _ (List.cons_ne_nil _ _)] at hc
    rwa [← List.getLast?_cons_of_ne_nil hrestEmpty]
  single := by
    refine List.isChain_append.mpr ⟨(isNeat_word hword).single, ?_, ?_⟩
    · exact List.isChain_cons.mpr ⟨fun next hnext _ => hrest.head next hnext, hrest.single⟩
    · intro c hc next _ hblank
      rw [hword c (List.mem_of_getLast? hc)] at hblank
      cases hblank

theorem isNeat_join {parts : List (List Char)}
    (h : ∀ part ∈ parts, part ≠ [] ∧ ∀ c ∈ part, isBlank c = false) :
    IsNeat (join [' '] parts) := by
  induction parts with
  | nil => exact isNeat_word (by simp [join])
  | cons part rest ih =>
      obtain ⟨hpart, hrest⟩ := List.forall_mem_cons.mp h
      cases rest with
      | nil => exact isNeat_word hpart.2
      | cons next rest =>
          have hnext : join [' '] (next :: rest) ≠ [] := by
            have hempty := (hrest next List.mem_cons_self).1
            cases rest <;> simp [join, hempty]
          rw [join_cons_of_ne_nil _ _ (List.cons_ne_nil _ _), List.append_assoc,
            List.singleton_append]
          exact IsNeat.append hpart.1 hpart.2 hnext (ih hrest)

theorem join_around (separator : Char) (first : List (List Char)) (part : List Char)
    (second : List (List Char)) :
    join [separator] (first ++ part :: second) =
      first.flatMap (· ++ [separator]) ++ part ++ second.flatMap (separator :: ·) := by
  induction first with
  | nil =>
      induction second generalizing part with
      | nil => simp [join]
      | cons next second ih =>
          rw [List.nil_append, join_cons_of_ne_nil _ _ (List.cons_ne_nil _ _),
            ← List.nil_append (next :: second), ih]
          simp
  | cons next first ih =>
      rw [List.cons_append, join_cons_of_ne_nil _ _ (by simp), ih]
      simp

theorem eq_of_mem_getLast?_flatMap {separator c : Char} {parts : List (List Char)}
    (h : c ∈ (parts.flatMap (· ++ [separator])).getLast?) : c = separator := by
  rcases List.eq_nil_or_concat parts with hnil | ⟨first, last, hlast⟩
  · rw [hnil] at h
    cases h
  · rw [hlast, List.concat_eq_append, List.flatMap_append, List.flatMap_singleton,
      ← List.append_assoc, List.getLast?_concat] at h
    exact (Option.some.inj h).symm

theorem eq_of_mem_head?_flatMap {separator c : Char} {parts : List (List Char)}
    (h : c ∈ (parts.flatMap (separator :: ·)).head?) : c = separator := by
  cases parts with
  | nil => cases h
  | cons first rest => exact (Option.some.inj h).symm

theorem dense_flatMap_words (change : List Char → List Char)
    (hchange : ∀ word, dense (change word) = dense word) (text : List Char) :
    dense ((words text).flatMap change) = dense text := by
  rw [dense, List.filter_flatMap, ← flatten_words, List.flatMap_def]
  congr 1
  calc (words text).map (fun word => (change word).filter fun c => !isBlank c)
    _ = (words text).map id := by
      apply List.map_congr_left
      intro word hword
      exact (hchange word).trans (dense_word (mem_words hword).2)
    _ = words text := List.map_id _

def blankRanges : List (Nat × Nat) :=
  [(0x09, 0x0D), (0x20, 0x20), (0x85, 0x85), (0xA0, 0xA0), (0x1680, 0x1680), (0x2000, 0x200A),
    (0x2028, 0x2029), (0x202F, 0x202F), (0x205F, 0x205F), (0x3000, 0x3000)]

theorem exists_blankRange {c : Char} (h : isBlank c = true) :
    ∃ range ∈ blankRanges, range.1 ≤ c.toNat ∧ c.toNat ≤ range.2 := by
  simp only [isBlank, Bool.or_eq_true, Bool.and_eq_true, decide_eq_true_eq, beq_iff_eq] at h
  simp only [blankRanges, List.mem_cons, List.not_mem_nil, or_false, exists_eq_or_imp,
    exists_eq_left]
  omega

theorem blankRanges_disjoint :
    (blankRanges.all fun range => wordRanges.all fun other =>
      Nat.blt range.2 other.1 || Nat.blt other.2 range.1) = true := by
  decide +kernel

theorem isWordChar_of_isBlank {c : Char} (h : isBlank c = true) : isWordChar c = false := by
  obtain ⟨range, hrange, hlow, hhigh⟩ := exists_blankRange h
  rw [isWordChar, List.any_eq_false]
  intro other hother
  have hdisjoint :=
    List.all_eq_true.mp (List.all_eq_true.mp blankRanges_disjoint range hrange) other hother
  simp only [Nat.blt_eq, Bool.or_eq_true] at hdisjoint
  simp only [Bool.and_eq_true, decide_eq_true_eq]
  omega

end Text

end AtomicCss
