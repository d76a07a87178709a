import AtomicCss.Proofs.Extraction
import AtomicCss.Proofs.SourceText

/-!
The classes of a class attribute. The check on words skips what stands in quotes, but the reader of
class lists counts brackets there too. A class with a bracket in quotes can therefore leave the
reader inside brackets, and then it is taken together with the classes behind it. Those classes are
found around which the reader counts no open bracket, and in general no others.
-/

namespace AtomicCss.Extract

/-- The brackets that the reader of class lists counts as open behind a word. -/
def openAfter (depth : Nat) (word : String) : Nat :=
  (word.toList.foldl ListReader.step ⟨depth, false⟩).depth

/-- The words with no open bracket in front of them and, where more words follow, none behind
them. -/
def freeWords : (depth : Nat) → List String → List String
  | _, [] => []
  | depth, word :: rest =>
      let next := openAfter depth word
      if depth = 0 ∧ (rest = [] ∨ next = 0) then word :: freeWords next rest
      else freeWords next rest

/-- A class that can stand in a class attribute in double quotes. -/
structure IsQuotable (word : String) : Prop where
  candidate : isCandidate word.toList = true
  quote : '"' ∉ word.toList
  backslash : '\\' ∉ word.toList

/-! Words that close their brackets. -/

theorem freeWords_sublist (depth : Nat) (words : List String) :
    (freeWords depth words).Sublist words := by
  induction words generalizing depth with
  | nil => exact List.Sublist.refl []
  | cons word rest ih =>
      rw [freeWords]
      split
      · exact (ih _).cons_cons word
      · exact (ih _).cons word

theorem freeWords_eq_self_iff (words : List String) :
    freeWords 0 words = words ↔ ∀ word ∈ words.dropLast, openAfter 0 word = 0 := by
  induction words with
  | nil => simp [freeWords]
  | cons word rest ih =>
      cases rest with
      | nil => simp [freeWords]
      | cons next rest =>
          rw [freeWords, List.dropLast_cons_cons, List.forall_mem_cons]
          by_cases hopen : openAfter 0 word = 0
          · simp [hopen, ih]
          · simp only [hopen, List.cons_ne_nil, or_false, and_false, if_false, false_and, iff_false]
            intro heq
            have hlength := (freeWords_sublist (openAfter 0 word) (next :: rest)).length_le
            rw [heq, List.length_cons] at hlength
            omega

theorem step_of_scanStep {depth next base : Nat} {quoting : Css.Quoting} {c : Char}
    (hstep : ScanStep depth quoting c next) (hc : c ≠ '\\')
    (hbare : quoting = .outside ∨ Css.Nesting.opens c = false ∧ Css.Nesting.closes c = false) :
    ListReader.step ⟨base + depth, false⟩ c = ⟨base + next, false⟩ := by
  cases hstep with
  | opens hc => rcases hc with rfl | rfl <;> rfl
  | closes hc => rcases hc with rfl | rfl <;> rfl
  | quoted hquoting =>
      have hbracket := hbare.resolve_left hquoting
      simp only [Css.Nesting.opens, Css.Nesting.closes, Bool.or_eq_false_iff, beq_eq_false_iff_ne]
        at hbracket
      simp_all [ListReader.step]
  | other hopens hcloses _ => simp_all [ListReader.step]

/-- Where no bracket stands in quotes, the reader counts the brackets that the check on words
counts. -/
theorem foldl_step_of_isWellFormedFrom (base : Nat) {previous : Option Char} {depth : Nat}
    {quoting : Css.Quoting} {text : List Char}
    (h : isWellFormedFrom previous depth quoting text = true) (hbare : quoting.isBare text = true)
    (hbackslash : '\\' ∉ text) :
    text.foldl ListReader.step ⟨base + depth, false⟩ = ⟨base, false⟩ := by
  induction text generalizing previous depth quoting with
  | nil =>
      simp only [isWellFormedFrom, Bool.and_eq_true, beq_iff_eq] at h
      rw [h.2]
      rfl
  | cons c rest ih =>
      obtain ⟨next, hstep, hrest⟩ := scanStep_of_isWellFormedFrom h
      obtain ⟨hc, hbackslash⟩ := List.ne_and_not_mem_of_not_mem_cons hbackslash
      obtain ⟨hbare, hbareRest⟩ := Bool.and_eq_true_iff.mp hbare
      rw [List.foldl_cons, step_of_scanStep hstep (Ne.symm hc) (by simpa using hbare)]
      exact ih hrest hbareRest hbackslash

theorem IsQuotable.openAfter_eq_zero {word : String} (h : IsQuotable word)
    (hbare : Css.Quoting.isBare .outside word.toList = true) : openAfter 0 word = 0 := by
  have hcandidate := h.candidate
  rw [isCandidate, Bool.and_eq_true] at hcandidate
  have hend := foldl_step_of_isWellFormedFrom 0 hcandidate.2 hbare h.backslash
  rw [openAfter, hend]

/-! What the reader makes of words joined by blanks. -/

theorem isBlank_of_mem_candidate {word : List Char} (h : isCandidate word = true) {c : Char}
    (hc : c ∈ word) : Text.isBlank c = false := by
  simp only [isCandidate, Bool.and_eq_true] at h
  obtain ⟨⟨⟨-, hallowed⟩, -⟩, -⟩ := h
  exact isBlank_eq_false_of_isAllowedChar (List.all_eq_true.mp hallowed c hc)

theorem ne_nil_of_isCandidate {word : List Char} (h : isCandidate word = true) : word ≠ [] := by
  rintro rfl
  cases h

theorem escaped_foldl_step {text : List Char} (hbackslash : '\\' ∉ text) (depth : Nat) :
    (text.foldl ListReader.step ⟨depth, false⟩).escaped = false := by
  induction text generalizing depth with
  | nil => rfl
  | cons c rest ih =>
      obtain ⟨hc, hrest⟩ := List.ne_and_not_mem_of_not_mem_cons hbackslash
      rw [List.foldl_cons, ListReader.step, if_neg Bool.false_ne_true, if_neg (Ne.symm hc)]
      split
      · exact ih hrest _
      split
      · exact ih hrest _
      · exact ih hrest _

theorem foldl_step_eq {word : String} (hbackslash : '\\' ∉ word.toList) (depth : Nat) :
    word.toList.foldl ListReader.step ⟨depth, false⟩ = ⟨openAfter depth word, false⟩ := by
  have hescaped := escaped_foldl_step hbackslash depth
  rw [openAfter]
  cases hstate : word.toList.foldl ListReader.step ⟨depth, false⟩ with
  | mk next escaped =>
      rw [hstate] at hescaped
      cases hescaped
      rfl

theorem pieces_word {word : List Char} (h : isCandidate word = true) (state : ListReader) :
    Text.pieces ListReader.step ListReader.cuts state word = [word] := by
  rw [Text.pieces_eq_singleton_iff]
  intro before c after hword
  have hc : c ∈ word := hword ▸ List.mem_append_right before List.mem_cons_self
  rw [ListReader.cuts, isBlank_of_mem_candidate h hc, Bool.and_false]

/-- The blank behind a word ends it, unless brackets are open. -/
theorem pieces_word_append {word : String} (h : IsQuotable word) (depth : Nat)
    (rest : List Char) :
    Text.pieces ListReader.step ListReader.cuts ⟨depth, false⟩ (word.toList ++ ' ' :: rest) =
      if openAfter depth word = 0 then
        word.toList :: Text.pieces ListReader.step ListReader.cuts ⟨0, false⟩ rest
      else
        Text.glue [word.toList ++ [' ']]
          (Text.pieces ListReader.step ListReader.cuts ⟨openAfter depth word, false⟩ rest) := by
  have hstate := foldl_step_eq h.backslash depth
  have hword := pieces_word h.candidate ⟨depth, false⟩
  split
  · rename_i hclosed
    rw [hclosed] at hstate
    rw [Text.pieces_append_cut hword (by rw [hstate]; rfl), hstate]
    rfl
  · rename_i hopen
    have hcut : ListReader.cuts ⟨openAfter depth word, false⟩ ' ' = false := by
      simp [ListReader.cuts, ListReader.initial, hopen]
    rw [Text.pieces_append, hword, hstate, Text.pieces_cons hcut,
      Text.glue_cons _ _ _ _ (Text.pieces_ne_nil _ _)]
    rfl

theorem isCandidate_of_blank {text : List Char} (h : ' ' ∈ text) : isCandidate text = false := by
  by_contra hcandidate
  have hc := isBlank_of_mem_candidate (Bool.not_eq_false _ ▸ hcandidate) h
  cases hc

/-- What the reader has put in front of a word: nothing outside brackets, and inside them a text
with a blank. -/
structure IsLead (depth : Nat) (lead : List Char) : Prop where
  free : depth = 0 → lead = []
  blank : depth ≠ 0 → ' ' ∈ lead

theorem isLead_nil : IsLead 0 [] :=
  ⟨fun _ => rfl, fun hne => (hne rfl).elim⟩

theorem isLead_of_blank {depth : Nat} {lead : List Char} (hdepth : depth ≠ 0)
    (hblank : ' ' ∈ lead) : IsLead depth lead :=
  ⟨fun hzero => (hdepth hzero).elim, fun _ => hblank⟩

theorem IsLead.filter_cons {depth : Nat} {lead word : List Char} (h : IsLead depth lead)
    (hword : isCandidate word = true) (later : List (List Char)) :
    ((lead ++ word) :: later).filter isCandidate =
      if depth = 0 then word :: later.filter isCandidate else later.filter isCandidate := by
  split
  · rename_i hdepth
    rw [h.free hdepth, List.nil_append, List.filter_cons_of_pos hword]
  · rename_i hdepth
    have hblank := List.mem_append_left word (h.blank hdepth)
    rw [List.filter_cons_of_neg (by simp [isCandidate_of_blank hblank])]

def joined (words : List String) : List Char :=
  Text.join [' '] (words.map String.toList)

theorem joined_cons_cons (word next : String) (rest : List String) :
    joined (word :: next :: rest) = word.toList ++ ' ' :: joined (next :: rest) := by
  rw [joined, List.map_cons, Text.join_cons_of_ne_nil _ _ (by simp), List.append_assoc]
  rfl

theorem filter_glue_pieces {words : List String} (h : ∀ word ∈ words, IsQuotable word)
    {depth : Nat} {lead : List Char} (hlead : IsLead depth lead) :
    (Text.glue [lead] (Text.pieces ListReader.step ListReader.cuts ⟨depth, false⟩
        (joined words))).filter isCandidate =
      (freeWords depth words).map String.toList := by
  induction words generalizing depth lead with
  | nil =>
      change [lead ++ []].filter isCandidate = []
      rw [List.append_nil]
      by_cases hdepth : depth = 0
      · rw [hlead.free hdepth]
        rfl
      · simp [isCandidate_of_blank (hlead.blank hdepth)]
  | cons word rest ih =>
      obtain ⟨hword, hrest⟩ := List.forall_mem_cons.mp h
      have hfirst := hlead.filter_cons hword.candidate
      cases rest with
      | nil =>
          have hpieces : Text.pieces ListReader.step ListReader.cuts ⟨depth, false⟩
              (joined [word]) = [word.toList] := pieces_word hword.candidate _
          rw [hpieces, freeWords]
          refine (hfirst []).trans ?_
          by_cases hdepth : depth = 0 <;> simp [hdepth, freeWords]
      | cons next rest =>
          rw [joined_cons_cons, pieces_word_append hword, freeWords]
          by_cases hclosed : openAfter depth word = 0
          · -- The word is cut off, with its lead, and the next one starts afresh.
            have hlater := ih hrest isLead_nil
            rw [if_pos hclosed, hclosed]
            refine (hfirst _).trans ?_
            by_cases hdepth : depth = 0
            · rw [if_pos hdepth, if_pos ⟨hdepth, .inr rfl⟩, List.map_cons]
              exact congrArg (word.toList :: ·) hlater
            · rw [if_neg hdepth, if_neg fun hboth => hdepth hboth.1]
              exact hlater
          · -- The word and the blank behind it become part of the lead.
            rw [if_neg hclosed, Text.glue_cons _ _ _ _ (Text.pieces_ne_nil _ _),
              if_neg (by simp [hclosed])]
            exact ih hrest (isLead_of_blank hclosed (by simp))

theorem solid_word {word : List Char} (h : isCandidate word = true) : Text.Solid word := by
  have hne := ne_nil_of_isCandidate h
  have hblank : ∀ c ∈ word, Text.isBlank c = false := fun _ => isBlank_of_mem_candidate h
  constructor
  · exact ⟨word.head hne, List.head?_eq_some_head hne, hblank _ (List.head_mem hne)⟩
  · exact ⟨word.getLast hne, List.getLast?_eq_some_getLast hne, hblank _ (List.getLast_mem hne)⟩

theorem trim_joined {words : List String} (h : ∀ word ∈ words, IsQuotable word) :
    Text.trim (joined words) = joined words := by
  by_cases hempty : words = []
  · rw [hempty]
    rfl
  · apply Text.Solid.trim_eq
    apply Text.Solid.join
    · simpa using hempty
    · intro text htext
      obtain ⟨word, hword, rfl⟩ := List.mem_map.mp htext
      exact solid_word (h word hword).candidate

theorem mem_splitClasses_joined {words : List String} (h : ∀ word ∈ words, IsQuotable word)
    (word : String) :
    isCandidate word.toList = true ∧ word.toList ∈ splitClasses (Text.trim (joined words)) ↔
      word ∈ freeWords 0 words := by
  have hpieces := filter_glue_pieces h isLead_nil
  rw [← List.mem_map_of_injective fun _ _ => String.toList_injective, ← hpieces, trim_joined h,
    splitClasses, List.mem_filter, List.mem_filter]
  constructor
  · rintro ⟨hcandidate, hmem, -⟩
    exact ⟨hmem, hcandidate⟩
  · rintro ⟨hmem, hcandidate⟩
    exact ⟨hcandidate, hmem, by simpa using ne_nil_of_isCandidate hcandidate⟩

/-! How the value of a class attribute is found. -/

theorem readQuoted_append {quote : Char} {text : List Char} (hquote : quote ≠ '\\')
    (h : ∀ c ∈ text, c ≠ quote ∧ c ≠ '\\') (rest : List Char) :
    readQuoted quote (text ++ quote :: rest) = (text, rest) := by
  induction text with
  | nil => simp [readQuoted]
  | cons c text ih =>
      obtain ⟨⟨hc, hbackslash⟩, htext⟩ := List.forall_mem_cons.mp h
      simp [readQuoted, hc, ih htext]

theorem attributeValues_subset_append (name front text : List Char) (previous : Option Char) :
    attributeValues name (front.getLast?.or previous) text ⊆
      attributeValues name previous (front ++ text) := by
  induction front generalizing previous with
  | nil => exact List.Subset.refl _
  | cons c front ih =>
      have hlast : (c :: front).getLast?.or previous = front.getLast?.or (some c) := by
        cases front <;> simp [List.getLast?_cons]
      rw [hlast, List.cons_append, attributeValues]
      exact fun value hvalue => List.mem_append_right _ (ih (some c) hvalue)

theorem attributeValues_eq_nil {name text : List Char} (previous : Option Char)
    (h : ¬name <:+: text) : attributeValues name previous text = [] := by
  induction text generalizing previous with
  | nil => rfl
  | cons c rest ih =>
      have hlead : ¬name <+: c :: rest := fun hlead => h hlead.isInfix
      have hlater : ¬name <:+: rest := fun hlater =>
        h (hlater.trans (List.suffix_cons c rest).isInfix)
      rw [attributeValues, textsAt, Text.after?_eq_none hlead, ih _ hlater]
      rfl

theorem forall_mem_joined {words : List String} (h : ∀ word ∈ words, IsQuotable word) :
    ∀ c ∈ joined words, c ≠ '"' ∧ c ≠ '\\' := by
  apply Text.forall_mem_join
  · simp
  · intro text htext c hc
    obtain ⟨word, hword, rfl⟩ := List.mem_map.mp htext
    refine ⟨?_, ?_⟩
    · rintro rfl
      exact (h word hword).quote hc
    · rintro rfl
      exact (h word hword).backslash hc

def classAttribute (words : List String) (after : List Char) : List Char :=
  ['c', 'l', 'a', 's', 's'] ++ '=' :: '"' :: (joined words ++ '"' :: after)

theorem textsAt_classAttribute {words : List String} (h : ∀ word ∈ words, IsQuotable word)
    (after : List Char) :
    textsAt ['c', 'l', 'a', 's', 's'] (some ' ') (classAttribute words after) = [joined words] := by
  have hread := readQuoted_append (by decide) (forall_mem_joined h) after
  rw [textsAt, classAttribute, Text.after?_append]
  change [(readQuoted '"' (joined words ++ '"' :: after)).1] = _
  rw [hread]

theorem joined_mem_allAttributeValues {words : List String}
    (h : ∀ word ∈ words, IsQuotable word) (before after : List Char) :
    joined words ∈ allAttributeValues (before ++ ' ' :: classAttribute words after) := by
  rw [allAttributeValues, List.mem_flatMap]
  refine ⟨"class", by decide, ?_⟩
  rw [List.append_cons]
  apply attributeValues_subset_append
  rw [List.getLast?_concat, Option.some_or]
  change joined words ∈
    textsAt ['c', 'l', 'a', 's', 's'] (some ' ') (classAttribute words after) ++ _
  rw [textsAt_classAttribute h]
  exact List.mem_append_left _ (List.mem_singleton.mpr rfl)

theorem not_infix_joined {needle : List Char} {words : List String} (hblank : ' ' ∉ needle)
    (hempty : needle ≠ []) (h : ∀ word ∈ words, ¬needle <:+: word.toList) :
    ¬needle <:+: joined words := by
  induction words with
  | nil => exact fun hfound => hempty (List.infix_nil.mp hfound)
  | cons word rest ih =>
      obtain ⟨hword, hrest⟩ := List.forall_mem_cons.mp h
      cases rest with
      | nil => exact hword
      | cons next rest =>
          rw [joined_cons_cons]
          exact Text.not_infix_append_cons hblank hword (ih hrest)

/-! Where no class holds the text `class`, no attribute begins inside the value. -/

theorem not_infix_around {name before : List Char} {words : List String}
    (hquote : '"' ∉ name) (hname : ['c', 'l', 'a', 's', 's'] <:+: name)
    (hbefore : ¬name <:+: before)
    (hclass : ∀ word ∈ words, ¬['c', 'l', 'a', 's', 's'] <:+: word.toList) :
    ¬name <:+: before ++ '"' :: (joined words ++ ['"']) := by
  have hjoined : ¬name <:+: joined words := fun hfound =>
    not_infix_joined (by decide) (List.cons_ne_nil _ _) hclass (hname.trans hfound)
  have hnil : ¬name <:+: [] := fun hfound => by
    cases List.infix_nil.mp (hname.trans hfound)
  exact Text.not_infix_append_cons hquote hbefore (Text.not_infix_append_cons hquote hjoined hnil)

theorem eq_joined_of_mem_allAttributeValues {words : List String}
    (h : ∀ word ∈ words, IsQuotable word)
    (hclass : ∀ word ∈ words, ¬['c', 'l', 'a', 's', 's'] <:+: word.toList) {value : List Char}
    (hvalue : value ∈ allAttributeValues (' ' :: classAttribute words [])) :
    value = joined words := by
  have hnames : ∀ name ∈ attributeNames, '"' ∉ name.toList ∧
      ['c', 'l', 'a', 's', 's'] <:+: name.toList ∧
      (name = "class" ∨ ¬name.toList <:+: [' ', 'c', 'l', 'a', 's', 's', '=']) := by
    decide
  obtain ⟨name, hmem, hvalue⟩ := List.mem_flatMap.mp hvalue
  obtain ⟨hquote, hname, rfl | hlead⟩ := hnames name hmem
  · have hlater : attributeValues ['c', 'l', 'a', 's', 's'] (some 'c')
        (['l', 'a', 's', 's', '='] ++ '"' :: (joined words ++ ['"'])) = [] :=
      attributeValues_eq_nil _ (not_infix_around (by decide) hname (by decide) hclass)
    have hvalues : attributeValues ['c', 'l', 'a', 's', 's'] none
        (' ' :: classAttribute words []) =
          textsAt ['c', 'l', 'a', 's', 's'] (some ' ') (classAttribute words []) ++
            attributeValues ['c', 'l', 'a', 's', 's'] (some 'c')
              (['l', 'a', 's', 's', '='] ++ '"' :: (joined words ++ ['"'])) := rfl
    rw [textsAt_classAttribute h, hlater] at hvalues
    change value ∈ attributeValues ['c', 'l', 'a', 's', 's'] none _ at hvalue
    rw [hvalues] at hvalue
    exact List.mem_singleton.mp hvalue
  · have hnone := attributeValues_eq_nil none (not_infix_around hquote hname hlead hclass)
    change value ∈ attributeValues name.toList none
      ([' ', 'c', 'l', 'a', 's', 's', '='] ++ '"' :: (joined words ++ ['"'])) at hvalue
    rw [hnone] at hvalue
    cases hvalue

theorem literals_append {front : List Char}
    (h : ∀ c ∈ front, Css.isQuote c = false ∧ c ≠ '\x60') (text : List Char) :
    literals (front ++ text) = literals text := by
  induction front with
  | nil => rfl
  | cons c front ih =>
      obtain ⟨⟨hquote, htemplate⟩, hfront⟩ := List.forall_mem_cons.mp h
      rw [List.cons_append, literals, scanLiterals, if_neg (by simp [hquote]), if_neg htemplate]
      exact ih hfront

theorem literals_quoted {quote : Char} (hquote : Css.isQuote quote = true) (rest : List Char) :
    literals (quote :: rest) =
      (readQuoted quote rest).1 :: literals (readQuoted quote rest).2 := by
  rw [literals, scanLiterals, if_pos hquote]
  rfl

theorem literals_classAttribute {words : List String} (h : ∀ word ∈ words, IsQuotable word) :
    literals (' ' :: classAttribute words []) = [joined words] := by
  have hcode : ∀ c ∈ [' ', 'c', 'l', 'a', 's', 's', '='],
      Css.isQuote c = false ∧ c ≠ '\x60' := by
    simp [Css.isQuote]
  have hnone : literals [] = [] := by rw [literals, scanLiterals]
  change literals ([' ', 'c', 'l', 'a', 's', 's', '='] ++ '"' :: (joined words ++ ['"'])) = _
  rw [literals_append hcode, literals_quoted (by decide),
    readQuoted_append (by decide) (forall_mem_joined h), hnone]

theorem eq_joined_of_mem_sources {words : List String} (h : ∀ word ∈ words, IsQuotable word)
    (hclass : ∀ word ∈ words, ¬['c', 'l', 'a', 's', 's'] <:+: word.toList) {source : List Char}
    (hsource : source ∈ allAttributeValues (' ' :: classAttribute words []) ++
      literals (' ' :: classAttribute words [])) :
    source = joined words := by
  rw [List.mem_append, literals_classAttribute h, List.mem_singleton] at hsource
  exact hsource.elim (eq_joined_of_mem_allAttributeValues h hclass) id

theorem toList_around_classAttribute (before after : String) (words : List String) :
    (before ++ " class=\"" ++ " ".intercalate words ++ "\"" ++ after).toList =
      before.toList ++ ' ' :: classAttribute words after.toList := by
  simp only [String.toList_append, Text.toList_intercalate, List.append_assoc]
  rfl

/-- A class attribute gives the classes around which the reader counts no open bracket, whatever
text is around it. In a text of its own it gives no others, if none of its classes holds the name of
the attribute. These are all of its classes if and only if each of them but the last closes its
brackets for the reader, as every class does that has none in quotes. -/
theorem class_attribute_gives_free_words (words : List String)
    (h : ∀ word ∈ words, IsQuotable word) :
    (∀ before after, ∀ word ∈ freeWords 0 words, word ∈ classesIn none
      (before ++ " class=\"" ++ " ".intercalate words ++ "\"" ++ after)) ∧
    ((∀ word ∈ words, ¬"class".toList <:+: word.toList) →
      ∀ word, word ∈ classesIn none (" class=\"" ++ " ".intercalate words ++ "\"") ↔
        word ∈ freeWords 0 words) ∧
    (freeWords 0 words = words ↔ ∀ word ∈ words.dropLast, openAfter 0 word = 0) ∧
    ∀ word ∈ words, Css.Quoting.isBare .outside word.toList = true → openAfter 0 word = 0 := by
  refine ⟨?_, ?_, freeWords_eq_self_iff words, ?_⟩
  · intro before after word hword
    obtain ⟨hcandidate, hmem⟩ := (mem_splitClasses_joined h word).mpr hword
    rw [mem_classesIn, toList_around_classAttribute]
    refine ⟨hcandidate, joined words, List.mem_append_left _ ?_, hmem⟩
    exact joined_mem_allAttributeValues h before.toList after.toList
  · intro hclass word
    have htext : (" class=\"" ++ " ".intercalate words ++ "\"").toList =
        ' ' :: classAttribute words [] := by
      simpa using toList_around_classAttribute "" "" words
    rw [← mem_splitClasses_joined h word, mem_classesIn, htext]
    apply and_congr_right
    intro _
    constructor
    · rintro ⟨source, hsource, hmem⟩
      rwa [eq_joined_of_mem_sources h hclass hsource] at hmem
    · intro hmem
      refine ⟨joined words, List.mem_append_left _ ?_, hmem⟩
      exact joined_mem_allAttributeValues h [] []
  · intro word hword
    exact (h word hword).openAfter_eq_zero

/-- A class that leaves a bracket open and one that closes it are lost, and the class behind them is
found. -/
theorem class_attribute_gives_free_words_quoted :
    let words := ["content-['[']", "before:content-[')']", "flex"]
    (∀ word ∈ words, IsQuotable word) ∧
      "flex" ∈ classesIn none ("<p" ++ " class=\"" ++ " ".intercalate words ++ "\"" ++ ">") ∧
      ∀ word, word ∈ classesIn none (" class=\"" ++ " ".intercalate words ++ "\"") ↔
        word = "flex" := by
  intro words
  have hquotable : ∀ word ∈ words, IsQuotable word := by
    have hwords : ∀ word ∈ words, isCandidate word.toList = true ∧ '"' ∉ word.toList ∧
        '\\' ∉ word.toList := by
      decide +kernel
    intro word hword
    exact ⟨(hwords word hword).1, (hwords word hword).2.1, (hwords word hword).2.2⟩
  have hfree : freeWords 0 words = ["flex"] := by decide +kernel
  obtain ⟨hfound, hexact, -, -⟩ := class_attribute_gives_free_words words hquotable
  rw [hfree] at hfound hexact
  refine ⟨hquotable, hfound "<p" ">" "flex" (List.mem_singleton.mpr rfl), fun word => ?_⟩
  rw [hexact (by decide +kernel), List.mem_singleton]

/-- A bracket in quotes hides its class and the one behind it. -/
theorem bracket_in_quotes_hides_classes :
    (∀ word ∈ ["content-['[']", "flex"], isCandidate word.toList = true ∧ '"' ∉ word.toList ∧
        '\\' ∉ word.toList) ∧
      classesIn none
          ("" ++ " class=\"" ++ " ".intercalate ["content-['[']", "flex"] ++ "\"" ++ "") = [] := by
  decide +kernel

end AtomicCss.Extract
