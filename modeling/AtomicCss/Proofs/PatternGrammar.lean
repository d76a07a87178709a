import AtomicCss.Proofs.BlockBodies

/-!
The grammar of the patterns of user-defined utilities. Validation cuts a pattern at its dashes and
looks at each segment, and the root is found by a search for the first `-*`; both are compared here
with the grammar, which builds a pattern from its first word on.
-/

namespace AtomicCss

namespace Text

section Segments

variable {separator : Char} {text segment : List Char}

/-- The segment reaches from one separator, or one end of the text, to the next. -/
def HasSegment (separator : Char) (text segment : List Char) : Prop :=
  ∃ before after, text = before ++ segment ++ after ∧ separator ∉ segment ∧
    (∀ c ∈ before.getLast?, c = separator) ∧ ∀ c ∈ after.head?, c = separator

theorem HasSegment.append_cons (h : HasSegment separator text segment) (first : List Char) :
    HasSegment separator (first ++ separator :: text) segment := by
  obtain ⟨before, after, htext, hsegment, hbefore, hafter⟩ := h
  refine ⟨first ++ separator :: before, after, by simp [htext], hsegment, ?_, hafter⟩
  intro c hc
  cases hlast : before.getLast? with
  | none => simpa [List.getLast?_append, List.getLast?_cons, hlast, eq_comm] using hc
  | some last =>
      apply hbefore
      simpa [List.getLast?_append, List.getLast?_cons, hlast] using hc

theorem hasSegment_first (hfirst : separator ∉ segment) (rest : List Char) :
    HasSegment separator (segment ++ separator :: rest) segment :=
  ⟨[], separator :: rest, by simp, hfirst, by simp, by simp⟩

theorem hasSegment_of_mem_splitOn (h : segment ∈ splitOn separator text) :
    HasSegment separator text segment := by
  induction hlength : text.length using Nat.strongRecOn generalizing text with
  | ind length ih =>
      by_cases hmem : separator ∈ text
      · obtain ⟨first, rest, htext, hfirst⟩ := List.eq_append_cons_of_mem hmem
        rw [htext, splitOn_append_cons, splitOn_eq_singleton hfirst, List.singleton_append] at h
        rw [htext]
        rcases List.mem_cons.mp h with hsegment | hlater
        · rw [hsegment]
          exact hasSegment_first hfirst rest
        · apply HasSegment.append_cons
          apply ih rest.length _ hlater rfl
          simp only [← hlength, htext, List.length_append, List.length_cons]
          omega
      · rw [splitOn_eq_singleton hmem, List.mem_singleton] at h
        exact ⟨[], [], by simp [h], h ▸ hmem, by simp, by simp⟩

theorem HasSegment.mem_splitOn (h : HasSegment separator text segment) :
    segment ∈ splitOn separator text := by
  obtain ⟨before, after, htext, hsegment, hbefore, hafter⟩ := h
  have htail : segment ∈ splitOn separator (segment ++ after) := by
    cases after with
    | nil => simp [splitOn_eq_singleton hsegment]
    | cons c after =>
        rw [hafter c rfl, splitOn_append_cons, splitOn_eq_singleton hsegment]
        exact List.mem_cons_self
  rw [htext, List.append_assoc]
  rcases List.eq_nil_or_concat before with hnil | ⟨start, c, hstart⟩
  · rwa [hnil]
  · have hc : c = separator := by
      apply hbefore
      simp [hstart]
    rw [hstart, hc, List.concat_eq_append, List.append_assoc, List.singleton_append,
      splitOn_append_cons]
    exact List.mem_append_right _ htail

theorem mem_splitOn_iff : segment ∈ splitOn separator text ↔ HasSegment separator text segment :=
  ⟨hasSegment_of_mem_splitOn, HasSegment.mem_splitOn⟩

end Segments

theorem exists_last_segment {separator : Char} {text : List Char} (h : separator ∈ text) :
    ∃ lead segment, text = lead ++ separator :: segment ∧ separator ∉ segment := by
  obtain ⟨segment, lead, hreverse, hsegment⟩ :=
    List.eq_append_cons_of_mem (List.mem_reverse.mpr h)
  refine ⟨lead.reverse, segment.reverse, ?_, by simpa using hsegment⟩
  rw [← List.reverse_reverse text, hreverse]
  simp

end Text

namespace Utility

namespace Pattern

def IsLetter (c : Char) : Prop :=
  'a' ≤ c ∧ c ≤ 'z'

def IsLetterOrDigit (c : Char) : Prop :=
  IsLetter c ∨ ('0' ≤ c ∧ c ≤ '9')

/-- The grammar: a word that starts with a letter, then any number of segments. A segment is a dash
and a word, or a dash and a wildcard. -/
inductive Derives : List Char → Prop
  | first {letter : Char} {rest : List Char} (hletter : IsLetter letter)
      (hrest : ∀ c ∈ rest, IsLetterOrDigit c) : Derives (letter :: rest)
  | word {pattern word : List Char} (hpattern : Derives pattern) (hempty : word ≠ [])
      (hword : ∀ c ∈ word, IsLetterOrDigit c) : Derives (pattern ++ '-' :: word)
  | wildcard {pattern : List Char} (hpattern : Derives pattern) : Derives (pattern ++ ['-', '*'])

theorem isLower_iff {c : Char} : c.isLower = true ↔ IsLetter c := by
  rw [show c.isLower = (decide ('a' ≤ c) && decide (c ≤ 'z')) from rfl]
  simp [IsLetter]

theorem isWordChar_iff {c : Char} : isWordChar c = true ↔ IsLetterOrDigit c := by
  rw [isWordChar, Bool.or_eq_true, isLower_iff,
    show c.isDigit = (decide ('0' ≤ c) && decide (c ≤ '9')) from rfl]
  simp [IsLetterOrDigit]

theorem isWord_iff {word : List Char} :
    isWord word = true ↔ word ≠ [] ∧ ∀ c ∈ word, IsLetterOrDigit c := by
  simp [isWord, isWordChar_iff]

theorem not_mem_of_isLetterOrDigit {word : List Char} (h : ∀ c ∈ word, IsLetterOrDigit c) :
    '-' ∉ word ∧ '*' ∉ word := by
  constructor
  · intro hdash
    exact absurd (isWordChar_iff.mpr (h '-' hdash)) (by decide)
  · intro hstar
    exact absurd (isWordChar_iff.mpr (h '*' hstar)) (by decide)

theorem not_isMixed {segment : List Char} (h : isWord segment = true ∨ isWildcard segment = true) :
    isMixed segment = false := by
  rcases h with hword | hstar
  · simp [isMixed, (not_mem_of_isLetterOrDigit (isWord_iff.mp hword).2).2]
  · simp [isMixed, hstar]

theorem isWellFormed_of_not_mem {pattern : List Char} (h : '-' ∉ pattern) :
    isWellFormed pattern = (isWord pattern && pattern.head?.any Char.isLower) := by
  simp [isWellFormed, Text.splitOn_eq_singleton h]

theorem isWellFormed_append {segment : List Char} (h : '-' ∉ segment) (pattern : List Char) :
    isWellFormed (pattern ++ '-' :: segment) =
      (isWellFormed pattern && (isWord segment || isWildcard segment)) := by
  obtain ⟨first, rest, hsplit⟩ : ∃ first rest, Text.splitOn '-' pattern = first :: rest :=
    ⟨_, _, rfl⟩
  simp [isWellFormed, Text.splitOn_append_cons, Text.splitOn_eq_singleton h, hsplit, Bool.and_assoc]

theorem not_isMixed_of_isWellFormed {pattern : List Char} (h : isWellFormed pattern = true) :
    (Text.splitOn '-' pattern).any isMixed = false := by
  rw [isWellFormed] at h
  split at h
  · cases h
  rename_i first rest hsplit
  simp only [Bool.and_eq_true, List.all_eq_true, Bool.or_eq_true] at h
  rw [hsplit, List.any_cons, not_isMixed (.inl h.1.1), Bool.false_or, List.any_eq_false]
  intro segment hsegment
  simp [not_isMixed (h.2 segment hsegment)]

theorem Derives.isWellFormed {pattern : List Char} (h : Derives pattern) :
    isWellFormed pattern = true := by
  induction h with
  | @first letter rest hletter hrest =>
      have hword : ∀ c ∈ letter :: rest, IsLetterOrDigit c :=
        List.forall_mem_cons.mpr ⟨.inl hletter, hrest⟩
      rw [isWellFormed_of_not_mem (not_mem_of_isLetterOrDigit hword).1, Bool.and_eq_true]
      exact ⟨isWord_iff.mpr ⟨List.cons_ne_nil _ _, hword⟩, isLower_iff.mpr hletter⟩
  | word hpattern hempty hword ih =>
      rw [isWellFormed_append (not_mem_of_isLetterOrDigit hword).1, ih,
        isWord_iff.mpr ⟨hempty, hword⟩]
      rfl
  | wildcard hpattern ih =>
      rw [isWellFormed_append (by decide), ih]
      rfl

theorem derives_of_isWellFormed {pattern : List Char} (h : isWellFormed pattern = true) :
    Derives pattern := by
  -- from the right: the grammar adds segments at the end, so the last one is taken off
  induction hlength : pattern.length using Nat.strongRecOn generalizing pattern with
  | ind length ih =>
      by_cases hmem : '-' ∈ pattern
      · obtain ⟨lead, segment, hpattern, hsegment⟩ := Text.exists_last_segment hmem
        rw [hpattern, isWellFormed_append hsegment, Bool.and_eq_true, Bool.or_eq_true] at h
        have hlead : Derives lead := by
          apply ih lead.length _ h.1 rfl
          simp only [← hlength, hpattern, List.length_append, List.length_cons]
          omega
        rw [hpattern]
        rcases h.2 with hword | hstar
        · obtain ⟨hempty, hchars⟩ := isWord_iff.mp hword
          exact .word hlead hempty hchars
        · rw [eq_of_beq hstar]
          exact .wildcard hlead
      · rw [isWellFormed_of_not_mem hmem, Bool.and_eq_true] at h
        cases pattern with
        | nil => cases h.2
        | cons letter rest =>
            have hchars := (isWord_iff.mp h.1).2
            exact .first (isLower_iff.mp h.2) fun c hc => hchars c (List.mem_cons_of_mem letter hc)

theorem isWellFormed_iff {pattern : List Char} : isWellFormed pattern = true ↔ Derives pattern :=
  ⟨derives_of_isWellFormed, Derives.isWellFormed⟩

theorem Derives.exists_letter {pattern : List Char} (h : Derives pattern) :
    ∃ letter rest, pattern = letter :: rest ∧ letter.isLower = true := by
  induction h with
  | @first letter rest hletter hrest => exact ⟨letter, rest, rfl, isLower_iff.mpr hletter⟩
  | word hpattern hempty hword ih =>
      obtain ⟨letter, rest, heq, hletter⟩ := ih
      exact ⟨letter, _, by rw [heq]; rfl, hletter⟩
  | wildcard hpattern ih =>
      obtain ⟨letter, rest, heq, hletter⟩ := ih
      exact ⟨letter, _, by rw [heq]; rfl, hletter⟩

theorem Derives.ne_nil {pattern : List Char} (h : Derives pattern) : pattern ≠ [] := by
  obtain ⟨letter, rest, heq, -⟩ := h.exists_letter
  rw [heq]
  exact List.cons_ne_nil letter rest

/-- The first wildcard stands behind a pattern without wildcards. -/
theorem Derives.exists_root {pattern : List Char} (h : Derives pattern) (hstar : '*' ∈ pattern) :
    ∃ root rest, pattern = root ++ '-' :: '*' :: rest ∧ '*' ∉ root ∧ Derives root := by
  induction h with
  | first hletter hrest =>
      have hword := List.forall_mem_cons.mpr ⟨.inl hletter, hrest⟩
      exact ((not_mem_of_isLetterOrDigit hword).2 hstar).elim
  | @word pattern word hpattern hempty hword ih =>
      have hmem : '*' ∈ pattern := by
        simpa [(not_mem_of_isLetterOrDigit hword).2] using hstar
      obtain ⟨root, rest, hroot, hnot, hderives⟩ := ih hmem
      exact ⟨root, rest ++ '-' :: word, by simp [hroot], hnot, hderives⟩
  | @wildcard pattern hpattern ih =>
      by_cases hmem : '*' ∈ pattern
      · obtain ⟨root, rest, hroot, hnot, hderives⟩ := ih hmem
        exact ⟨root, rest ++ ['-', '*'], by simp [hroot], hnot, hderives⟩
      · exact ⟨pattern, [], rfl, hmem, hpattern⟩

end Pattern

namespace Definition

theorem hasDeclarations_iff (definition : Definition) :
    definition.hasDeclarations = true ↔
      definition.declarations ≠ [] ∨ ∃ rule ∈ definition.nested, rule.declarations ≠ [] := by
  simp [hasDeclarations]

theorem of_validate {definition : Definition} (h : definition.validate = .ok ()) :
    Pattern.isWellFormed definition.pattern.toList = true ∧ definition.hasDeclarations = true := by
  simp only [validate] at h
  split at h
  · cases h
  split at h
  · cases h
  split at h
  · cases h
  split at h
  · cases h
  rename_i hwellFormed hdeclarations
  exact ⟨by simpa using hwellFormed, by simpa using hdeclarations⟩

theorem validate_eq_ok_iff (definition : Definition) :
    definition.validate = .ok () ↔
      Pattern.isWellFormed definition.pattern.toList = true ∧
        definition.hasDeclarations = true := by
  constructor
  · exact of_validate
  · intro h
    have hempty := (Pattern.derives_of_isWellFormed h.1).ne_nil
    simp [validate, hempty, Pattern.not_isMixed_of_isWellFormed h.1, h.1, h.2]

theorem validate_eq_partialWildcard_iff (definition : Definition) :
    definition.validate = .error (.partialWildcard definition.pattern) ↔
      (Text.splitOn '-' definition.pattern.toList).any Pattern.isMixed = true := by
  constructor
  · intro h
    simp only [validate] at h
    split at h
    · cases h
    split at h
    · assumption
    split at h
    · cases h
    split at h <;> cases h
  · intro h
    have hempty : definition.pattern.toList.isEmpty = false := by
      cases hpattern : definition.pattern.toList with
      | nil =>
          rw [hpattern] at h
          exact absurd h (by decide)
      | cons c rest => rfl
    rw [validate, hempty, h]
    rfl

/-- The root of a pattern ends in front of the first dash that a wildcard follows. -/
theorem find?_cutsAt_root {root tail : List Char} (h : '*' ∉ root) :
    (Text.cutsAt '-' (root ++ '-' :: '*' :: tail)).find? (fun parts =>
      Text.startsWith ['*'] parts.2) = some (root, '*' :: tail) := by
  induction root with
  | nil => rfl
  | cons c root ih =>
      have hroot : '*' ∉ root := fun hmem => h (List.mem_cons_of_mem c hmem)
      have hlater : ((Text.cutsAt '-' (root ++ '-' :: '*' :: tail)).map fun parts =>
          (c :: parts.1, parts.2)).find? (fun parts => Text.startsWith ['*'] parts.2) =
            some (c :: root, '*' :: tail) := by
        rw [List.find?_map]
        exact congrArg (Option.map _) (ih hroot)
      simp only [List.cons_append, Text.cutsAt]
      split
      · rw [List.find?_cons_of_neg, hlater]
        rw [Text.startsWith_singleton_iff]
        cases root with
        | nil => simp
        | cons d root =>
            intro hhead
            exact hroot (Option.some.inj hhead ▸ List.mem_cons_self)
      · exact hlater

theorem root_eq {definition : Definition} {root rest : List Char}
    (hpattern : definition.pattern.toList = root ++ '-' :: '*' :: rest) (hroot : '*' ∉ root) :
    definition.root = String.ofList root := by
  rw [Definition.root, hpattern, find?_cutsAt_root hroot]

/-- Validation accepts the patterns of the grammar and no others, the root of a pattern with
wildcards is a pattern without them, and a segment that is more than a wildcard is reported
first. -/
theorem validate_accepts_grammar (definition : Definition) :
    (definition.validate = .ok () ↔
      Pattern.Derives definition.pattern.toList ∧
        (definition.declarations ≠ [] ∨ ∃ rule ∈ definition.nested, rule.declarations ≠ [])) ∧
    (Pattern.Derives definition.pattern.toList → definition.isWildcard = true →
      definition.root ≠ "" ∧ '*' ∉ definition.root.toList ∧
        Pattern.Derives definition.root.toList ∧
        ∃ rest, definition.pattern = definition.root ++ "-*" ++ rest) ∧
    (definition.validate = .error (.partialWildcard definition.pattern) ↔
      ∃ segment, Text.HasSegment '-' definition.pattern.toList segment ∧ '*' ∈ segment ∧
        segment ≠ ['*']) := by
  refine ⟨?_, ?_, ?_⟩
  · rw [validate_eq_ok_iff, Pattern.isWellFormed_iff, hasDeclarations_iff]
  · intro hderives hwildcard
    obtain ⟨root, rest, hpattern, hstar, hroot⟩ :=
      hderives.exists_root (List.contains_iff_mem.mp hwildcard)
    have hroot' : definition.root.toList = root := by
      rw [root_eq hpattern hstar, String.toList_ofList]
    refine ⟨?_, hroot' ▸ hstar, hroot' ▸ hroot, String.ofList rest, ?_⟩
    · intro hempty
      exact hroot.ne_nil (by rw [← hroot', hempty, String.toList_empty])
    · apply String.toList_inj.mp
      simp [hpattern, hroot']
  · rw [validate_eq_partialWildcard_iff, List.any_eq_true]
    simp [Text.mem_splitOn_iff, Pattern.isMixed, Pattern.isWildcard]

theorem validate_accepts_grammar_two_wildcards :
    Pattern.Derives "tab-2xl-*-b-*".toList ∧
      isWildcard ⟨"tab-2xl-*-b-*", [], []⟩ = true ∧
      '*' ∉ (root ⟨"tab-2xl-*-b-*", [], []⟩).toList ∧
      ∃ rest, "tab-2xl-*-b-*" = root ⟨"tab-2xl-*-b-*", [], []⟩ ++ "-*" ++ rest := by
  have hderives : Pattern.Derives "tab-2xl-*-b-*".toList :=
    Pattern.derives_of_isWellFormed (by decide)
  obtain ⟨-, hroot, -⟩ := validate_accepts_grammar ⟨"tab-2xl-*-b-*", [], []⟩
  obtain ⟨-, hstar, -, hpattern⟩ := hroot hderives (by decide)
  exact ⟨hderives, by decide, hstar, hpattern⟩

end Definition

end Utility

end AtomicCss
