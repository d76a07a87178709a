import AtomicCss.Dictionary
import AtomicCss.Extract.Basic

/-!
What is found in a file stands in it. Each reader hands on stretches of the text it was given, so
nothing is put together from parts that do not touch, whatever is left open at the end.
-/

namespace AtomicCss.Extract

def AllWithin (text : List Char) (parts : List (List Char)) : Prop :=
  ∀ part ∈ parts, part <:+: text

section AllWithin

variable {text inner part : List Char} {parts others : List (List Char)}

@[simp] theorem allWithin_nil : AllWithin text [] :=
  fun _ hpart => (List.not_mem_nil hpart).elim

@[simp] theorem allWithin_cons :
    AllWithin text (part :: parts) ↔ part <:+: text ∧ AllWithin text parts :=
  List.forall_mem_cons

@[simp] theorem allWithin_append :
    AllWithin text (parts ++ others) ↔ AllWithin text parts ∧ AllWithin text others :=
  List.forall_mem_append

theorem AllWithin.mono (h : AllWithin inner parts) (hinner : inner <:+: text) :
    AllWithin text parts :=
  fun part hpart => (h part hpart).trans hinner

theorem AllWithin.cons (h : AllWithin text parts) (c : Char) : AllWithin (c :: text) parts :=
  h.mono (List.suffix_cons c text).isInfix

end AllWithin

/-- The stretch that the scan of a template begins with is the first of the text. Everything else
that is found stands somewhere in it. -/
theorem scanLiterals_parts (inTemplate : Bool) (text : List Char) :
    (scanLiterals inTemplate text).1 <+: text ∧
      AllWithin text (scanLiterals inTemplate text).2 := by
  fun_induction scanLiterals inTemplate text with
  | case1 => exact ⟨List.prefix_rfl, allWithin_nil⟩
  | case2 c rest _ quoted ih =>
      obtain ⟨hquoted, hafter⟩ := readQuoted_parts c rest
      refine ⟨List.nil_prefix, AllWithin.cons (allWithin_cons.mpr ⟨hquoted.isInfix, ?_⟩) c⟩
      exact ih.2.mono hafter.isInfix
  | case3 rest template _ ih =>
      exact ⟨List.nil_prefix, AllWithin.cons (allWithin_cons.mpr ⟨ih.1.isInfix, ih.2⟩) _⟩
  | case4 c rest _ _ ih => exact ⟨List.nil_prefix, ih.2.cons c⟩
  | case5 => exact ⟨List.nil_prefix, allWithin_nil⟩
  | case6 next rest later ih =>
      refine ⟨?_, (ih.2.cons next).cons _⟩
      exact List.cons_prefix_cons.mpr ⟨rfl, List.cons_prefix_cons.mpr ⟨rfl, ih.1⟩⟩
  | case7 rest hole later ihlater ihhole =>
      obtain ⟨hhole, hafter⟩ := braceSpan_parts 0 rest
      have hlater : AllWithin hole.2 (later.1 :: later.2) :=
        allWithin_cons.mpr ⟨ihlater.1.isInfix, ihlater.2⟩
      have hwithin : AllWithin rest ((scanLiterals false hole.1).2 ++ later.1 :: later.2) :=
        allWithin_append.mpr ⟨ihhole.2.mono hhole.isInfix, hlater.mono hafter.isInfix⟩
      exact ⟨List.nil_prefix, (hwithin.cons _).cons _⟩
  | case8 rest _ _ ih => exact ⟨List.nil_prefix, ih.2.cons _⟩
  | case9 c rest _ _ _ later ih =>
      exact ⟨List.cons_prefix_cons.mpr ⟨rfl, ih.1⟩, ih.2.cons c⟩

theorem allWithin_literals (text : List Char) : AllWithin text (literals text) :=
  (scanLiterals_parts false text).2

theorem allWithin_attributeTexts (text : List Char) : AllWithin text (attributeTexts text) := by
  have htrim : Text.trimStart text <:+ text := List.dropWhile_suffix Text.isBlank
  rw [attributeTexts]
  split
  · exact allWithin_nil
  · rename_i c rest heq
    rw [heq] at htrim
    refine AllWithin.mono ?_ htrim.isInfix
    split
    · have hquoted := (readQuoted_parts c rest).1.isInfix
      exact AllWithin.cons (allWithin_cons.mpr ⟨hquoted, allWithin_nil⟩) c
    split
    · exact ((allWithin_literals _).mono (braceSpan_parts 0 rest).1.isInfix).cons c
    · exact allWithin_cons.mpr ⟨(List.takeWhile_prefix _).isInfix, allWithin_nil⟩

theorem allWithin_textsAt (name : List Char) (previous : Option Char) (text : List Char) :
    AllWithin text (textsAt name previous text) := by
  rw [textsAt]
  split
  · exact allWithin_nil
  rename_i after hafter
  have hsuffix : after <:+ text :=
    (Text.eq_append_of_after? hafter).symm ▸ List.suffix_append name after
  split
  · split
    · rename_i rest hrest
      have htrim : '=' :: rest <:+ after := hrest ▸ List.dropWhile_suffix Text.isBlank
      exact ((allWithin_attributeTexts rest).cons '=').mono (htrim.trans hsuffix).isInfix
    · exact allWithin_nil
  · exact allWithin_nil

theorem allWithin_attributeValues (name : List Char) (previous : Option Char)
    (text : List Char) : AllWithin text (attributeValues name previous text) := by
  induction text generalizing previous with
  | nil => exact allWithin_nil
  | cons c rest ih =>
      rw [attributeValues]
      exact allWithin_append.mpr ⟨allWithin_textsAt name previous _, (ih (some c)).cons c⟩

/-- The texts in which classes are looked for. -/
theorem allWithin_sources (isMarkup : Bool) (text : List Char) :
    AllWithin text (allAttributeValues text ++ if isMarkup then [] else literals text) := by
  refine allWithin_append.mpr ⟨?_, ?_⟩
  · intro value hvalue
    obtain ⟨name, -, hvalue⟩ := List.mem_flatMap.mp hvalue
    exact allWithin_attributeValues name.toList none text value hvalue
  · split
    · exact allWithin_nil
    · exact allWithin_literals text

theorem mem_classesIn {extension : Option String} {text word : String} :
    word ∈ classesIn extension text ↔
      isCandidate word.toList = true ∧
        ∃ source ∈ allAttributeValues text.toList ++
            if extension.any markupExtensions.contains then [] else literals text.toList,
          word.toList ∈ splitClasses (Text.trim source) := by
  simp only [classesIn, List.mem_eraseDups, List.mem_map, List.mem_filter, List.mem_flatMap]
  constructor
  · rintro ⟨chars, ⟨hsource, hcandidate⟩, rfl⟩
    rw [String.toList_ofList]
    exact ⟨hcandidate, hsource⟩
  · rintro ⟨hcandidate, hsource⟩
    exact ⟨word.toList, ⟨hsource, hcandidate⟩, String.ofList_toList⟩

theorem infix_of_mem_splitClasses {text word : List Char} (h : word ∈ splitClasses text) :
    word <:+: text :=
  Text.infix_of_mem_pieces (List.mem_filter.mp h).1

/-- The classes found in a text are candidates, each of which stands in the text and is listed
once. -/
theorem found_classes_stand_in_text (extension : Option String) (text : String) :
    (classesIn extension text).Nodup ∧
      ∀ word ∈ classesIn extension text, isCandidate word.toList = true ∧
        ∃ before after, before ++ word ++ after = text := by
  refine ⟨nodup_eraseDups _, ?_⟩
  intro word hword
  obtain ⟨hcandidate, source, hsource, hmem⟩ := mem_classesIn.mp hword
  have hpart : word.toList <:+: Text.trim source := infix_of_mem_splitClasses hmem
  have htrimmed : word.toList <:+: source := hpart.trans (Text.trim_infix source)
  obtain ⟨before, after, htext⟩ := htrimmed.trans (allWithin_sources _ _ source hsource)
  refine ⟨hcandidate, String.ofList before, String.ofList after, ?_⟩
  apply String.toList_injective
  simpa using htext

end AtomicCss.Extract
