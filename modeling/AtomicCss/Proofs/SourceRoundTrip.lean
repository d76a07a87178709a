import AtomicCss.Proofs.Construction
import AtomicCss.Proofs.SourceText

/-!
Theme sources as text. A source is written as one `@theme` block, one rule for each component and
one `@utility` block for each definition, and reading the text gives back the source.
-/

namespace AtomicCss

theorem Dictionary.eq_of_entries {Value : Type} {first second : Dictionary Value}
    (h : first.entries = second.entries) : first = second := by
  cases first
  cases second
  cases h
  rfl

namespace ThemeSource

open Css

theorem filterMap_prepend_blank {c : Char} (hc : Text.isBlank c = true)
    (statements : List Statement) :
    (Statement.prepend [c] statements).filterMap applyOf? = statements.filterMap applyOf? := by
  cases statements with
  | nil => rfl
  | cons statement rest =>
      cases statement with
      | plain text => rfl
      | block header body =>
          have hfirst : applyOf? (.block ([c] ++ header) body) = applyOf? (.block header body) := by
            rw [applyOf?, List.singleton_append, Text.trim_cons_of_isBlank hc]
            rfl
          rw [Statement.prepend, List.filterMap_cons, List.filterMap_cons, hfirst]

/-- Of blocks on lines of their own, each is read by itself. -/
theorem filterMap_statements_lines {blocks : List Block}
    (h : ∀ block ∈ blocks, IsInline block.header ∧ Delimiter.braces.Balanced block.body) :
    (statements false (blocks.flatMap Block.line)).filterMap applyOf? =
      blocks.filterMap fun block => applyOf? (.block block.header block.body) := by
  induction blocks with
  | nil => rw [List.flatMap_nil, statements]; rfl
  | cons block blocks ih =>
      obtain ⟨⟨hheader, hbody⟩, hblocks⟩ := List.forall_mem_cons.mp h
      have hbreak (rest : List Char) :
          statements false ('\n' :: rest) = Statement.prepend ['\n'] (statements false rest) :=
        statements_cons (by decide) (.inl rfl)
      rw [List.flatMap_cons, Block.line, List.append_assoc, List.singleton_append,
        statements_block hheader hbody, hbreak, List.filterMap_cons, List.filterMap_cons,
        filterMap_prepend_blank rfl, ih hblocks]

theorem applyOf?_behind {keyword : List Char} (hkeyword : keyword.head? = some '@')
    (block : Block) :
    applyOf? (.block (block.behind keyword).header (block.behind keyword).body) = none := by
  obtain ⟨rest, rfl⟩ := List.head?_eq_some_iff.mp hkeyword
  have htrim : Text.trim ('@' :: (rest ++ block.header)) =
      '@' :: Text.trimEnd (rest ++ block.header) :=
    @Text.trimEnd_append ['@'] '@' rfl (by decide) (rest ++ block.header)
  rw [Block.behind, applyOf?, List.cons_append, htrim]
  simp [Text.startsWith]

def variableBlock (source : ThemeSource) : Block :=
  ⟨[' '], declarationsText source.customProperties ++ [' ']⟩

def blocks (source : ThemeSource) : List Block :=
  source.variableBlock.behind "@theme".toList :: (source.applies.entries.map applyBlock ++
    (source.utilities.map Utility.Definition.block).map (Block.behind "@utility".toList))

def print (source : ThemeSource) : String :=
  String.ofList (source.blocks.flatMap Block.line)

/-- A source all of whose texts are plain. -/
@[mk_iff]
structure IsPlain (source : ThemeSource) : Prop where
  customProperties : ∀ entry ∈ source.customProperties, IsVariable entry
  applies : ∀ entry ∈ source.applies.entries, IsApply entry
  utilities : ∀ definition ∈ source.utilities, definition.IsPlain

instance (source : ThemeSource) : Decidable source.IsPlain :=
  decidable_of_iff _ (isPlain_iff source).symm

theorem isBare_theme : IsBare "@theme".toList :=
  ⟨by simp [isQuote], by decide, by decide, by decide⟩

theorem isBare_utility : IsBare "@utility".toList :=
  ⟨by simp [isQuote], by decide, by decide, by decide⟩

theorem IsApply.tidy {needle : String} (hneedle : needle ∈ reservedTexts)
    {entry : String × List String} (h : IsApply entry) :
    (applyBlock entry).IsTidy needle.toList where
  header := h.selector.tidy_append hneedle rfl .nil
  body := h.classes.tidy hneedle

namespace IsPlain

variable {source : ThemeSource} {needle : String}

theorem tidy_variableBlock (hneedle : needle ∈ reservedTexts)
    (hapart : ¬needle.toList <:+: "@theme".toList) (h : source.IsPlain) :
    (source.variableBlock.behind "@theme".toList).IsTidy needle.toList where
  header := .stretch isBare_theme hapart rfl .nil
  body := by
    refine Tidy.append ?_ (.stop (isNeedle_of_mem hneedle) rfl .nil)
    exact tidy_declarationsText hneedle fun entry hentry =>
      (h.customProperties entry hentry).toIsDeclaration

theorem tidy_applies (hneedle : needle ∈ reservedTexts) (h : source.IsPlain) :
    ∀ block ∈ source.applies.entries.map applyBlock, block.IsTidy needle.toList := by
  intro block hblock
  obtain ⟨entry, hentry, rfl⟩ := List.mem_map.mp hblock
  exact (h.applies entry hentry).tidy hneedle

theorem tidy_utilities (hneedle : needle ∈ reservedTexts)
    (hapart : ¬needle.toList <:+: "@utility".toList) (h : source.IsPlain) :
    ∀ block ∈ (source.utilities.map Utility.Definition.block).map
      (Block.behind "@utility".toList), block.IsTidy needle.toList := by
  rw [List.map_map]
  intro block hblock
  obtain ⟨definition, hdefinition, rfl⟩ := List.mem_map.mp hblock
  have hplain := h.utilities definition hdefinition
  constructor
  · refine .stretch isBare_utility hapart rfl ?_
    exact hplain.pattern.tidy_append hneedle rfl .nil
  · exact (hplain.tidy hneedle).body

theorem tidy_blocks (h : source.IsPlain) : ∀ block ∈ source.blocks, block.IsTidy ['/', '*'] := by
  have hcomment : "/*" ∈ reservedTexts := by decide
  rw [blocks, List.forall_mem_cons, List.forall_mem_append]
  exact ⟨h.tidy_variableBlock hcomment (by decide), h.tidy_applies hcomment,
    h.tidy_utilities hcomment (by decide)⟩

theorem isInline_blocks (h : source.IsPlain) : ∀ block ∈ source.blocks, IsInline block.header := by
  have htheme : IsInline "@theme".toList := isInline_of_all (by decide)
  rw [blocks, List.forall_mem_cons, List.forall_mem_append]
  refine ⟨htheme.append isInline_blank, ?_, ?_⟩
  · intro block hblock
    obtain ⟨entry, hentry, rfl⟩ := List.mem_map.mp hblock
    exact (h.applies entry hentry).selector.isInline.append isInline_blank
  · rw [List.map_map]
    intro block hblock
    obtain ⟨definition, hdefinition, rfl⟩ := List.mem_map.mp hblock
    have hpattern := (h.utilities definition hdefinition).pattern.isInline
    have hkeyword : IsInline "@utility".toList := isInline_of_all (by decide)
    exact hkeyword.append (isInline_blank.append (hpattern.append isInline_blank))

theorem filterMap_applyOf? (h : source.IsPlain) :
    (source.blocks.filterMap fun block => applyOf? (.block block.header block.body)) =
      source.applies.entries := by
  have htheme := @applyOf?_behind "@theme".toList (by decide)
  have hutility := @applyOf?_behind "@utility".toList (by decide)
  have happly : ∀ entry ∈ source.applies.entries,
      applyOf? (.block (applyBlock entry).header (applyBlock entry).body) = some entry :=
    fun entry hentry => applyOf?_applyBlock (h.applies entry hentry)
  rw [blocks, List.filterMap_cons, List.filterMap_append, List.filterMap_map, List.filterMap_map]
  simp only [Function.comp_def, htheme, hutility, filterMap_eq_self happly, List.filterMap_none,
    List.append_nil]

theorem appliesOf (h : source.IsPlain) :
    appliesOf (source.blocks.flatMap Block.line) = source.applies := by
  have hblocks : ∀ block ∈ source.blocks,
      IsInline block.header ∧ Delimiter.braces.Balanced block.body := fun block hblock =>
    ⟨h.isInline_blocks block hblock, (h.tidy_blocks block hblock).body.balanced⟩
  apply Dictionary.eq_of_entries
  rw [ThemeSource.appliesOf, filterMap_statements_lines hblocks, h.filterMap_applyOf?,
    Dictionary.entries_foldl_insertLast, Dictionary.lastEntries_eq_self source.applies.distinct]
  rfl

theorem blocks_theme (h : source.IsPlain) :
    Css.blocks "@theme".toList (source.blocks.flatMap Block.line) = [source.variableBlock] := by
  have htheme : "@theme" ∈ reservedTexts := by decide
  have hcomment : "/*" ∈ reservedTexts := by decide
  have hafter := Block.tidy_lines (isNeedle_of_mem htheme)
    (List.forall_mem_append.mpr ⟨h.tidy_applies htheme, h.tidy_utilities htheme (by decide)⟩)
  have hblocks : ∀ block ∈ [source.variableBlock], block.IsWritten "@theme".toList := by
    rw [List.forall_mem_singleton]
    have hbrace : '{' ∉ [' '] := by decide
    exact ⟨hbrace, h.tidy_variableBlock hcomment (by decide)⟩
  have hfound := Block.blocks_lines (isNeedle_of_mem htheme) .nil hafter hblocks
  rwa [List.nil_append, List.map_singleton, List.flatMap_singleton, ← List.flatMap_cons] at hfound

theorem blocks_utility (h : source.IsPlain) :
    Css.blocks "@utility".toList (source.blocks.flatMap Block.line) =
      source.utilities.map Utility.Definition.block := by
  have hutility : "@utility" ∈ reservedTexts := by decide
  have hcomment : "/*" ∈ reservedTexts := by decide
  have hbefore := Block.tidy_lines (isNeedle_of_mem hutility) (List.forall_mem_cons.mpr
    ⟨h.tidy_variableBlock hutility (by decide), h.tidy_applies hutility⟩)
  have hblocks : ∀ block ∈ source.utilities.map Utility.Definition.block,
      block.IsWritten "@utility".toList := by
    intro block hblock
    refine ⟨?_, h.tidy_utilities hcomment (by decide) _ (List.mem_map_of_mem hblock)⟩
    obtain ⟨definition, hdefinition, rfl⟩ := List.mem_map.mp hblock
    have hpattern := (h.utilities definition hdefinition).pattern.bare.opening
    simpa [Utility.Definition.block] using hpattern
  have hfound := Block.blocks_lines (isNeedle_of_mem hutility) hbefore .nil hblocks
  rwa [List.append_nil, ← List.flatMap_append, List.cons_append] at hfound

end IsPlain

/-- Reading what was written gives back the source: its tokens, the classes of its components and
its definitions, each in their order. -/
theorem parse_print {source : ThemeSource} (h : source.IsPlain) : parse source.print = source := by
  have hcomment : stripComments source.print.toList = source.blocks.flatMap Block.line := by
    rw [print, String.toList_ofList]
    exact stripComments_eq_self ((Block.tidy_lines .comment h.tidy_blocks).avoids .comment)
  have hvariables := variablesOf_declarationsText h.customProperties
  have hutilities : (source.utilities.map Utility.Definition.block).map
      Utility.Definition.ofBlock = source.utilities := by
    rw [List.map_map]
    refine Eq.trans (List.map_congr_left fun definition hdefinition => ?_) (List.map_id _)
    exact (h.utilities definition hdefinition).ofBlock
  rw [parse, hcomment]
  simp only [h.blocks_theme, h.appliesOf, Utility.definitions, h.blocks_utility, hutilities,
    List.flatMap_singleton]
  rw [variableBlock, hvariables]

/-- A token that is defined twice, brackets of both kinds, and a rule inside a definition. -/
def buttonSource : ThemeSource where
  customProperties := [("--brand", "rgb(1 2 3)"), ("--brand", "(a) [b]")]
  applies := ⟨[(".btn", ["px-4", "bg-[url(a:b)]"]), ("a[href]", ["p-2"])], by decide⟩
  utilities :=
    [⟨"tab-*", [("tab-size", "--value(integer)")], [⟨"&:hover", [("width", "calc((1px) * 3)")]⟩]⟩]

theorem parse_print_button :
    buttonSource.IsPlain ∧
      buttonSource.print =
        "@theme \x7b --brand: rgb(1 2 3); --brand: (a) [b]; \x7d\n" ++
        ".btn \x7b @apply px-4 bg-[url(a:b)]; \x7d\n" ++
        "a[href] \x7b @apply p-2; \x7d\n" ++
        "@utility tab-* \x7b tab-size: --value(integer);" ++
        " &:hover \x7b width: calc((1px) * 3); \x7d \x7d\n" ∧
      parse buttonSource.print = buttonSource := by
  have hplain : buttonSource.IsPlain := by decide +kernel
  exact ⟨hplain, by decide +kernel, parse_print hplain⟩

end ThemeSource

end AtomicCss
