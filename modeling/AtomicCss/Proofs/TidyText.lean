import AtomicCss.ClassName.Bracket
import AtomicCss.Css.Comment
import AtomicCss.Css.Lexical
import AtomicCss.Css.Statement
import AtomicCss.Proofs.Renaming

/-!
What the readers of CSS text make of tidy text: blocks that are closed, and stretches between them
without quotes and comments. The brace matcher, the search for blocks at top level and the reader of
statements each pass over such a text as a whole.
-/

namespace AtomicCss

namespace Text

variable {needle before after text : List Char} {c : Char}

theorem not_infix_append_cons (hc : c ∉ needle) (hbefore : ¬needle <:+: before)
    (hafter : ¬needle <:+: after) : ¬needle <:+: before ++ c :: after := by
  induction before with
  | nil =>
      rw [List.nil_append, List.infix_cons_iff]
      rintro (hlead | hlater)
      · have hempty : needle <+: [] := isPrefix_of_not_mem hc hlead
        exact hbefore hempty.isInfix
      · exact hafter hlater
  | cons d before ih =>
      rw [List.cons_append, List.infix_cons_iff]
      rintro (hlead | hlater)
      · have hwhole : needle <+: d :: before := isPrefix_of_not_mem hc hlead
        exact hbefore hwhole.isInfix
      · exact ih (fun h => hbefore (h.trans (List.suffix_cons d before).isInfix)) hlater

theorem cut?_append (h : c ∉ before) (after : List Char) :
    cut? c (before ++ c :: after) = some (before, after) := by
  induction before with
  | nil => simp [cut?]
  | cons d before ih =>
      obtain ⟨hd, hbefore⟩ := List.ne_and_not_mem_of_not_mem_cons h
      rw [List.cons_append, cut?, if_neg (Ne.symm hd), ih hbefore]
      rfl

end Text

namespace Css

namespace Delimiter

/-- Delimiters that differ from each other and from the quotes. -/
structure IsProper (delimiter : Delimiter) : Prop where
  opening : isQuote delimiter.opening = false
  closing : isQuote delimiter.closing = false
  apart : delimiter.closing ≠ delimiter.opening

/-- Text without quotes in which each delimiter has its partner. -/
inductive Balanced (delimiter : Delimiter) : List Char → Prop
  | nil : Balanced delimiter []
  | cons {c : Char} {rest : List Char} (hquote : isQuote c = false)
      (hopening : c ≠ delimiter.opening) (hclosing : c ≠ delimiter.closing)
      (hrest : Balanced delimiter rest) : Balanced delimiter (c :: rest)
  | nest {inner rest : List Char} (hinner : Balanced delimiter inner)
      (hrest : Balanced delimiter rest) :
      Balanced delimiter (delimiter.opening :: (inner ++ delimiter.closing :: rest))

variable {delimiter : Delimiter} {inner text : List Char}

theorem Balanced.append (h : delimiter.Balanced inner) (htext : delimiter.Balanced text) :
    delimiter.Balanced (inner ++ text) := by
  induction h with
  | nil => exact htext
  | cons hquote hopening hclosing hrest ih => exact .cons hquote hopening hclosing ih
  | nest hinner hrest _ ih =>
      rw [List.cons_append, List.append_assoc, List.cons_append]
      exact .nest hinner ih

theorem balanced_of_not_mem (hquote : ∀ c ∈ text, isQuote c = false)
    (hopening : delimiter.opening ∉ text) (hclosing : delimiter.closing ∉ text) :
    delimiter.Balanced text := by
  induction text with
  | nil => exact .nil
  | cons c rest ih =>
      obtain ⟨hc, hrest⟩ := List.forall_mem_cons.mp hquote
      obtain ⟨hopens, hopening⟩ := List.ne_and_not_mem_of_not_mem_cons hopening
      obtain ⟨hcloses, hclosing⟩ := List.ne_and_not_mem_of_not_mem_cons hclosing
      exact .cons hc hopens.symm hcloses.symm (ih hrest hopening hclosing)

/-- Text that closes more delimiters than it opens falls apart at the first that is too many. -/
theorem exists_balanced {depth : Nat} (hquote : ∀ c ∈ text, isQuote c = false)
    (h : ClassName.isBalanced delimiter.opening delimiter.closing (depth + 1) text = true) :
    ∃ inner rest, text = inner ++ delimiter.closing :: rest ∧ delimiter.Balanced inner ∧
      ClassName.isBalanced delimiter.opening delimiter.closing depth rest = true := by
  induction hlength : text.length using Nat.strongRecOn generalizing depth text with
  | ind length ih =>
      cases text with
      | nil => simp [ClassName.isBalanced] at h
      | cons c rest =>
          obtain ⟨hc, hrest⟩ := List.forall_mem_cons.mp hquote
          rw [List.length_cons] at hlength
          rw [ClassName.isBalanced] at h
          split at h
          -- what follows an opening delimiter is taken apart twice: at its partner and at the next
          · rename_i hopens
            obtain ⟨inner, later, rfl, hinner, hlater⟩ := ih rest.length (by omega) hrest h rfl
            have hquoteLater : ∀ d ∈ later, isQuote d = false := fun d hd =>
              hrest d (List.mem_append_right _ (List.mem_cons_of_mem _ hd))
            obtain ⟨next, last, rfl, hnext, hlast⟩ :=
              ih later.length (by simp at hlength; omega) hquoteLater hlater rfl
            refine ⟨c :: (inner ++ delimiter.closing :: next), last, by simp, ?_, hlast⟩
            rw [hopens]
            exact .nest hinner hnext
          · split at h
            · rename_i hcloses
              exact ⟨[], rest, by rw [hcloses]; rfl, .nil, h⟩
            · rename_i hopens hcloses
              obtain ⟨inner, later, rfl, hinner, hlater⟩ := ih rest.length (by omega) hrest h rfl
              exact ⟨c :: inner, later, rfl, .cons hc hopens hcloses hinner, hlater⟩

theorem balanced_of_isBalanced (hquote : ∀ c ∈ text, isQuote c = false)
    (h : ClassName.isBalanced delimiter.opening delimiter.closing 0 text = true) :
    delimiter.Balanced text := by
  induction hlength : text.length using Nat.strongRecOn generalizing text with
  | ind length ih =>
      cases text with
      | nil => exact .nil
      | cons c rest =>
          obtain ⟨hc, hrest⟩ := List.forall_mem_cons.mp hquote
          rw [List.length_cons] at hlength
          rw [ClassName.isBalanced] at h
          split at h
          · rename_i hopens
            obtain ⟨inner, later, rfl, hinner, hlater⟩ := exists_balanced hrest h
            have hquoteLater : ∀ d ∈ later, isQuote d = false := fun d hd =>
              hrest d (List.mem_append_right _ (List.mem_cons_of_mem _ hd))
            rw [hopens]
            exact .nest hinner (ih later.length (by simp at hlength; omega) hquoteLater hlater rfl)
          · split at h
            · cases h
            · rename_i hopens hcloses
              exact .cons hc hopens hcloses (ih rest.length (by omega) hrest h rfl)

theorem spanFrom_append (hproper : delimiter.IsProper) (h : delimiter.Balanced inner)
    (depth : Nat) (rest : List Char) :
    delimiter.spanFrom depth .outside (inner ++ rest) =
      (delimiter.spanFrom depth .outside rest).map fun parts => (inner ++ parts.1, parts.2) := by
  induction h generalizing depth rest with
  | nil => simp
  | cons hquote hopening hclosing hrest ih =>
      simp [spanFrom, Quoting.step, hquote, hopening, hclosing, ih, Function.comp_def]
  | nest hinner hrest ihinner ihrest =>
      simp [spanFrom, Quoting.step, hproper.opening, hproper.closing, hproper.apart, ihinner,
        ihrest, Function.comp_def]

theorem span?_append (hproper : delimiter.IsProper) (h : delimiter.Balanced inner)
    (rest : List Char) :
    delimiter.span? (inner ++ delimiter.closing :: rest) = some (inner, rest) := by
  rw [span?, spanFrom_append hproper h]
  simp [spanFrom, hproper.closing, hproper.apart]

theorem span?_braces (h : braces.Balanced inner) (rest : List Char) :
    braces.span? (inner ++ '}' :: rest) = some (inner, rest) :=
  span?_append ⟨rfl, rfl, by decide⟩ h rest

theorem span?_parens (h : parens.Balanced inner) (rest : List Char) :
    parens.span? (inner ++ ')' :: rest) = some (inner, rest) :=
  span?_append ⟨rfl, rfl, by decide⟩ h rest

end Delimiter

theorem stripComments_eq_self {text : List Char} (h : ¬['/', '*'] <:+: text) :
    stripComments text = text := by
  rw [stripComments]
  induction text with
  | nil => rfl
  | cons c rest ih =>
      have hrest := ih fun hfound => h (hfound.trans (List.suffix_cons c rest).isInfix)
      unfold dropComments
      split
      · rename_i heq
        cases heq
        exact (h ⟨[], _, rfl⟩).elim
      · rename_i heq
        cases heq
        rw [hrest]
      · rename_i heq _
        cases heq
      · rename_i heq _
        cases heq
      · rename_i heq
        cases heq

/-- A stretch of text without quotes, braces and comments. -/
structure IsBare (text : List Char) : Prop where
  quote : ∀ c ∈ text, isQuote c = false
  opening : '{' ∉ text
  closing : '}' ∉ text
  comment : ¬['/', '*'] <:+: text

def isStop (c : Char) : Bool :=
  c == ' ' || c == '\n' || c == ':' || c == ';'

theorem eq_of_isStop {c : Char} (h : isStop c = true) :
    c = ' ' ∨ c = '\n' ∨ c = ':' ∨ c = ';' := by
  simpa [isStop, or_assoc] using h

/-- A text to look for in which neither a brace nor the end of a stretch occurs. -/
structure IsNeedle (needle : List Char) : Prop where
  nonempty : needle ≠ []
  stop : needle.any isStop = false
  opening : '{' ∉ needle
  closing : '}' ∉ needle

namespace IsNeedle

variable {needle : List Char}

theorem not_mem {c : Char} (h : IsNeedle needle) (hstop : isStop c = true) : c ∉ needle :=
  fun hmem => List.any_eq_false.mp h.stop c hmem hstop

theorem not_infix_nil (h : IsNeedle needle) : ¬needle <:+: [] :=
  fun hfound => h.nonempty (List.infix_nil.mp hfound)

theorem comment : IsNeedle ['/', '*'] :=
  ⟨by decide, by decide, by decide, by decide⟩

end IsNeedle

/-- Closed blocks, and bare stretches between them in which `needle` does not occur. -/
inductive Tidy (needle : List Char) : List Char → Prop
  | nil : Tidy needle []
  | stretch {text rest : List Char} {c : Char} (hbare : IsBare text)
      (hneedle : ¬needle <:+: text) (hstop : isStop c = true) (hrest : Tidy needle rest) :
      Tidy needle (text ++ c :: rest)
  | block {body rest : List Char} (hbody : Tidy needle body) (hrest : Tidy needle rest) :
      Tidy needle ('{' :: (body ++ '}' :: rest))

namespace Lexical

variable {text : List Char} {mode : Mode}

theorem run_append (state : Lexical) (first second : List Char) :
    state.run (first ++ second) = (state.run first).run second :=
  List.foldl_append

theorem run_cons (state : Lexical) (c : Char) (rest : List Char) :
    state.run (c :: rest) = (state.step c).run rest :=
  rfl

theorem stepCode_eq {c : Char} (hquote : isQuote c = false) (hopening : c ≠ '{')
    (hclosing : c ≠ '}') (depth : Nat) :
    stepCode depth c = ⟨depth, if c = '/' then .slash else .code⟩ := by
  unfold stepCode
  split
  · rfl
  · rw [hquote]
    rfl

/-- After a bare stretch the reader is in code, or it has just seen a slash. -/
theorem exists_run (hbare : IsBare text)
    (hmode : mode = .code ∨ mode = .slash ∧ text.head? ≠ some '*') (depth : Nat) :
    ∃ last, run ⟨depth, mode⟩ text = ⟨depth, last⟩ ∧ (last = .code ∨ last = .slash) := by
  induction text generalizing mode with
  | nil => exact ⟨mode, rfl, hmode.imp_right And.left⟩
  | cons c rest ih =>
      obtain ⟨hc, hquote⟩ := List.forall_mem_cons.mp hbare.quote
      obtain ⟨hopens, hopening⟩ := List.ne_and_not_mem_of_not_mem_cons hbare.opening
      obtain ⟨hcloses, hclosing⟩ := List.ne_and_not_mem_of_not_mem_cons hbare.closing
      have hrest : IsBare rest := ⟨hquote, hopening, hclosing, fun hfound =>
        hbare.comment (hfound.trans (List.suffix_cons c rest).isInfix)⟩
      have hstep : step ⟨depth, mode⟩ c = ⟨depth, if c = '/' then .slash else .code⟩ := by
        rw [← stepCode_eq hc hopens.symm hcloses.symm]
        rcases hmode with rfl | ⟨rfl, hhead⟩
        · rfl
        · exact if_neg fun hstar => hhead (congrArg some hstar)
      rw [run_cons, hstep]
      apply ih hrest
      by_cases hslash : c = '/'
      · refine .inr ⟨if_pos hslash, fun hhead => hbare.comment ?_⟩
        obtain ⟨later, rfl⟩ := List.head?_eq_some_iff.mp hhead
        exact ⟨[], later, by rw [hslash]; rfl⟩
      · exact .inl (if_neg hslash)

theorem step_stop {c : Char} (hmode : mode = .code ∨ mode = .slash) (hstop : isStop c = true)
    (depth : Nat) : step ⟨depth, mode⟩ c = ⟨depth, .code⟩ := by
  rcases hmode with rfl | rfl <;> rcases eq_of_isStop hstop with rfl | rfl | rfl | rfl <;> rfl

end Lexical

section Blocks

variable {keyword css text rest header body : List Char} {index : Nat} {c : Char}

theorem blocksFrom_cons (h : ¬keyword <+: c :: rest) :
    blocksFrom keyword css index (c :: rest) = blocksFrom keyword css (index + 1) rest := by
  rw [blocksFrom]
  split
  · rfl
  · rename_i hkeyword
    rw [Text.after?_eq_none h] at hkeyword
    cases hkeyword

theorem blocksFrom_append_cons (hc : c ∉ keyword) (h : ¬keyword <:+: text) :
    blocksFrom keyword css index (text ++ c :: rest) =
      blocksFrom keyword css (index + (text.length + 1)) rest := by
  induction text generalizing index with
  | nil =>
      refine blocksFrom_cons fun hlead => h ?_
      have hempty : keyword <+: [] := Text.isPrefix_of_not_mem hc hlead
      exact hempty.isInfix
  | cons d text ih =>
      have hlead : ¬keyword <+: d :: (text ++ c :: rest) := fun hlead => by
        have hwhole : keyword <+: d :: text := Text.isPrefix_of_not_mem hc hlead
        exact h hwhole.isInfix
      rw [List.cons_append, blocksFrom_cons hlead,
        ih fun hfound => h (hfound.trans (List.suffix_cons d text).isInfix), List.length_cons]
      congr 1
      omega

theorem blocksFrom_block (hkeyword : keyword ≠ []) (htop : isTopLevel css index = true)
    (hheader : '{' ∉ header)
    (hspan : Delimiter.braces.span? (body ++ '}' :: rest) = some (body, rest)) :
    blocksFrom keyword css index (keyword ++ (header ++ '{' :: (body ++ '}' :: rest))) =
      ⟨header, body⟩ :: blocksFrom keyword css (css.length - rest.length) rest := by
  have hcut := Text.cut?_append hheader (body ++ '}' :: rest)
  have hafter := Text.after?_append keyword (header ++ '{' :: (body ++ '}' :: rest))
  obtain ⟨c, keyword, rfl⟩ := List.exists_cons_of_ne_nil hkeyword
  rw [List.cons_append] at hafter ⊢
  rw [blocksFrom]
  split
  · rename_i hnone
    rw [hafter] at hnone
    cases hnone
  · rename_i tail hsome
    rw [hafter] at hsome
    cases hsome
    rw [if_pos htop]
    split
    · rename_i hnone
      rw [hcut] at hnone
      cases hnone
    · rename_i hsome
      rw [hcut] at hsome
      cases hsome
      split
      · rename_i hnone
        rw [hspan] at hnone
        cases hnone
      · rename_i hsome
        rw [hspan] at hsome
        cases hsome
        rfl

end Blocks

namespace Tidy

variable {needle text rest css : List Char}

theorem stop {c : Char} (hneedle : IsNeedle needle) (hstop : isStop c = true)
    (hrest : Tidy needle rest) : Tidy needle (c :: rest) := by
  have hbare : IsBare [] := ⟨by simp, by simp, by simp, by simp⟩
  exact .stretch hbare hneedle.not_infix_nil hstop hrest

theorem append (h : Tidy needle text) (hrest : Tidy needle rest) : Tidy needle (text ++ rest) := by
  induction h with
  | nil => exact hrest
  | stretch hbare hneedle hstop _ ih =>
      rw [List.append_assoc]
      exact .stretch hbare hneedle hstop ih
  | block hbody _ _ ih =>
      rw [List.cons_append, List.append_assoc]
      exact .block hbody ih

theorem flatMap {Item : Type} {items : List Item} {write : Item → List Char}
    (h : ∀ item ∈ items, Tidy needle (write item)) : Tidy needle (items.flatMap write) := by
  induction items with
  | nil => exact .nil
  | cons item items ih =>
      obtain ⟨hitem, hitems⟩ := List.forall_mem_cons.mp h
      exact hitem.append (ih hitems)

theorem balanced (h : Tidy needle text) : Delimiter.braces.Balanced text := by
  induction h with
  | nil => exact .nil
  | stretch hbare _ hstop _ ih =>
      apply Delimiter.Balanced.append
      · exact Delimiter.balanced_of_not_mem hbare.quote hbare.opening hbare.closing
      · rcases eq_of_isStop hstop with rfl | rfl | rfl | rfl <;>
          exact .cons rfl (by decide) (by decide) ih
  | block _ _ ihbody ihrest => exact .nest ihbody ihrest

theorem avoids (hneedle : IsNeedle needle) (h : Tidy needle text) : ¬needle <:+: text := by
  induction h with
  | nil => exact hneedle.not_infix_nil
  | stretch _ hstretch hstop _ ih =>
      exact Text.not_infix_append_cons (hneedle.not_mem hstop) hstretch ih
  | block _ _ ihbody ihrest =>
      rw [← List.nil_append ('{' :: _)]
      apply Text.not_infix_append_cons hneedle.opening hneedle.not_infix_nil
      exact Text.not_infix_append_cons hneedle.closing ihbody ihrest

/-- Tidy text leaves the reader where it was. -/
theorem run (h : Tidy needle text) (depth : Nat) :
    Lexical.run ⟨depth, .code⟩ text = ⟨depth, .code⟩ := by
  induction h generalizing depth with
  | nil => rfl
  | stretch hbare _ hstop _ ih =>
      obtain ⟨mode, hrun, hmode⟩ := Lexical.exists_run hbare (.inl rfl) depth
      rw [Lexical.run_append, hrun, Lexical.run_cons, Lexical.step_stop hmode hstop, ih]
  | block _ _ ihbody ihrest =>
      have hopens : Lexical.step ⟨depth, .code⟩ '{' = ⟨depth + 1, .code⟩ := rfl
      have hcloses : Lexical.step ⟨depth + 1, .code⟩ '}' = ⟨depth, .code⟩ := rfl
      rw [Lexical.run_cons, hopens, Lexical.run_append, ihbody, Lexical.run_cons, hcloses, ihrest]

theorem blocksFrom_append (hneedle : IsNeedle needle) (h : Tidy needle text) (index : Nat) :
    blocksFrom needle css index (text ++ rest) =
      blocksFrom needle css (index + text.length) rest := by
  induction h generalizing index rest with
  | nil => rfl
  | stretch _ hstretch hstop _ ih =>
      rw [List.append_assoc, List.cons_append,
        blocksFrom_append_cons (hneedle.not_mem hstop) hstretch, ih]
      congr 1
      simp only [List.length_append, List.length_cons]
      omega
  | @block body later _ _ ihbody ihrest =>
      have hopens := @blocksFrom_append_cons needle css [] (body ++ '}' :: (later ++ rest)) index
        '{' hneedle.opening hneedle.not_infix_nil
      have hcloses := @blocksFrom_append_cons needle css [] (later ++ rest)
        (index + 1 + body.length) '}' hneedle.closing hneedle.not_infix_nil
      simp only [List.nil_append, List.length_nil] at hopens hcloses
      rw [List.cons_append, List.append_assoc, List.cons_append, hopens, ihbody, hcloses, ihrest]
      congr 1
      simp only [List.length_append, List.length_cons]
      omega

end Tidy

theorem isTopLevel_append {before : List Char} (h : Lexical.initial.run before = .initial)
    (rest : List Char) : isTopLevel (before ++ rest) before.length = true := by
  rw [isTopLevel, List.take_left, h]
  rfl

namespace Block

def write (block : Block) : List Char :=
  block.header ++ '{' :: (block.body ++ ['}'])

def line (block : Block) : List Char :=
  block.write ++ ['\n']

def behind (keyword : List Char) (block : Block) : Block :=
  ⟨keyword ++ block.header, block.body⟩

structure IsTidy (needle : List Char) (block : Block) : Prop where
  header : Tidy needle block.header
  body : Tidy needle block.body

variable {keyword css : List Char} {blocks : List Block}

theorem IsTidy.write {needle : List Char} {block : Block} (h : block.IsTidy needle) :
    Tidy needle block.write :=
  h.header.append (.block h.body .nil)

theorem IsTidy.line {needle : List Char} {block : Block} (hneedle : IsNeedle needle)
    (h : block.IsTidy needle) : Tidy needle block.line :=
  h.write.append (.stop hneedle rfl .nil)

theorem line_append (block : Block) (rest : List Char) :
    block.line ++ rest = block.header ++ '{' :: (block.body ++ '}' :: '\n' :: rest) := by
  simp [line, write]

theorem line_behind (keyword : List Char) (block : Block) :
    (block.behind keyword).line = keyword ++ block.line := by
  simp [line, write, behind]

theorem length_line (block : Block) :
    block.line.length = block.header.length + block.body.length + 3 := by
  simp only [line, write, List.length_append, List.length_cons, List.length_nil]
  omega

/-- Tidy behind its keyword, with a header that ends at the brace of the block. -/
structure IsWritten (keyword : List Char) (block : Block) : Prop where
  brace : '{' ∉ block.header
  tidy : (block.behind keyword).IsTidy ['/', '*']

theorem blocksFrom_lines (hkeyword : IsNeedle keyword) {before after : List Char}
    (hbefore : Lexical.initial.run before = .initial) (hafter : Tidy keyword after)
    (hblocks : ∀ block ∈ blocks, block.IsWritten keyword)
    (hcss : css = before ++ ((blocks.map (behind keyword)).flatMap line ++ after)) :
    blocksFrom keyword css before.length ((blocks.map (behind keyword)).flatMap line ++ after) =
      blocks := by
  induction blocks generalizing before with
  | nil =>
      have hskip := @Tidy.blocksFrom_append keyword after [] css hkeyword hafter before.length
      rw [List.append_nil, blocksFrom] at hskip
      exact hskip
  | cons block blocks ih =>
      obtain ⟨⟨hbrace, htidy⟩, hrest⟩ := List.forall_mem_cons.mp hblocks
      have hrun : Lexical.initial.run (before ++ (block.behind keyword).line) = .initial := by
        rw [Lexical.run_append, hbefore]
        exact (htidy.line .comment).run 0
      have hbody : Delimiter.braces.Balanced block.body := htidy.body.balanced
      have hbreak : Tidy keyword ['\n'] := .stop hkeyword rfl .nil
      have hskip (index : Nat) (later : List Char) : blocksFrom keyword css index ('\n' :: later) =
          blocksFrom keyword css (index + 1) later :=
        hbreak.blocksFrom_append hkeyword index
      rw [List.map_cons, List.flatMap_cons, List.append_assoc] at hcss ⊢
      have htop : isTopLevel css before.length = true := hcss ▸ isTopLevel_append hbefore _
      have hindex : css.length -
          ('\n' :: ((blocks.map (behind keyword)).flatMap line ++ after)).length + 1 =
            (before ++ (block.behind keyword).line).length := by
        rw [hcss]
        simp only [List.length_append, List.length_cons, length_line]
        omega
      rw [line_behind, List.append_assoc, line_append,
        blocksFrom_block hkeyword.nonempty htop hbrace (Delimiter.span?_braces hbody _), hskip,
        hindex, ih hrun hrest (by rw [hcss, List.append_assoc])]

/-- Among tidy text, the search finds the blocks that are written there. -/
theorem blocks_lines (hkeyword : IsNeedle keyword) {before after : List Char}
    (hbefore : Tidy keyword before) (hafter : Tidy keyword after)
    (hblocks : ∀ block ∈ blocks, block.IsWritten keyword) :
    Css.blocks keyword (before ++ ((blocks.map (behind keyword)).flatMap line ++ after)) =
      blocks := by
  rw [Css.blocks, hbefore.blocksFrom_append hkeyword, Nat.zero_add]
  exact blocksFrom_lines hkeyword (hbefore.run 0) hafter hblocks rfl

theorem tidy_lines {needle : List Char} (hneedle : IsNeedle needle)
    (h : ∀ block ∈ blocks, block.IsTidy needle) : Tidy needle (blocks.flatMap line) :=
  Tidy.flatMap fun block hblock => (h block hblock).line hneedle

end Block

namespace Statement

theorem prepend_prepend (first second : List Char) (statements : List Statement) :
    prepend first (prepend second statements) = prepend (first ++ second) statements := by
  cases statements with
  | nil => rfl
  | cons statement rest => cases statement <;> simp [prepend]

theorem prepend_ne_nil (text : List Char) (statements : List Statement) :
    prepend text statements ≠ [] := by
  cases statements with
  | nil => exact List.cons_ne_nil _ _
  | cons statement rest => cases statement <;> exact List.cons_ne_nil _ _

theorem prepend_nil {statements : List Statement} (h : statements ≠ []) :
    prepend [] statements = statements := by
  cases statements with
  | nil => exact (h rfl).elim
  | cons statement rest => cases statement <;> rfl

end Statement

section Statements

variable {skipSpans : Bool} {text rest : List Char} {c : Char}

theorem statements_ne_nil (skipSpans : Bool) (text : List Char) :
    statements skipSpans text ≠ [] := by
  cases text with
  | nil => simp [statements]
  | cons c rest =>
      rw [statements]
      repeat' split
      all_goals simp [Statement.prepend_ne_nil]

theorem statements_cons (hend : c ≠ ';' ∧ c ≠ '{')
    (hspan : skipSpans = false ∨ c ≠ '(' ∧ isQuote c = false) :
    statements skipSpans (c :: rest) = Statement.prepend [c] (statements skipSpans rest) := by
  rw [statements, if_neg hend.1, if_neg hend.2, if_neg, if_neg]
  · rcases hspan with rfl | ⟨-, hquote⟩
    · simp
    · simp [hquote]
  · rcases hspan with rfl | ⟨hparen, -⟩
    · simp
    · simp [hparen]

theorem statements_parens {inner : List Char} (hinner : Delimiter.parens.Balanced inner) :
    statements true ('(' :: (inner ++ ')' :: rest)) =
      Statement.prepend ('(' :: inner ++ [')']) (statements true rest) := by
  have hspan := Delimiter.span?_parens hinner rest
  rw [statements, if_neg (by decide), if_neg (by decide), if_pos (by decide)]
  split
  · rename_i hsome
    rw [hspan] at hsome
    cases hsome
    rfl
  · rename_i hnone
    rw [hspan] at hnone
    cases hnone

structure IsInline (text : List Char) : Prop where
  parens : Delimiter.parens.Balanced text
  ends : ∀ c ∈ text, c ≠ ';' ∧ c ≠ '{'

theorem IsInline.append {first second : List Char} (hfirst : IsInline first)
    (hsecond : IsInline second) : IsInline (first ++ second) :=
  ⟨hfirst.parens.append hsecond.parens, List.forall_mem_append.mpr ⟨hfirst.ends, hsecond.ends⟩⟩

/-- Characters that neither end a statement nor open a span in it. -/
def isOrdinary (c : Char) : Bool :=
  !(c == ';' || c == '{' || c == '(' || c == ')' || isQuote c)

theorem isInline_of_all (h : text.all isOrdinary = true) : IsInline text := by
  have hchars : ∀ c ∈ text, c ≠ ';' ∧ c ≠ '{' ∧ c ≠ '(' ∧ c ≠ ')' ∧ isQuote c = false := by
    intro c hc
    simpa [isOrdinary, and_assoc] using List.all_eq_true.mp h c hc
  constructor
  · apply Delimiter.balanced_of_not_mem
    · exact fun c hc => (hchars c hc).2.2.2.2
    · exact fun hc => (hchars _ hc).2.2.1 rfl
    · exact fun hc => (hchars _ hc).2.2.2.1 rfl
  · exact fun c hc => ⟨(hchars c hc).1, (hchars c hc).2.1⟩

theorem statements_append (h : IsInline text) (skipSpans : Bool) (rest : List Char) :
    statements skipSpans (text ++ rest) = Statement.prepend text (statements skipSpans rest) := by
  obtain ⟨hparens, hends⟩ := h
  induction hparens generalizing rest with
  | nil => exact (Statement.prepend_nil (statements_ne_nil skipSpans rest)).symm
  | cons hquote hopening _ _ ih =>
      obtain ⟨hend, hends⟩ := List.forall_mem_cons.mp hends
      rw [List.cons_append, statements_cons hend (.inr ⟨hopening, hquote⟩), ih rest hends,
        Statement.prepend_prepend]
      rfl
  | nest hinner _ ihinner ihlater =>
      obtain ⟨hopens, hends⟩ := List.forall_mem_cons.mp hends
      obtain ⟨hinnerEnds, hends⟩ := List.forall_mem_append.mp hends
      obtain ⟨hcloses, hlaterEnds⟩ := List.forall_mem_cons.mp hends
      rw [List.cons_append, List.append_assoc, List.cons_append]
      cases skipSpans with
      | true =>
          refine (statements_parens hinner).trans ?_
          rw [ihlater rest hlaterEnds, Statement.prepend_prepend]
          simp [Delimiter.parens]
      | false =>
          rw [statements_cons hopens (.inl rfl), ihinner _ hinnerEnds,
            statements_cons hcloses (.inl rfl), ihlater rest hlaterEnds]
          simp [Statement.prepend_prepend]

theorem statements_semicolon (h : IsInline text) (skipSpans : Bool) (rest : List Char) :
    statements skipSpans (text ++ ';' :: rest) = .plain text :: statements skipSpans rest := by
  rw [statements_append h, statements, if_pos rfl, Statement.prepend, List.append_nil]

theorem statements_block {block : Block} (hheader : IsInline block.header)
    (hbody : Delimiter.braces.Balanced block.body) (skipSpans : Bool) (rest : List Char) :
    statements skipSpans (block.write ++ rest) =
      .block block.header block.body :: statements skipSpans rest := by
  have hspan := Delimiter.span?_braces hbody rest
  rw [Block.write, List.append_assoc, List.cons_append, List.append_assoc, List.singleton_append,
    statements_append hheader, statements, if_neg (by decide), if_pos rfl]
  split
  · rename_i hsome
    rw [hspan] at hsome
    cases hsome
    rw [Statement.prepend, List.append_nil]
  · rename_i hnone
    rw [hspan] at hnone
    cases hnone

theorem statements_blocks {blocks : List Block}
    (h : ∀ block ∈ blocks, IsInline block.header ∧ Delimiter.braces.Balanced block.body)
    (skipSpans : Bool) (rest : List Char) :
    statements skipSpans (blocks.flatMap Block.write ++ rest) =
      blocks.map (fun block => .block block.header block.body) ++ statements skipSpans rest := by
  induction blocks with
  | nil => rfl
  | cons block blocks ih =>
      obtain ⟨⟨hheader, hbody⟩, hblocks⟩ := List.forall_mem_cons.mp h
      rw [List.flatMap_cons, List.append_assoc, statements_block hheader hbody, ih hblocks]
      rfl

end Statements

end Css

end AtomicCss
