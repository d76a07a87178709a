import AtomicCss.Css.Lexical
import AtomicCss.Theme.Source

/-!
Which characters of a text lie in comments. The lexical state tells it of each character, and quoted
text is no comment for it. Stripping comments does not look at quotes: it takes out the comments of
the text in which blanks stand for the quotes. These are other characters exactly when a `/*` stands
in quoted text.
-/

namespace AtomicCss.Css

def Mode.isQuoted : Mode → Bool
  | .quoted _ => true
  | _ => false

def Quoting.isOpen : Quoting → Bool
  | .outside => false
  | .inside quote => isQuote quote
  | .escaped quote => isQuote quote

theorem Quoting.step_of_isOpen {quoting : Quoting} (h : quoting.isOpen = true) (c : Char) :
    (quoting.step c).isOpen = true ∨ quoting.step c = .outside ∧ isQuote c = true := by
  cases quoting with
  | outside => cases h
  | inside quote =>
      simp only [step]
      split
      · exact .inl h
      · split
        · rename_i hquote
          exact .inr ⟨rfl, hquote ▸ h⟩
        · exact .inl h
  | escaped quote => exact .inl h

theorem ne_of_isQuote {c mark : Char} (hc : isQuote c = true) (hmark : isQuote mark = false) :
    c ≠ mark := by
  intro heq
  rw [heq, hmark] at hc
  cases hc

namespace Lexical

/-- Whether the character `c` in front of `next` belongs to a comment, the marks around the comment
included. -/
def inComment (state : Lexical) (c : Char) (next : Option Char) : Bool :=
  match state.mode with
  | .code => c == '/' && next == some '*'
  | .slash => c == '*' || c == '/' && next == some '*'
  | .comment => true
  | .star => true
  | .quoted _ => false

def marks : Lexical → List Char → List Bool
  | _, [] => []
  | state, c :: rest => state.inComment c rest.head? :: marks (state.step c) rest

theorem getElem?_marks (state : Lexical) (before : List Char) (c : Char) (rest : List Char) :
    (state.marks (before ++ c :: rest))[before.length]? =
      some ((state.run before).inComment c rest.head?) := by
  induction before generalizing state with
  | nil => rfl
  | cons first before ih => exact ih (state.step first)

end Lexical

def commentMarks (css : List Char) : List Bool :=
  Lexical.initial.marks css

def unmarked (marks : List Bool) (text : List Char) : List Char :=
  ((text.zip marks).filter fun entry => !entry.2).map Prod.fst

@[simp] theorem unmarked_nil (marks : List Bool) : unmarked marks [] = [] := rfl

@[simp] theorem unmarked_cons_true (marks : List Bool) (c : Char) (rest : List Char) :
    unmarked (true :: marks) (c :: rest) = unmarked marks rest := rfl

@[simp] theorem unmarked_cons_false (marks : List Bool) (c : Char) (rest : List Char) :
    unmarked (false :: marks) (c :: rest) = c :: unmarked marks rest := rfl

def blankQuote (c : Char) : Char :=
  if isQuote c then ' ' else c

def unquoted (text : List Char) : List Char :=
  text.map blankQuote

theorem blankQuote_eq_iff {c mark : Char} (hquote : isQuote mark = false) (hblank : mark ≠ ' ') :
    blankQuote c = mark ↔ c = mark := by
  rw [blankQuote]
  split
  · rename_i hc
    constructor
    · intro h
      exact (hblank h.symm).elim
    · intro h
      rw [h, hquote] at hc
      cases hc
  · rfl

theorem isQuote_blankQuote (c : Char) : isQuote (blankQuote c) = false := by
  rw [blankQuote]
  split
  · rfl
  · rename_i hc
    exact Bool.eq_false_iff.mpr hc

theorem blankQuote_eq_slash_iff (c : Char) : blankQuote c = '/' ↔ c = '/' :=
  blankQuote_eq_iff rfl (by decide)

theorem blankQuote_eq_star_iff (c : Char) : blankQuote c = '*' ↔ c = '*' :=
  blankQuote_eq_iff rfl (by decide)

/-- What a character that is no quote does to the mode. -/
def Mode.pass : Mode → Char → Mode
  | .code, c => if c = '/' then .slash else .code
  | .slash, c => if c = '*' then .comment else if c = '/' then .slash else .code
  | .comment, c => if c = '*' then .star else .comment
  | .star, c => if c = '/' then .code else if c = '*' then .star else .comment
  | .quoted quoting, _ => .quoted quoting

/-- The mode of a reader outside or inside a comment. -/
def Mode.settled : (inside : Bool) → Mode
  | false => .code
  | true => .comment

/-- The mode of such a reader when it has read the first character of the mark that it waits for. -/
def Mode.halfway : (inside : Bool) → Mode
  | false => .slash
  | true => .star

def markStart : (inside : Bool) → Char
  | false => '/'
  | true => '*'

theorem Mode.pass_blankQuote (mode : Mode) (c : Char) :
    mode.pass (blankQuote c) = mode.pass c := by
  cases mode <;> simp only [pass, blankQuote_eq_slash_iff, blankQuote_eq_star_iff]

theorem Mode.isQuoted_pass (mode : Mode) (c : Char) : (mode.pass c).isQuoted = mode.isQuoted := by
  cases mode with
  | quoted quoting => rfl
  | _ =>
      simp only [pass]
      repeat' split
      all_goals rfl

namespace Lexical

variable {state blind : Lexical} {c : Char} {rest text : List Char}

theorem mode_stepCode (hquote : isQuote c = false) (depth : Nat) :
    (stepCode depth c).mode = if c = '/' then .slash else .code := by
  simp only [stepCode, hquote]
  split
  · rfl
  · split
    · contradiction
    · split
      · rfl
      · split <;> rfl

theorem mode_step (hstate : state.mode.isQuoted = false) (hquote : isQuote c = false) :
    (state.step c).mode = state.mode.pass c := by
  obtain ⟨depth, mode⟩ := state
  cases mode with
  | code => exact mode_stepCode hquote depth
  | slash =>
      simp only [step, Mode.pass]
      split
      · rfl
      · exact mode_stepCode hquote depth
  | comment =>
      simp only [step, Mode.pass]
      split <;> rfl
  | star =>
      simp only [step, Mode.pass]
      split
      · rfl
      · split <;> rfl
  | quoted quoting => cases hstate

theorem mode_step_blankQuote (hstate : state.mode.isQuoted = false) (c : Char) :
    (state.step (blankQuote c)).mode = state.mode.pass c := by
  rw [mode_step hstate (isQuote_blankQuote c), Mode.pass_blankQuote]

theorem inComment_blankQuote (state : Lexical) (c : Char) (next : Option Char) :
    state.inComment (blankQuote c) (next.map blankQuote) = state.inComment c next := by
  have hslash : (blankQuote c == '/') = (c == '/') := by
    rw [Bool.eq_iff_iff, beq_iff_eq, beq_iff_eq, blankQuote_eq_slash_iff]
  have hstar : (blankQuote c == '*') = (c == '*') := by
    rw [Bool.eq_iff_iff, beq_iff_eq, beq_iff_eq, blankQuote_eq_star_iff]
  have hnext : (next.map blankQuote == some '*') = (next == some '*') := by
    rw [Bool.eq_iff_iff, beq_iff_eq, beq_iff_eq]
    cases next with
    | none => rfl
    | some next => simp [blankQuote_eq_star_iff]
  rw [inComment, inComment, hslash, hstar, hnext]

theorem marks_unquoted_cons (state : Lexical) (c : Char) (rest : List Char) :
    state.marks (unquoted (c :: rest)) =
      state.inComment c rest.head? :: (state.step (blankQuote c)).marks (unquoted rest) := by
  rw [← inComment_blankQuote, ← List.head?_map]
  rfl

/-- A reader outside or inside a comment, in front of `next`, that does not look at quotes. Half a
mark may be read, but `next` does not complete it. -/
def Reads (state : Lexical) (inside : Bool) (next : Option Char) : Prop :=
  state.mode = .settled inside ∨ state.mode = .halfway inside ∧ next ≠ some (markStart !inside)

theorem Reads.isQuoted {inside : Bool} {next : Option Char} (h : state.Reads inside next) :
    state.mode.isQuoted = false := by
  rcases h with hmode | ⟨hmode, -⟩ <;> rw [hmode] <;> cases inside <;> rfl

theorem Reads.inComment {inside : Bool} (h : state.Reads inside (some c)) (next : Option Char) :
    state.inComment c next = (inside || c == '/' && next == some '*') := by
  rcases h with hmode | ⟨hmode, hnext⟩
  · cases inside <;> rw [Lexical.inComment, hmode] <;> rfl
  · cases inside with
    | false =>
        have hstar : (c == '*') = false := beq_false_of_ne fun hstar => hnext (congrArg some hstar)
        rw [Lexical.inComment, hmode]
        simp only [Mode.halfway, hstar]
    | true =>
        rw [Lexical.inComment, hmode]
        rfl

theorem Reads.mode_step {inside : Bool} (h : state.Reads inside (some c)) :
    (state.step (blankQuote c)).mode =
      if c = markStart inside then .halfway inside else .settled inside := by
  rw [mode_step_blankQuote h.isQuoted]
  rcases h with hmode | ⟨hmode, hnext⟩
  · rw [hmode]
    cases inside <;> rfl
  · have hmark : c ≠ markStart !inside := fun heq => hnext (congrArg some heq)
    rw [hmode]
    cases inside <;> exact if_neg hmark

theorem Reads.step {inside : Bool} (h : state.Reads inside (some c))
    (hmark : c = markStart inside → rest.head? ≠ some (markStart !inside)) :
    (state.step (blankQuote c)).Reads inside rest.head? := by
  rw [Reads, h.mode_step]
  by_cases hc : c = markStart inside
  · exact .inr ⟨if_pos hc, hmark hc⟩
  · exact .inl (if_neg hc)

theorem unmarked_of_inComment (h : state.inComment c rest.head? = true) :
    unmarked (state.marks (unquoted (c :: rest))) (c :: rest) =
      unmarked ((state.step (blankQuote c)).marks (unquoted rest)) rest := by
  rw [marks_unquoted_cons, h, unmarked_cons_true]

theorem unmarked_of_not_inComment (h : state.inComment c rest.head? = false) :
    unmarked (state.marks (unquoted (c :: rest))) (c :: rest) =
      c :: unmarked ((state.step (blankQuote c)).marks (unquoted rest)) rest := by
  rw [marks_unquoted_cons, h, unmarked_cons_false]

/-- A whole mark belongs to the comment and turns the reader around. -/
theorem Reads.exists_turned {inside : Bool} (h : state.Reads inside (some (markStart inside)))
    (rest : List Char) :
    ∃ turned : Lexical, turned.mode = .settled (!inside) ∧
      unmarked (state.marks (unquoted (markStart inside :: markStart (!inside) :: rest)))
          (markStart inside :: markStart (!inside) :: rest) =
        unmarked (turned.marks (unquoted rest)) rest := by
  have hhalf : (state.step (blankQuote (markStart inside))).mode = .halfway inside := by
    rw [h.mode_step, if_pos rfl]
  have hquoted : (state.step (blankQuote (markStart inside))).mode.isQuoted = false := by
    rw [hhalf]
    cases inside <;> rfl
  refine ⟨_, ?_, (unmarked_of_inComment ?_).trans (unmarked_of_inComment ?_)⟩
  · rw [mode_step_blankQuote hquoted, hhalf]
    cases inside <;> rfl
  · rw [h.inComment]
    cases inside <;> rfl
  · rw [Lexical.inComment, hhalf]
    cases inside <;> rfl

/-- What is left of a text are the characters outside the comments of its unquoted form. -/
theorem dropComments_eq_unmarked {inside : Bool} (h : state.Reads inside text.head?) :
    dropComments inside text = unmarked (state.marks (unquoted text)) text := by
  fun_induction dropComments inside text generalizing state with
  | case1 rest ih =>
      obtain ⟨turned, hmode, hrest⟩ := h.exists_turned rest
      exact (ih (.inl hmode)).trans hrest.symm
  | case2 c rest hopens ih =>
      have hmark : c = '/' → rest.head? ≠ some '*' := by
        intro hslash hstar
        obtain ⟨later, rfl⟩ := List.head?_eq_some_iff.mp hstar
        exact hopens later hslash rfl
      have hkept : state.inComment c rest.head? = false := by
        rw [h.inComment, Bool.false_or, Bool.and_eq_false_iff, beq_eq_false_iff_ne,
          beq_eq_false_iff_ne]
        exact Decidable.not_or_of_imp hmark
      rw [unmarked_of_not_inComment hkept, ih (h.step hmark)]
  | case3 rest ih =>
      obtain ⟨turned, hmode, hrest⟩ := h.exists_turned rest
      exact (ih (.inl hmode)).trans hrest.symm
  | case4 c rest hcloses ih =>
      have hmark : c = '*' → rest.head? ≠ some '/' := by
        intro hstar hslash
        obtain ⟨later, rfl⟩ := List.head?_eq_some_iff.mp hslash
        exact hcloses later hstar rfl
      rw [unmarked_of_inComment (h.inComment _), ih (h.step hmark)]
  | case5 => rfl

/-- No comment mark opens in quoted text. -/
def AvoidsQuotes (state : Lexical) (text : List Char) : Prop :=
  ∀ before after, text = before ++ '/' :: '*' :: after → (state.run before).mode.isQuoted = false

theorem AvoidsQuotes.tail (h : state.AvoidsQuotes (c :: rest)) :
    (state.step c).AvoidsQuotes rest := by
  intro before after htext
  exact h (c :: before) after (congrArg (List.cons c) htext)

theorem AvoidsQuotes.head?_ne (h : state.AvoidsQuotes ('/' :: rest))
    (hquoted : state.mode.isQuoted = true) : rest.head? ≠ some '*' := by
  intro hstar
  obtain ⟨later, rfl⟩ := List.head?_eq_some_iff.mp hstar
  have houtside := h [] later rfl
  rw [run, List.foldl_nil, hquoted] at houtside
  cases houtside

/-- Two readers of one text, of which the second does not look at quotes. -/
inductive Alike (state blind : Lexical) (next : Option Char) : Prop
  | same (hmode : blind.mode = state.mode) (hquoted : state.mode.isQuoted = false)
  | quoted (quoting : Quoting) (hmode : state.mode = .quoted quoting)
      (hopen : quoting.isOpen = true) (hblind : blind.Reads false next)

theorem Alike.inComment (h : Alike state blind (some c))
    (havoids : state.AvoidsQuotes (c :: rest)) :
    blind.inComment c rest.head? = state.inComment c rest.head? := by
  cases h with
  | same hmode => rw [Lexical.inComment, hmode, Lexical.inComment]
  | quoted quoting hmode hopen hblind =>
      have hstate : state.inComment c rest.head? = false := by
        rw [Lexical.inComment, hmode]
      rw [hblind.inComment, hstate, Bool.false_or, Bool.and_eq_false_iff, beq_eq_false_iff_ne,
        beq_eq_false_iff_ne]
      apply Decidable.not_or_of_imp
      intro hslash
      exact (hslash ▸ havoids).head?_ne (by rw [hmode]; rfl)

theorem Alike.step_quote (h : blind.mode = state.mode) (hstate : state.mode.isQuoted = false)
    (hquote : isQuote c = true) (next : Option Char) :
    Alike (state.step c) (blind.step (blankQuote c)) next := by
  have hslash : c ≠ '/' := ne_of_isQuote hquote rfl
  have hstar : c ≠ '*' := ne_of_isQuote hquote rfl
  have hblind := mode_step_blankQuote (h ▸ hstate) c
  rw [h] at hblind
  have hopens (depth : Nat) : stepCode depth c = ⟨depth, .quoted (.inside c)⟩ := by
    rw [stepCode, if_neg hslash, if_pos hquote]
  obtain ⟨depth, mode⟩ := state
  -- In a comment a quote is text to both readers; elsewhere it is a quote to the first one only.
  cases mode with
  | code =>
      refine .quoted (.inside c) ?_ hquote (.inl ?_)
      · exact congrArg Lexical.mode (hopens depth)
      · exact hblind.trans (if_neg hslash)
  | slash =>
      refine .quoted (.inside c) ?_ hquote (.inl ?_)
      · rw [Lexical.step, if_neg hstar, hopens]
      · exact hblind.trans ((if_neg hstar).trans (if_neg hslash))
  | comment =>
      have hstep : Lexical.step ⟨depth, .comment⟩ c = ⟨depth, .comment⟩ := if_neg hstar
      refine .same ?_ ?_
      · rw [hblind, hstep, Mode.pass, if_neg hstar]
      · rw [hstep]
        rfl
  | star =>
      have hstep : Lexical.step ⟨depth, .star⟩ c = ⟨depth, .comment⟩ := by
        simp [Lexical.step, hslash, hstar]
      refine .same ?_ ?_
      · rw [hblind, hstep, Mode.pass, if_neg hslash, if_neg hstar]
      · rw [hstep]
        rfl
  | quoted quoting => cases hstate

theorem mode_step_of_isOpen {quoting : Quoting} (hmode : state.mode = .quoted quoting)
    (hopen : (quoting.step c).isOpen = true) :
    (state.step c).mode = .quoted (quoting.step c) := by
  simp only [Lexical.step, hmode]
  cases hquoting : quoting.step c with
  | outside =>
      rw [hquoting] at hopen
      cases hopen
  | _ => rfl

theorem Alike.step (h : Alike state blind (some c)) (havoids : state.AvoidsQuotes (c :: rest)) :
    Alike (state.step c) (blind.step (blankQuote c)) rest.head? := by
  cases h with
  | same hmode hquoted =>
      cases hquote : isQuote c with
      | true => exact step_quote hmode hquoted hquote _
      | false =>
          refine .same ?_ ?_
          · rw [mode_step_blankQuote (hmode ▸ hquoted), mode_step hquoted hquote, hmode]
          · rw [mode_step hquoted hquote, Mode.isQuoted_pass, hquoted]
  | quoted quoting hmode hopen hblind =>
      have hmark : c = '/' → rest.head? ≠ some '*' := by
        intro hslash
        exact (hslash ▸ havoids).head?_ne (by rw [hmode]; rfl)
      rcases Quoting.step_of_isOpen hopen c with hopen | ⟨hcloses, hquote⟩
      · exact .quoted (quoting.step c) (mode_step_of_isOpen hmode hopen) hopen (hblind.step hmark)
      · have hcode : (state.step c).mode = .code := by
          simp [Lexical.step, hmode, hcloses]
        have hslash : c ≠ markStart false := ne_of_isQuote hquote rfl
        refine .same ?_ ?_
        · rw [hcode, hblind.mode_step, if_neg hslash]
          rfl
        · rw [hcode]
          rfl

theorem Alike.marks (h : Alike state blind text.head?) (havoids : state.AvoidsQuotes text) :
    blind.marks (unquoted text) = state.marks text := by
  induction text generalizing state blind with
  | nil => rfl
  | cons c rest ih =>
      rw [marks_unquoted_cons, Lexical.marks, h.inComment havoids, ih (h.step havoids) havoids.tail]

theorem isQuoted_run_unquoted (h : state.mode.isQuoted = false) (text : List Char) :
    (state.run (unquoted text)).mode.isQuoted = false := by
  induction text generalizing state with
  | nil => exact h
  | cons c rest ih =>
      apply ih
      rw [mode_step_blankQuote h, Mode.isQuoted_pass, h]

theorem inComment_slash (h : state.mode.isQuoted = false) :
    state.inComment '/' (some '*') = true := by
  rw [inComment]
  cases hmode : state.mode with
  | quoted quoting =>
      rw [hmode] at h
      cases h
  | _ => rfl

theorem avoidsQuotes_of_marks_eq (h : initial.marks (unquoted text) = initial.marks text) :
    initial.AvoidsQuotes text := by
  intro before after htext
  subst htext
  -- The second reader is never in quotes, so that to it the `/` is part of a comment in any mode.
  have hblind := @isQuoted_run_unquoted initial rfl before
  have hunquoted : unquoted (before ++ '/' :: '*' :: after) =
      unquoted before ++ '/' :: '*' :: unquoted after :=
    List.map_append
  have hlength : (unquoted before).length = before.length := List.length_map _
  have hmark := getElem?_marks initial (unquoted before) '/' ('*' :: unquoted after)
  rw [← hunquoted, h, hlength, getElem?_marks, List.head?_cons, List.head?_cons,
    inComment_slash hblind, Option.some.injEq] at hmark
  cases hmode : (initial.run before).mode with
  | quoted quoting =>
      rw [inComment, hmode] at hmark
      cases hmark
  | _ => rfl

end Lexical

/-- Stripping comments takes out what lies in comments of the text with blanks for its quotes. This
is what lies in comments of the text itself, except for a text with a `/*` in quotes. -/
theorem stripComments_agrees_with_lexer_iff (css : List Char) :
    stripComments css = unmarked (commentMarks (unquoted css)) css ∧
      (commentMarks (unquoted css) = commentMarks css ↔
        ∀ before after, css = before ++ '/' :: '*' :: after →
          (Lexical.initial.run before).mode.isQuoted = false) := by
  refine ⟨Lexical.dropComments_eq_unmarked (.inl rfl), ?_, ?_⟩
  · exact Lexical.avoidsQuotes_of_marks_eq
  · intro havoids
    exact (Lexical.Alike.same rfl rfl).marks havoids

/-- No character of this source lies in a comment, but stripping comments takes `/*` for the start
of one that is not closed, so that nothing of the source is read. -/
theorem quoted_mark_opens_comment :
    let css := "@theme \x7b --glob: \"src/*.css\"; \x7d .card \x7b @apply flex; \x7d"
    unmarked (commentMarks css.toList) css.toList = css.toList ∧
      stripComments css.toList = "@theme \x7b --glob: \"src".toList ∧
      ThemeSource.parse css = ThemeSource.empty := by
  decide +kernel

end AtomicCss.Css
