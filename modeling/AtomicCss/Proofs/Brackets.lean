import AtomicCss.ClassName.Bracket
import AtomicCss.ClassName.Segment
import AtomicCss.Extract.ClassList
import AtomicCss.Proofs.Nesting
import Mathlib.Data.List.Chain

/-!
The brackets of class names. The check on words, the cut into segments and the cut at commas each
look for brackets in their own way. Where no backslash hides a bracket or a quote, and the quotes of
the variants hold no bracket, all of them find the same ones: in a word that passes the check each
variant closes its own brackets, by their kinds.
-/

namespace AtomicCss

namespace Css.Quoting

def quote? : Quoting → Option Char
  | .outside => none
  | .inside quote => some quote
  | .escaped quote => some quote

def isBare : Quoting → List Char → Bool
  | _, [] => true
  | quoting, c :: rest =>
      (quoting == .outside || !(Nesting.opens c || Nesting.closes c)) &&
        isBare (quoting.step c) rest

/-- The quoting is one that a text which ends with `previous` can lead to. -/
structure Fits (quoting : Quoting) (previous : Option Char) : Prop where
  isQuote : ∀ quote ∈ quoting.quote?, Css.isQuote quote = true
  escaped : ∀ quote, quoting = .escaped quote → previous = some '\\'

theorem fits_outside (previous : Option Char) : outside.Fits previous :=
  ⟨nofun, nofun⟩

theorem Fits.step {quoting : Quoting} {previous : Option Char} (h : quoting.Fits previous)
    (c : Char) : (quoting.step c).Fits (some c) := by
  obtain ⟨hquote, -⟩ := h
  cases quoting with
  | outside =>
      rw [Quoting.step]
      split
      · rename_i hc
        exact ⟨fun quote hmem => Option.some.inj hmem ▸ hc, nofun⟩
      · exact fits_outside _
  | inside quote =>
      rw [Quoting.step]
      split
      · rename_i hc
        exact ⟨hquote, fun _ _ => congrArg some hc⟩
      split
      · exact fits_outside _
      · exact ⟨hquote, nofun⟩
  | escaped quote => exact ⟨hquote, nofun⟩

/-- A quote ends at the next such quote, since none is hidden. -/
theorem Fits.quote?_step {quoting : Quoting} {previous : Option Char} {quote c : Char}
    (h : quoting.Fits previous) (hopen : quoting.quote? = some quote)
    (hshown : previous = some '\\' → Nesting.isMark c = false) :
    (quoting.step c).quote? = if c = quote then none else some quote := by
  have hquote := h.isQuote quote hopen
  cases quoting with
  | outside => cases hopen
  | inside other =>
      cases hopen
      rw [Quoting.step]
      split
      · rename_i hc
        rw [if_neg]
        · rfl
        · rintro rfl
          rw [hc] at hquote
          cases hquote
      split
      · rfl
      · rfl
  | escaped other =>
      cases hopen
      rw [if_neg]
      · rfl
      · rintro rfl
        have hmark := hshown (h.escaped c rfl)
        simp [Nesting.isMark, hquote] at hmark

theorem quote?_step_outside (c : Char) :
    (outside.step c).quote? = if isQuote c then some c else none := by
  rw [Quoting.step]
  split <;> rfl

end Css.Quoting

namespace Extract

/-- A text behind `previous` that could stand in a word, where no backslash hides a bracket or a
quote. -/
structure Legible (previous : Option Char) (text : List Char) : Prop where
  allowed : ∀ c ∈ text, isAllowedChar c = true
  shown : (previous.toList ++ text).IsChain fun c next =>
    c = '\\' → Css.Nesting.isMark next = false

namespace Legible

variable {previous : Option Char} {c : Char} {rest : List Char}

theorem tail (h : Legible previous (c :: rest)) : Legible (some c) rest where
  allowed := fun other hother => h.allowed other (List.mem_cons_of_mem c hother)
  shown := h.shown.right_of_append

theorem not_isMark (h : Legible previous (c :: rest)) (hprevious : previous = some '\\') :
    Css.Nesting.isMark c = false := by
  subst hprevious
  exact (List.isChain_cons_cons.mp h.shown).1 rfl

theorem ne_brace (h : Legible previous (c :: rest)) : c ≠ '{' ∧ c ≠ '}' := by
  have hc := h.allowed c List.mem_cons_self
  constructor <;> (rintro rfl; revert hc; decide)

theorem not_bracket (h : Legible previous (c :: rest)) (hopens : ¬ (c = '[' ∨ c = '('))
    (hcloses : ¬ (c = ']' ∨ c = ')')) :
    Css.Nesting.opens c = false ∧ Css.Nesting.closes c = false := by
  obtain ⟨hleft, hright⟩ := h.ne_brace
  simp only [Css.Nesting.opens, Css.Nesting.closes, Bool.or_eq_false_iff, beq_eq_false_iff_ne]
  tauto

end Legible

/-- One character of a well-formed word, by the depth in front of it and behind it. -/
inductive ScanStep : (depth : Nat) → Css.Quoting → Char → (next : Nat) → Prop where
  | quoted {depth : Nat} {quoting : Css.Quoting} {c : Char} (h : quoting ≠ .outside) :
      ScanStep depth quoting c depth
  | opens {depth : Nat} {c : Char} (h : c = '[' ∨ c = '(') : ScanStep depth .outside c (depth + 1)
  | closes {depth : Nat} {c : Char} (h : c = ']' ∨ c = ')') : ScanStep (depth + 1) .outside c depth
  | other {depth : Nat} {c : Char} (hopens : ¬ (c = '[' ∨ c = '('))
      (hcloses : ¬ (c = ']' ∨ c = ')')) (h : depth = 0 → needsBrackets c = false) :
      ScanStep depth .outside c depth

theorem scanStep_of_isWellFormedFrom {previous : Option Char} {depth : Nat} {quoting : Css.Quoting}
    {c : Char} {rest : List Char} (h : isWellFormedFrom previous depth quoting (c :: rest) = true) :
    ∃ next, ScanStep depth quoting c next ∧
      isWellFormedFrom (some c) next (quoting.step c) rest = true := by
  rw [isWellFormedFrom] at h
  split at h
  · rename_i hquoting
    exact ⟨depth, .quoted (by simpa using hquoting), h⟩
  rename_i hquoting
  obtain rfl : quoting = .outside := by simpa using hquoting
  simp only [Bool.or_eq_true, decide_eq_true_eq] at h
  split at h
  · rename_i hc
    refine ⟨depth + 1, .opens hc, ?_⟩
    rcases hc with rfl | rfl <;> exact h
  split at h
  · rename_i hc
    obtain ⟨hdepth, h⟩ := Bool.and_eq_true_iff.mp h
    obtain ⟨next, rfl⟩ := Nat.exists_eq_succ_of_ne_zero (bne_iff_ne.mp hdepth)
    refine ⟨next, .closes hc, ?_⟩
    rcases hc with rfl | rfl <;> exact h
  split at h
  · cases h
  rename_i hopens hcloses hneeds
  have hother : ScanStep depth .outside c depth :=
    .other hopens hcloses (by simpa using hneeds)
  refine ⟨depth, hother, ?_⟩
  rw [Css.Quoting.step]
  split at h
  · rename_i hc
    rw [if_pos hc]
    exact h
  · rename_i hc
    rw [if_neg hc]
    split at h
    · cases h
    · exact h

/-- The check on words and the cut at commas count alike, and no comma is left to cut at. -/
theorem pass?_of_scanStep {previous : Option Char} {depth next : Nat} {quoting : Css.Quoting}
    {c : Char} {rest : List Char} (hstep : ScanStep depth quoting c next)
    (hfits : quoting.Fits previous) (hlegible : Legible previous (c :: rest)) :
    Css.Nesting.pass? ⟨depth, quoting.quote?⟩ c = some ⟨next, (quoting.step c).quote?⟩ := by
  cases hstep with
  | quoted hquoting =>
      obtain ⟨quote, hopen⟩ : ∃ quote, quoting.quote? = some quote := by
        cases quoting with
        | outside => exact (hquoting rfl).elim
        | inside quote => exact ⟨quote, rfl⟩
        | escaped quote => exact ⟨quote, rfl⟩
      rw [hfits.quote?_step hopen hlegible.not_isMark, hopen]
      exact Css.Nesting.pass?_quoted depth quote c
  | opens hc => rcases hc with rfl | rfl <;> rfl
  | closes hc => rcases hc with rfl | rfl <;> rfl
  | other hopens hcloses hneeds =>
      obtain ⟨hopens, hcloses⟩ := hlegible.not_bracket hopens hcloses
      rw [Css.Quoting.quote?_step_outside]
      refine Css.Nesting.pass?_unquoted hopens hcloses ?_
      rintro hdepth rfl
      cases hneeds hdepth

theorem through?_of_isWellFormedFrom {previous : Option Char} {depth : Nat} {quoting : Css.Quoting}
    {text : List Char} (h : isWellFormedFrom previous depth quoting text = true)
    (hfits : quoting.Fits previous) (hlegible : Legible previous text) :
    Css.Nesting.through? ⟨depth, quoting.quote?⟩ text = some .outside := by
  induction text generalizing previous depth quoting with
  | nil =>
      simp only [isWellFormedFrom, Bool.and_eq_true, beq_iff_eq] at h
      obtain ⟨rfl, rfl⟩ := h
      rfl
  | cons c rest ih =>
      obtain ⟨next, hstep, hrest⟩ := scanStep_of_isWellFormedFrom h
      rw [Css.Nesting.through?_cons, pass?_of_scanStep hstep hfits hlegible]
      exact ih hrest (hfits.step c) hlegible.tail

/-- One character as the check on words and the cut into segments both see it, by the depth of the
one and the brackets that are open for the other. -/
inductive BothSee :
    (depth square round : Nat) → Css.Quoting → Char → Nat → ClassName.Reader → Prop where
  | squareOpens {depth square round : Nat} :
      BothSee depth square round .outside '[' (depth + 1) ⟨square + 1, round, false⟩
  | roundOpens {depth square round : Nat} :
      BothSee depth square round .outside '(' (depth + 1) ⟨square, round + 1, false⟩
  | squareCloses {depth square round : Nat} :
      BothSee (depth + 1) square round .outside ']' depth ⟨square - 1, round, false⟩
  | roundCloses {depth square round : Nat} :
      BothSee (depth + 1) square round .outside ')' depth ⟨square, round - 1, false⟩
  | other {depth square round : Nat} {quoting : Css.Quoting} {c : Char} {escaped : Bool}
      (hopens : Css.Nesting.opens c = false) (hcloses : Css.Nesting.closes c = false)
      (hquote : quoting = .outside → Css.isQuote c = true → 0 < depth)
      (hescaped : escaped = true → c = '\\') :
      BothSee depth square round quoting c depth ⟨square, round, escaped⟩

theorem step_of_not_bracket {square round : Nat} {escaped : Bool} {c : Char}
    (hopens : Css.Nesting.opens c = false) (hcloses : Css.Nesting.closes c = false) :
    ∃ next, ClassName.Reader.step ⟨square, round, escaped⟩ c = ⟨square, round, next⟩ ∧
      (next = true → c = '\\') := by
  simp only [Css.Nesting.opens, Css.Nesting.closes, Bool.or_eq_false_iff, beq_eq_false_iff_ne]
    at hopens hcloses
  unfold ClassName.Reader.step
  split
  · exact ⟨false, rfl, fun hnext => absurd hnext Bool.false_ne_true⟩
  split
  · rename_i hc
    exact ⟨true, rfl, fun _ => hc⟩
  · simp_all

theorem bothSee_of_scanStep {previous : Option Char} {depth next square round : Nat}
    {quoting : Css.Quoting} {escaped : Bool} {c : Char} {rest : List Char}
    (hstep : ScanStep depth quoting c next) (hlegible : Legible previous (c :: rest))
    (hescaped : escaped = true → previous = some '\\')
    (hbare : quoting = .outside ∨ Css.Nesting.opens c = false ∧ Css.Nesting.closes c = false) :
    BothSee depth square round quoting c next
      (ClassName.Reader.step ⟨square, round, escaped⟩ c) := by
  have hshown (hmark : Css.Nesting.isMark c = true) : escaped = false := by
    cases escaped with
    | false => rfl
    | true => rw [hlegible.not_isMark (hescaped rfl)] at hmark; cases hmark
  cases hstep with
  | opens hc =>
      rcases hc with rfl | rfl
      · rw [hshown rfl]
        exact .squareOpens
      · rw [hshown rfl]
        exact .roundOpens
  | closes hc =>
      rcases hc with rfl | rfl
      · rw [hshown rfl]
        exact .squareCloses
      · rw [hshown rfl]
        exact .roundCloses
  | quoted hquoting =>
      obtain ⟨hopens, hcloses⟩ := hbare.resolve_left hquoting
      obtain ⟨next, heq, hnext⟩ := step_of_not_bracket hopens hcloses
      rw [heq]
      exact .other hopens hcloses (fun houtside => (hquoting houtside).elim) hnext
  | other hopens hcloses hneeds =>
      obtain ⟨hopens, hcloses⟩ := hlegible.not_bracket hopens hcloses
      obtain ⟨next, heq, hnext⟩ := step_of_not_bracket hopens hcloses
      rw [heq]
      refine .other hopens hcloses (fun _ hquote => Nat.pos_of_ne_zero fun hdepth => ?_) hnext
      have := hneeds hdepth
      simp only [Css.isQuote, Bool.or_eq_true, beq_iff_eq] at hquote
      rcases hquote with rfl | rfl <;> cases this

/-- A place in a word that passes the check, with a piece of the word ahead that the cut into
segments is about to read. -/
structure Reading (previous : Option Char) (depth : Nat) (quoting : Css.Quoting)
    (reader : ClassName.Reader) (piece rest : List Char) : Prop where
  wellFormed : isWellFormedFrom previous depth quoting (piece ++ rest) = true
  fits : quoting.Fits previous
  legible : Legible previous (piece ++ rest)
  escaped : reader.escaped = true → previous = some '\\'
  bare : quoting.isBare piece = true

section Reading

variable {previous : Option Char} {depth : Nat} {quoting : Css.Quoting} {reader : ClassName.Reader}
  {piece rest : List Char} {c : Char}

theorem Reading.step (h : Reading previous depth quoting reader (c :: piece) rest) :
    ∃ next, BothSee depth reader.square reader.round quoting c next (reader.step c) ∧
      Reading (some c) next (quoting.step c) (reader.step c) piece rest := by
  obtain ⟨next, hstep, hrest⟩ := scanStep_of_isWellFormedFrom h.wellFormed
  obtain ⟨hbare, hbareRest⟩ := Bool.and_eq_true_iff.mp h.bare
  have hsee : BothSee depth reader.square reader.round quoting c next (reader.step c) := by
    refine bothSee_of_scanStep hstep h.legible h.escaped ?_
    simpa using hbare
  have hescaped : (reader.step c).escaped = true → some c = some '\\' := by
    generalize reader.step c = after at hsee
    cases hsee with
    | other _ _ _ hescaped => exact fun hafter => congrArg some (hescaped hafter)
    | squareOpens => exact fun hafter => absurd hafter Bool.false_ne_true
    | roundOpens => exact fun hafter => absurd hafter Bool.false_ne_true
    | squareCloses => exact fun hafter => absurd hafter Bool.false_ne_true
    | roundCloses => exact fun hafter => absurd hafter Bool.false_ne_true
  exact ⟨next, hsee, hrest, h.fits.step c, h.legible.tail, hescaped, hbareRest⟩

/-- A bracket that is closed by one of the other kind stays open for the cut into segments. -/
theorem Reading.not_lt (h : Reading previous depth quoting reader piece rest)
    (hend : piece.foldl ClassName.Reader.step reader = .initial) :
    ¬ depth < reader.square + reader.round := by
  induction piece generalizing previous depth quoting reader with
  | nil =>
      cases hend
      exact Nat.not_lt_zero depth
  | cons c piece ih =>
      obtain ⟨next, hsee, hnext⟩ := h.step
      have hrest := ih hnext hend
      clear hend hnext h
      generalize reader.step c = after at hsee hrest
      cases hsee <;> simp only at hrest <;> omega

end Reading

end Extract

namespace ClassName

/-- The brackets that are open at a place, by their kinds, and the quote. -/
structure Open where
  square : Nat
  round : Nat
  quote : Option Char

namespace Open

def nothing : Open := ⟨0, 0, none⟩

/-- Brackets are closed by their own kind. Quotes stand in brackets and hold none. -/
inductive Step : Open → Char → Open → Prop where
  | squareOpens {square round : Nat} :
      Step ⟨square, round, none⟩ '[' ⟨square + 1, round, none⟩
  | roundOpens {square round : Nat} :
      Step ⟨square, round, none⟩ '(' ⟨square, round + 1, none⟩
  | squareCloses {square round : Nat} :
      Step ⟨square + 1, round, none⟩ ']' ⟨square, round, none⟩
  | roundCloses {square round : Nat} :
      Step ⟨square, round + 1, none⟩ ')' ⟨square, round, none⟩
  | quoteOpens {square round : Nat} {c : Char} (hc : Css.isQuote c = true)
      (hdepth : 0 < square + round) : Step ⟨square, round, none⟩ c ⟨square, round, some c⟩
  | quoteCloses {square round : Nat} {c : Char} (hc : Css.isQuote c = true) :
      Step ⟨square, round, some c⟩ c ⟨square, round, none⟩
  | quoted {square round : Nat} {quote c : Char} (hne : c ≠ quote)
      (hopens : Css.Nesting.opens c = false) (hcloses : Css.Nesting.closes c = false) :
      Step ⟨square, round, some quote⟩ c ⟨square, round, some quote⟩
  | plain {square round : Nat} {c : Char} (hc : Css.Nesting.isMark c = false) :
      Step ⟨square, round, none⟩ c ⟨square, round, none⟩

inductive Run : Open → List Char → Open → Prop where
  | nil (state : Open) : Run state [] state
  | cons {state next last : Open} {c : Char} {rest : List Char} (hstep : Step state c next)
      (hrest : Run next rest last) : Run state (c :: rest) last

theorem Run.split {state last : Open} {first second : List Char}
    (h : Run state (first ++ second) last) :
    ∃ next, Run state first next ∧ Run next second last := by
  induction first generalizing state with
  | nil => exact ⟨state, .nil state, h⟩
  | cons c first ih =>
      cases h with
      | cons hstep hrest =>
          obtain ⟨next, hfirst, hsecond⟩ := ih hrest
          exact ⟨next, .cons hstep hfirst, hsecond⟩

theorem step_of_quoting {previous : Option Char} {quoting : Css.Quoting} {square round : Nat}
    {c : Char} (hfits : quoting.Fits previous)
    (hshown : previous = some '\\' → Css.Nesting.isMark c = false)
    (hopens : Css.Nesting.opens c = false) (hcloses : Css.Nesting.closes c = false)
    (hdepth : quoting = .outside → Css.isQuote c = true → 0 < square + round) :
    Step ⟨square, round, quoting.quote?⟩ c ⟨square, round, (quoting.step c).quote?⟩ := by
  cases hopen : quoting.quote? with
  | some quote =>
      rw [hfits.quote?_step hopen hshown]
      split
      · rename_i hc
        rw [hc]
        exact .quoteCloses (hfits.isQuote quote hopen)
      · rename_i hc
        exact .quoted hc hopens hcloses
  | none =>
      obtain rfl : quoting = .outside := by
        cases quoting with
        | outside => rfl
        | inside quote => cases hopen
        | escaped quote => cases hopen
      rw [Css.Quoting.quote?_step_outside]
      split
      · rename_i hc
        exact .quoteOpens hc (hdepth rfl hc)
      · rename_i hc
        exact .plain (by simp [Css.Nesting.isMark, hc, hopens, hcloses])

open Extract in
/-- A segment that the check on words has passed closes its own brackets. -/
theorem run_of_reading {previous : Option Char} {quoting : Css.Quoting} {depth square round : Nat}
    {escaped : Bool} {piece rest : List Char}
    (h : Reading previous depth quoting ⟨square, round, escaped⟩ piece rest)
    (hdepth : depth = square + round) (hquote : quoting ≠ .outside → 0 < depth)
    (hend : piece.foldl Reader.step ⟨square, round, escaped⟩ = .initial) :
    Run ⟨square, round, quoting.quote?⟩ piece nothing ∧
      ∃ before, isWellFormedFrom before 0 .outside rest = true ∧ Legible before rest := by
  induction piece generalizing previous quoting depth square round escaped with
  | nil =>
      cases hend
      subst hdepth
      obtain rfl : quoting = .outside := by
        by_contra hquoting
        exact Nat.lt_irrefl 0 (hquote hquoting)
      exact ⟨.nil _, previous, h.wellFormed, h.legible⟩
  | cons c piece ih =>
      have hfits := h.fits
      have hshown := h.legible.not_isMark
      obtain ⟨next, hsee, hnext⟩ := h.step
      rw [List.foldl_cons] at hend
      dsimp only at hsee
      clear h
      generalize Reader.step ⟨square, round, escaped⟩ c = after at hsee hnext hend
      cases hsee with
      | squareOpens =>
          obtain ⟨hrun, hrest⟩ := ih hnext (by omega) (fun hquoting => (hquoting rfl).elim) hend
          exact ⟨.cons .squareOpens hrun, hrest⟩
      | roundOpens =>
          obtain ⟨hrun, hrest⟩ := ih hnext (by omega) (fun hquoting => (hquoting rfl).elim) hend
          exact ⟨.cons .roundOpens hrun, hrest⟩
      | squareCloses =>
          -- At depth zero of its kind the bracket would close one of the other kind.
          have hlag := hnext.not_lt hend
          obtain ⟨left, rfl⟩ : ∃ left, square = left + 1 :=
            Nat.exists_eq_succ_of_ne_zero (by rintro rfl; simp only at hlag; omega)
          obtain ⟨hrun, hrest⟩ := ih hnext (by omega) (fun hquoting => (hquoting rfl).elim) hend
          exact ⟨.cons .squareCloses hrun, hrest⟩
      | roundCloses =>
          have hlag := hnext.not_lt hend
          obtain ⟨left, rfl⟩ : ∃ left, round = left + 1 :=
            Nat.exists_eq_succ_of_ne_zero (by rintro rfl; simp only at hlag; omega)
          obtain ⟨hrun, hrest⟩ := ih hnext (by omega) (fun hquoting => (hquoting rfl).elim) hend
          exact ⟨.cons .roundCloses hrun, hrest⟩
      | other hopens hcloses hopensQuote hescaped =>
          have hstep := step_of_quoting hfits hshown hopens hcloses (hdepth ▸ hopensQuote)
          have hquote' : quoting.step c ≠ .outside → 0 < depth := by
            intro hquoting
            by_cases houtside : quoting = .outside
            · refine hopensQuote houtside ?_
              by_contra hc
              simp [houtside, Css.Quoting.step, hc] at hquoting
            · exact hquote houtside
          obtain ⟨hrun, hrest⟩ := ih hnext hdepth hquote' hend
          exact ⟨.cons hstep hrun, hrest⟩

theorem isWellFormedFrom_after_separator {before : Option Char} {separator c : Char}
    {rest : List Char} (hcut : Reader.cuts separator .initial c = true)
    (h : Extract.isWellFormedFrom before 0 .outside (c :: rest) = true) :
    Extract.isWellFormedFrom (some c) 0 .outside rest = true := by
  obtain ⟨next, hstep, hrest⟩ := Extract.scanStep_of_isWellFormedFrom h
  simp only [Reader.cuts, Reader.isReserved, Bool.and_eq_true, Bool.not_eq_true',
    Bool.or_eq_false_iff, beq_eq_false_iff_ne] at hcut
  obtain ⟨-, ⟨⟨⟨-, hleft⟩, -⟩, hround⟩, -⟩ := hcut
  cases hstep with
  | quoted hquoting => exact (hquoting rfl).elim
  | opens hc => exact (hc.elim hleft hround).elim
  | other _ _ hneeds =>
      have hc : Css.isQuote c = false := by
        by_contra hquote
        simp only [Css.isQuote, Bool.not_eq_false, Bool.or_eq_true, beq_iff_eq] at hquote
        rcases hquote with rfl | rfl <;> cases hneeds rfl
      simpa [Css.Quoting.step, hc] using hrest

theorem step_of_cuts {separator c : Char} {reader : Reader}
    (hcut : Reader.cuts separator reader c = true) :
    reader = .initial ∧ reader.step c = .initial := by
  simp only [Reader.cuts, Reader.isReserved, Bool.and_eq_true, beq_iff_eq, Bool.not_eq_true',
    Bool.or_eq_false_iff, beq_eq_false_iff_ne] at hcut
  obtain ⟨⟨-, rfl⟩, ⟨⟨⟨hslash, hleft⟩, hright⟩, hround⟩, hclose⟩ := hcut
  simp [Reader.step, Reader.initial, hslash, hleft, hright, hround, hclose]

/-- In a word that passes the check each variant closes its own brackets. -/
theorem run_of_mem_segments {separator : Char} {previous : Option Char} {text piece : List Char}
    (h : Extract.isWellFormedFrom previous 0 .outside text = true)
    (hlegible : Extract.Legible previous text)
    (hbare : ∀ segment ∈ (segments separator text).dropLast,
      Css.Quoting.isBare .outside segment = true)
    (hpiece : piece ∈ (segments separator text).dropLast) : Run nothing piece nothing := by
  induction hlength : text.length using Nat.strongRecOn generalizing text previous with
  | ind length ih =>
      rcases Text.pieces_cases Reader.step (Reader.cuts separator) .initial text with hwhole |
        ⟨first, c, rest, rfl, huncut, hcut⟩
      · rw [segments, hwhole] at hpiece
        cases hpiece
      have hpieces := Text.pieces_append_cut huncut hcut rest
      obtain ⟨hend, hnext⟩ := step_of_cuts hcut
      rw [hnext] at hpieces
      have hsegments : (segments separator (first ++ c :: rest)).dropLast =
          first :: (segments separator rest).dropLast := by
        rw [segments, hpieces, List.dropLast_cons_of_ne_nil (Text.pieces_ne_nil _ _)]
        rfl
      rw [hsegments] at hbare hpiece
      obtain ⟨hfirst, hothers⟩ := List.forall_mem_cons.mp hbare
      have hreading : Extract.Reading previous 0 .outside .initial first (c :: rest) :=
        ⟨h, Css.Quoting.fits_outside _, hlegible,
          fun hescaped => absurd hescaped Bool.false_ne_true, hfirst⟩
      obtain ⟨hrun, before, hwellFormed, hbefore⟩ :=
        run_of_reading hreading rfl (fun hquoting => (hquoting rfl).elim) hend
      rcases List.mem_cons.mp hpiece with rfl | hpiece
      · exact hrun
      · rw [hend] at hcut
        refine ih rest.length ?_ (isWellFormedFrom_after_separator hcut hwellFormed) hbefore.tail
          hothers hpiece rfl
        rw [← hlength]
        simp
        omega

/-- The place for the cut at commas, where brackets are not told apart. -/
def nesting (state : Open) : Css.Nesting :=
  ⟨state.square + state.round, state.quote⟩

/-- What goes well in square brackets goes well for the cut at commas outside of them. -/
theorem Step.step?_inside {square round after later : Nat} {quote next : Option Char} {c : Char}
    (h : Step ⟨square + 1, round, quote⟩ c ⟨after + 1, later, next⟩) :
    Css.Nesting.step? ⟨square + round, quote⟩ c = some ⟨after + later, next⟩ := by
  cases h with
  | squareOpens =>
      rw [Nat.add_right_comm]
      rfl
  | roundOpens => rfl
  | squareCloses =>
      rw [Nat.add_right_comm]
      rfl
  | roundCloses => rfl
  | quoteOpens hc _ =>
      simp only [Css.isQuote, Bool.or_eq_true, beq_iff_eq] at hc
      rcases hc with rfl | rfl <;> rfl
  | quoteCloses hc =>
      have hpass := Css.Nesting.pass?_quoted (square + round) c c
      rw [if_pos rfl] at hpass
      exact (Css.Nesting.step?_of_pass? hpass).2
  | @quoted _ _ quote _ hne hopens hcloses =>
      have hpass := Css.Nesting.pass?_quoted (square + round) quote c
      rw [if_neg hne] at hpass
      exact (Css.Nesting.step?_of_pass? hpass).2
  | plain hc => exact Css.Nesting.step?_of_not_mark (Css.Nesting.sound_unquoted _) hc

theorem Step.enclose {square round after later : Nat} {quote next : Option Char} {c : Char}
    (h : Step ⟨square, round, quote⟩ c ⟨after, later, next⟩) :
    Step ⟨square + 1, round, quote⟩ c ⟨after + 1, later, next⟩ := by
  cases h with
  | squareOpens => exact .squareOpens
  | roundOpens => exact .roundOpens
  | squareCloses => exact .squareCloses
  | roundCloses => exact .roundCloses
  | quoteOpens hc hdepth => exact .quoteOpens hc (by omega)
  | quoteCloses hc => exact .quoteCloses hc
  | quoted hne hopens hcloses => exact .quoted hne hopens hcloses
  | plain hc => exact .plain hc

theorem Step.step? {state next : Open} {c : Char} (h : Step state c next) :
    state.nesting.step? c = some next.nesting :=
  h.enclose.step?_inside

theorem Run.run? {state next : Open} {text : List Char} (h : Run state text next) :
    state.nesting.run? text = some next.nesting := by
  induction h with
  | nil => rfl
  | cons hstep _ ih => rw [Css.Nesting.run?_cons, hstep.step?, Option.bind_some, ih]

theorem Run.wellBracketed {text : List Char} (h : Run nothing text nothing) :
    Css.WellBracketed text :=
  h.run?

theorem Step.eq_of_not_mark {state next : Open} {c : Char} (h : Step state c next)
    (hc : Css.Nesting.isMark c = false) : next = state := by
  cases h with
  | squareOpens => cases hc
  | roundOpens => cases hc
  | squareCloses => cases hc
  | roundCloses => cases hc
  | quoteOpens hquote _ => simp [Css.Nesting.isMark, hquote] at hc
  | quoteCloses hquote => simp [Css.Nesting.isMark, hquote] at hc
  | quoted => rfl
  | plain => rfl

/-- Text without marks leaves everything as it is. -/
theorem Run.eq_of_unmarked {state next : Open} {text : List Char} (h : Run state text next)
    (htext : text.filter Css.Nesting.isMark = []) : next = state := by
  rw [List.filter_eq_nil_iff] at htext
  induction h with
  | nil => rfl
  | cons hstep _ ih =>
      obtain ⟨hc, hrest⟩ := List.forall_mem_cons.mp htext
      rw [ih hrest, hstep.eq_of_not_mark (Bool.eq_false_iff.mpr hc)]

theorem Run.drop (lead : List Char) {text : List Char} (h : Run nothing (lead ++ text) nothing)
    (hlead : lead.filter Css.Nesting.isMark = []) : Run nothing text nothing := by
  obtain ⟨next, hfirst, hsecond⟩ := h.split
  rwa [hfirst.eq_of_unmarked hlead] at hsecond

theorem Run.dropTail (tail : List Char) {text : List Char} (h : Run nothing (text ++ tail) nothing)
    (htail : tail.filter Css.Nesting.isMark = []) : Run nothing text nothing := by
  obtain ⟨next, hfirst, hsecond⟩ := h.split
  rwa [← hsecond.eq_of_unmarked htail] at hfirst

theorem isBalanced_cons {opening closing c : Char} (hopening : c ≠ opening) (hclosing : c ≠ closing)
    (depth : Nat) (rest : List Char) :
    isBalanced opening closing depth (c :: rest) = isBalanced opening closing depth rest := by
  simp [isBalanced, hopening, hclosing]

/-- A text that balances its own square brackets leaves those around it open. -/
theorem Step.exists_inside {square round : Nat} {quote : Option Char} {next : Open} {c : Char}
    {rest : List Char} (h : Step ⟨square + 1, round, quote⟩ c next)
    (hbalanced : isBalanced '[' ']' square (c :: rest) = true) :
    ∃ after later other, next = ⟨after + 1, later, other⟩ ∧
      isBalanced '[' ']' after rest = true := by
  have hkeeps {later : Nat} {other : Option Char} (hopens : c ≠ '[') (hcloses : c ≠ ']') :
      ∃ after later' other', (⟨square + 1, later, other⟩ : Open) = ⟨after + 1, later', other'⟩ ∧
        isBalanced '[' ']' after rest = true :=
    ⟨square, later, other, rfl, by rwa [isBalanced_cons hopens hcloses] at hbalanced⟩
  cases h with
  | squareOpens => exact ⟨square + 1, round, none, rfl, by simpa [isBalanced] using hbalanced⟩
  | squareCloses =>
      cases square with
      | zero => simp [isBalanced] at hbalanced
      | succ after => exact ⟨after, round, none, rfl, by simpa [isBalanced] using hbalanced⟩
  | roundOpens => exact hkeeps (by decide) (by decide)
  | roundCloses => exact hkeeps (by decide) (by decide)
  | quoteOpens hc _ => exact hkeeps (by rintro rfl; cases hc) (by rintro rfl; cases hc)
  | quoteCloses hc => exact hkeeps (by rintro rfl; cases hc) (by rintro rfl; cases hc)
  | quoted _ hopens hcloses =>
      exact hkeeps (by rintro rfl; cases hopens) (by rintro rfl; cases hcloses)
  | plain hc => exact hkeeps (by rintro rfl; cases hc) (by rintro rfl; cases hc)

theorem Run.run?_inside {square round : Nat} {quote : Option Char} {text : List Char}
    (h : Run ⟨square + 1, round, quote⟩ text ⟨1, 0, none⟩)
    (hbalanced : isBalanced '[' ']' square text = true) :
    Css.Nesting.run? ⟨square + round, quote⟩ text = some .outside := by
  induction text generalizing square round quote with
  | nil =>
      cases h
      rfl
  | cons c rest ih =>
      cases h with
      | cons hstep hrest =>
          obtain ⟨after, later, other, rfl, hafter⟩ := hstep.exists_inside hbalanced
          rw [Css.Nesting.run?_cons, hstep.step?_inside]
          exact ih hrest hafter

theorem Step.eq_of_opening {next : Open} (h : Step nothing '[' next) : next = ⟨1, 0, none⟩ := by
  change Step ⟨0, 0, none⟩ '[' next at h
  cases h with
  | squareOpens => rfl
  | quoteOpens hc _ => cases hc
  | plain hc => cases hc

theorem Step.eq_of_closing {state : Open} (h : Step state ']' nothing) : state = ⟨1, 0, none⟩ := by
  change Step state ']' ⟨0, 0, none⟩ at h
  cases h with
  | squareCloses => rfl
  | quoteCloses hc => cases hc
  | plain hc => cases hc

theorem wellBracketed_of_insideSquare? {text content : List Char} (h : Run nothing text nothing)
    (hinside : insideSquare? text = some content) : Css.WellBracketed content := by
  obtain ⟨rfl, hbalanced⟩ := eq_of_inside? hinside
  cases h with
  | cons hopening hrest =>
      obtain ⟨last, hcontent, hlast⟩ := hrest.split
      cases hlast with
      | cons hclosing hend =>
          cases hend
          rw [hopening.eq_of_opening, hclosing.eq_of_closing] at hcontent
          exact hcontent.run?_inside hbalanced

end Open

end ClassName

end AtomicCss
