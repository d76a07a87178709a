import AtomicCss.Proofs.References
import AtomicCss.Proofs.Segmentation
import AtomicCss.Proofs.TidyText
import Mathlib.Data.List.TakeWhile

/-!
Names of tokens that are written out and read back. A key may hold any characters, so that its
reference need not be read as one; but a key that some reference names is passed over by the
matcher of parentheses and by the splitter at commas, since both have passed over it before.
-/

namespace AtomicCss

namespace Text

section Pieces

variable {State : Type} {step : State → Char → State} {cuts : State → Char → Bool}
  {state home : State} {first second lead text : List Char}

theorem pieces_eq_singleton_of_append
    (h : pieces step cuts state (first ++ second) = [first ++ second]) :
    pieces step cuts state first = [first] := by
  rw [pieces_eq_singleton_iff] at h ⊢
  intro before c after hfirst
  apply h before c (after ++ second)
  rw [hfirst, List.append_assoc, List.cons_append]

theorem pieces_idle_append
    (hidle : ∀ c ∈ lead, step home c = home ∧ cuts home c = false) (text : List Char) :
    pieces step cuts home (lead ++ text) = [lead ++ text] ↔
      pieces step cuts home text = [text] := by
  induction lead with
  | nil => rfl
  | cons c rest ih =>
      obtain ⟨⟨hstep, hcut⟩, hrest⟩ := List.forall_mem_cons.mp hidle
      rw [List.cons_append, pieces_cons_eq_singleton_iff, hstep, ih hrest]
      exact and_iff_right hcut

theorem foldl_idle (hidle : ∀ c ∈ lead, step home c = home) : lead.foldl step home = home := by
  induction lead with
  | nil => rfl
  | cons c rest ih =>
      obtain ⟨hc, hrest⟩ := List.forall_mem_cons.mp hidle
      rw [List.foldl_cons, hc]
      exact ih hrest

/-- The first piece of a text is a text that is not cut. -/
theorem pieces_head (step : State → Char → State) (cuts : State → Char → Bool) (state : State)
    (text : List Char) :
    ∃ first rest, pieces step cuts state text = first :: rest ∧ first <+: text ∧
      pieces step cuts state first = [first] := by
  rcases pieces_cases step cuts state text with hwhole | ⟨first, c, rest, rfl, hfirst, hcut⟩
  · exact ⟨text, [], hwhole, List.prefix_rfl, hwhole⟩
  · exact ⟨first, _, pieces_append_cut hfirst hcut rest, List.prefix_append _ _, hfirst⟩

end Pieces

theorem trimEnd_prefix (text : List Char) : trimEnd text <+: text := by
  rw [← List.reverse_suffix, trimEnd, List.reverse_reverse]
  exact List.dropWhile_suffix isBlank

end Text

namespace Css

/-- An automaton that takes no notice of names: blanks and the characters of names leave it where it
starts, and it does not tell a dot from an underscore. -/
structure NameScanner where
  State : Type
  step : State → Char → State
  cuts : State → Char → Bool
  home : State
  IsReached : State → Prop
  reached_home : IsReached home
  reached_step : ∀ state c, IsReached state → IsReached (step state c)
  step_idle : ∀ c, isNameChar c ∨ Text.isBlank c → step home c = home
  cuts_idle : ∀ c, isNameChar c ∨ Text.isBlank c → cuts home c = false
  step_dot : ∀ state, IsReached state → step state '.' = step state '_'
  cuts_dot : ∀ state, cuts state '.' = cuts state '_'

namespace NameScanner

variable {scanner : NameScanner} {lead text : List Char}

/-- The automaton runs over the text without cutting it. -/
def Passes (scanner : NameScanner) (text : List Char) : Prop :=
  Text.pieces scanner.step scanner.cuts scanner.home text = [text]

theorem Passes.of_prefix (h : scanner.Passes text) (hlead : lead <+: text) :
    scanner.Passes lead := by
  obtain ⟨rest, rfl⟩ := hlead
  exact Text.pieces_eq_singleton_of_append h

theorem passes_append_iff (hlead : ∀ c ∈ lead, isNameChar c ∨ Text.isBlank c) (text : List Char) :
    scanner.Passes (lead ++ text) ↔ scanner.Passes text := by
  apply Text.pieces_idle_append
  intro c hc
  exact ⟨scanner.step_idle c (hlead c hc), scanner.cuts_idle c (hlead c hc)⟩

theorem passes_of_isNameChar (h : ∀ c ∈ text, isNameChar c) : scanner.Passes text := by
  rw [← List.append_nil text, passes_append_iff fun c hc => .inl (h c hc)]
  rfl

theorem foldl_of_isNameChar (h : ∀ c ∈ text, isNameChar c) :
    text.foldl scanner.step scanner.home = scanner.home :=
  Text.foldl_idle fun c hc => scanner.step_idle c (.inl (h c hc))

theorem Passes.trim (h : scanner.Passes text) : scanner.Passes (Text.trim text) := by
  have hstart : scanner.Passes (Text.trimStart text) := by
    rw [← List.takeWhile_append_dropWhile (p := Text.isBlank) (l := text)] at h
    apply (passes_append_iff ?_ _).mp h
    intro c hc
    exact .inr (List.mem_takeWhile_imp hc)
  exact hstart.of_prefix (Text.trimEnd_prefix _)

theorem pieces_underscored {state : scanner.State} (hstate : scanner.IsReached state)
    (h : Text.pieces scanner.step scanner.cuts state text = [text]) :
    Text.pieces scanner.step scanner.cuts state (Text.replaceChar '.' ['_'] text) =
      [Text.replaceChar '.' ['_'] text] := by
  rw [Text.replaceChar_singleton]
  induction text generalizing state with
  | nil => rfl
  | cons c rest ih =>
      rw [Text.pieces_cons_eq_singleton_iff] at h
      have hrest := ih (scanner.reached_step state c hstate) h.2
      rw [List.map_cons, Text.pieces_cons_eq_singleton_iff]
      by_cases hdot : c = '.'
      · subst hdot
        rw [if_pos rfl, ← scanner.cuts_dot, ← scanner.step_dot state hstate]
        exact ⟨h.1, hrest⟩
      · rw [if_neg hdot]
        exact ⟨h.1, hrest⟩

theorem Passes.keyBody {name : String} (h : scanner.Passes name.toList) :
    scanner.Passes (Theme.keyBody name) := by
  apply pieces_underscored scanner.reached_home
  cases hafter : Text.after? "--".toList (Text.trim name.toList) with
  | none => exact h.trim
  | some body =>
      have htrim := h.trim
      rw [Text.eq_append_of_after? hafter] at htrim
      apply (passes_append_iff ?_ _).mp htrim
      exact fun c hc => .inl (Theme.isNameChar_dashes c hc)

end NameScanner

theorem not_isMarkOrComma_of_idle {c : Char} (h : isNameChar c ∨ Text.isBlank c) :
    Nesting.isMarkOrComma c = false := by
  rcases h with hname | hblank
  · by_contra hmark
    simp only [Nesting.isMarkOrComma, Nesting.isMark, isQuote, Nesting.opens, Nesting.closes,
      Bool.not_eq_false, Bool.or_eq_true, beq_iff_eq] at hmark
    rcases hmark with (((rfl | rfl) | (rfl | rfl) | rfl) | (rfl | rfl) | rfl) | rfl <;> cases hname
  · exact Nesting.not_isMarkOrComma_of_isBlank hblank

def commaScanner : NameScanner where
  State := Nesting
  step := Nesting.step
  cuts := Nesting.cuts ','
  home := .outside
  IsReached := Nesting.Sound
  reached_home := Nesting.sound_outside
  reached_step _ c hstate := Nesting.Sound.step hstate c
  step_idle c hc := by
    have hmark := (Bool.or_eq_false_iff.mp (not_isMarkOrComma_of_idle hc)).1
    exact (Nesting.eq_step_of_step? (Nesting.step?_of_not_mark Nesting.sound_outside hmark)).symm
  cuts_idle c hc := by
    have hcomma := (Bool.or_eq_false_iff.mp (not_isMarkOrComma_of_idle hc)).2
    simp [Nesting.cuts, hcomma]
  step_dot state hstate := by
    have hdot := Nesting.eq_step_of_step? (Nesting.step?_of_not_mark hstate (c := '.') rfl)
    rw [← hdot]
    exact Nesting.eq_step_of_step? (Nesting.step?_of_not_mark hstate rfl)
  cuts_dot _ := rfl

namespace Delimiter

/-- What a search for a closing delimiter knows: how many are open besides the one to be closed, and
the quoting. -/
def advance (delimiter : Delimiter) (state : Nat × Quoting) (c : Char) : Nat × Quoting :=
  (if state.2 != .outside || isQuote c then state.1
    else if c = delimiter.opening then state.1 + 1
    else if c = delimiter.closing then state.1 - 1
    else state.1,
    state.2.step c)

def ends (delimiter : Delimiter) (state : Nat × Quoting) (c : Char) : Bool :=
  state == (0, .outside) && c == delimiter.closing

variable {delimiter : Delimiter} {state : Nat × Quoting} {c : Char} {text inner after : List Char}

theorem spanFrom_cons (h : delimiter.ends state c = false) (rest : List Char) :
    delimiter.spanFrom state.1 state.2 (c :: rest) =
      (delimiter.spanFrom (delimiter.advance state c).1 (delimiter.advance state c).2 rest).map
        fun parts => (c :: parts.1, parts.2) := by
  obtain ⟨depth, quoting⟩ := state
  simp only [ends, Bool.and_eq_false_iff, beq_eq_false_iff_ne] at h
  simp only [spanFrom, advance]
  split
  · rfl
  · split
    · rfl
    · split
      · cases depth with
        | zero => simp_all
        | succ depth => rfl
      · rfl

theorem spanFrom_of_ends (hproper : delimiter.IsProper) (h : delimiter.ends state c = true)
    (rest : List Char) : delimiter.spanFrom state.1 state.2 (c :: rest) = some ([], rest) := by
  simp only [ends, Bool.and_eq_true, beq_iff_eq] at h
  obtain ⟨rfl, rfl⟩ := h
  simp [spanFrom, hproper.closing, hproper.apart]

/-- A text that is not cut stands in front of the closing delimiter as a whole. -/
theorem spanFrom_append_of_uncut
    (h : Text.pieces delimiter.advance delimiter.ends state text = [text]) (rest : List Char) :
    delimiter.spanFrom state.1 state.2 (text ++ rest) =
      (delimiter.spanFrom (text.foldl delimiter.advance state).1
        (text.foldl delimiter.advance state).2 rest).map
          fun parts => (text ++ parts.1, parts.2) := by
  induction text generalizing state with
  | nil => simp
  | cons c text ih =>
      obtain ⟨hends, htext⟩ := (Text.pieces_cons_eq_singleton_iff _ c text).mp h
      rw [List.cons_append, spanFrom_cons hends, ih htext, Option.map_map, List.foldl_cons]
      rfl

theorem uncut_of_spanFrom (hproper : delimiter.IsProper)
    (h : delimiter.spanFrom state.1 state.2 text = some (inner, after)) :
    Text.pieces delimiter.advance delimiter.ends state inner = [inner] := by
  induction text generalizing state inner with
  | nil => simp [spanFrom] at h
  | cons c text ih =>
      cases hends : delimiter.ends state c with
      | true =>
          rw [spanFrom_of_ends hproper hends] at h
          cases h
          rfl
      | false =>
          rw [spanFrom_cons hends] at h
          obtain ⟨⟨rest, later⟩, hrest, heq⟩ := Option.map_eq_some_iff.mp h
          cases heq
          exact (Text.pieces_cons_eq_singleton_iff _ c rest).mpr ⟨hends, ih hrest⟩

/-- A text that is not cut is closed by the next closing delimiter, unless a quote or a delimiter in
it is left open. -/
theorem span?_of_uncut (hproper : delimiter.IsProper)
    (h : Text.pieces delimiter.advance delimiter.ends (0, .outside) inner = [inner]) :
    delimiter.span? (inner ++ [delimiter.closing]) =
      if inner.foldl delimiter.advance (0, .outside) = (0, .outside) then some (inner, [])
      else none := by
  rw [span?, spanFrom_append_of_uncut h]
  generalize inner.foldl delimiter.advance (0, .outside) = state
  by_cases hhome : state = (0, .outside)
  · have hends : delimiter.ends state delimiter.closing = true := by simp [ends, hhome]
    rw [if_pos hhome, spanFrom_of_ends hproper hends, Option.map_some, List.append_nil]
  · have hends : delimiter.ends state delimiter.closing = false := by simp [ends, hhome]
    rw [if_neg hhome, spanFrom_cons hends]
    rfl

theorem isProper_parens : parens.IsProper :=
  ⟨rfl, rfl, by decide⟩

theorem isProper_braces : braces.IsProper :=
  ⟨rfl, rfl, by decide⟩

end Delimiter

def parenScanner : NameScanner where
  State := Nat × Quoting
  step := Delimiter.parens.advance
  cuts := Delimiter.parens.ends
  home := (0, .outside)
  IsReached state := ∃ previous, state.2.Fits previous
  reached_home := ⟨none, Quoting.fits_outside none⟩
  reached_step state c hstate := by
    obtain ⟨previous, hfits⟩ := hstate
    exact ⟨some c, hfits.step c⟩
  step_idle c hc := by
    have hmark := not_isMarkOrComma_of_idle hc
    simp only [Nesting.isMarkOrComma, Nesting.isMark, Nesting.opens, Nesting.closes,
      Bool.or_eq_false_iff, beq_eq_false_iff_ne] at hmark
    simp [Delimiter.advance, Delimiter.parens, Quoting.step, hmark]
  cuts_idle c hc := by
    have hmark := not_isMarkOrComma_of_idle hc
    simp only [Nesting.isMarkOrComma, Nesting.isMark, Nesting.closes,
      Bool.or_eq_false_iff, beq_eq_false_iff_ne] at hmark
    simp [Delimiter.ends, Delimiter.parens, hmark]
  step_dot state hstate := by
    obtain ⟨previous, hfits⟩ := hstate
    obtain ⟨depth, quoting⟩ := state
    have hquoting : quoting.step '.' = quoting.step '_' := by
      cases quoting with
      | outside => rfl
      | escaped quote => rfl
      | inside quote =>
          have hquote : isQuote quote = true := hfits.isQuote quote rfl
          have hdot : '.' ≠ quote := by
            rintro rfl
            cases hquote
          have hunderscore : '_' ≠ quote := by
            rintro rfl
            cases hquote
          simp [Quoting.step, hdot, hunderscore]
    simp only [Delimiter.advance, hquoting]
    rfl
  cuts_dot state := by
    simp [Delimiter.ends, Delimiter.parens]

theorem passes_of_mem_fragments {text inner : List Char}
    (h : .reference inner ∈ fragments text) : parenScanner.Passes inner := by
  obtain ⟨opened, after, hspan⟩ := exists_span?_of_mem_fragments h
  exact Delimiter.uncut_of_spanFrom Delimiter.isProper_parens hspan

theorem varParts_of_passes {text : List Char} (h : commaScanner.Passes text) :
    varParts text = (Text.trim text, none) := by
  have hsplit : splitTopLevel ',' text = [text] := h
  rw [varParts, hsplit]

/-- Both scanners pass over the name of a reference. -/
theorem passes_varParts {inner : List Char} (h : parenScanner.Passes inner) :
    parenScanner.Passes (varParts inner).1 ∧ commaScanner.Passes (varParts inner).1 := by
  obtain ⟨first, rest, hsplit, hlead, hfirst⟩ :=
    Text.pieces_head Nesting.step (Nesting.cuts ',') .outside inner
  have hname : (varParts inner).1 = Text.trim first := by
    rw [varParts, splitTopLevel, hsplit]
    cases rest <;> rfl
  have hcomma : commaScanner.Passes first := hfirst
  rw [hname]
  exact ⟨(h.of_prefix hlead).trim, hcomma.trim⟩

theorem mapVars_reference {inner : List Char} (change : List Char → List Char)
    (h : parenScanner.Passes inner) :
    mapVars change (reference inner) =
      if inner.foldl Delimiter.parens.advance (0, .outside) = (0, .outside) then change inner
      else reference inner := by
  have hvar : Text.after? "var(".toList (reference inner) = some (inner ++ [')']) := by
    simp [reference, Text.after?]
  have hspan := Delimiter.span?_of_uncut Delimiter.isProper_parens h
  by_cases hhome : inner.foldl Delimiter.parens.advance (0, .outside) = (0, .outside)
  · rw [if_pos hhome] at hspan ⊢
    rw [mapVars_of_span? hvar hspan, mapVars_nil, List.append_nil]
  · rw [if_neg hhome] at hspan ⊢
    rw [mapVars_of_unclosed hvar hspan]

end Css

namespace Theme

variable {theme : Theme} {scanner : Css.NameScanner} {key value : String}

def lead (theme : Theme) : List Char :=
  (theme.namePrefix.map nameLead).getD ['-', '-']

theorem toList_varName_eq (theme : Theme) (name : String) :
    (theme.varName name).toList = theme.lead ++ keyBody name := by
  rw [toList_varName, lead]
  cases theme.namePrefix with
  | none => simp
  | some namePrefix => simp [nameLead]

theorem head?_lead (theme : Theme) : theme.lead.head? = some '-' := by
  rw [lead]
  cases theme.namePrefix with
  | none => rfl
  | some namePrefix => simp [nameLead]

theorem getLast?_lead (theme : Theme) : theme.lead.getLast? = some '-' := by
  rw [lead]
  cases theme.namePrefix with
  | none => rfl
  | some namePrefix => exact List.getLast?_concat

theorem trim_varName (theme : Theme) (name : String) :
    Text.trim (theme.varName name).toList = (theme.varName name).toList := by
  rw [toList_varName_eq]
  have hstart : Text.trimStart (theme.lead ++ keyBody name) = theme.lead ++ keyBody name := by
    obtain ⟨rest, hrest⟩ := List.head?_eq_some_iff.mp (head?_lead theme)
    rw [hrest]
    exact List.dropWhile_cons_of_neg (by decide)
  rw [Text.trim, hstart]
  apply Text.trimEnd_eq_self
  intro c hlast
  rw [List.getLast?_append, getLast?_lead] at hlast
  cases hbody : (keyBody name).getLast? with
  | none =>
      rw [hbody] at hlast
      cases hlast
      decide
  | some last =>
      rw [hbody] at hlast
      cases hlast
      exact isBlank_getLast?_keyBody hbody

/-- The name prefix, if there is one, is a name. -/
def HasPlainPrefix (theme : Theme) : Prop :=
  ∀ namePrefix ∈ theme.namePrefix, ∀ c ∈ namePrefix.toList, Css.isNameChar c

instance (theme : Theme) : Decidable theme.HasPlainPrefix :=
  decidable_of_iff
    ((theme.namePrefix.all fun namePrefix => namePrefix.toList.all Css.isNameChar) = true)
    (by simp [HasPlainPrefix, Option.all_eq_true])

theorem HasPlainPrefix.isNameChar (h : theme.HasPlainPrefix) {c : Char} (hc : c ∈ theme.lead) :
    Css.isNameChar c := by
  rw [lead] at hc
  cases hname : theme.namePrefix with
  | none =>
      rw [hname] at hc
      have hdash : c = '-' := by simpa using hc
      rw [hdash]
      decide
  | some namePrefix =>
      rw [hname] at hc
      exact isNameChar_of_mem_nameLead (h namePrefix hname) hc

theorem keyOf_of_get? (h : theme.values.get? key = some value) : keyOf key = key :=
  theme.keyOf_eq key (List.mem_map_of_mem (Dictionary.mem_entries_of_get? h))

theorem dashed_keyBody (name : String) : "--" ++ String.ofList (keyBody name) = keyOf name := by
  apply String.toList_inj.mp
  rw [toList_keyOf]
  simp

/-- A token is found under the name under which it is written out. -/
theorem lookupVar?_varName (h : theme.values.get? key = some value) :
    theme.lookupVar? (theme.varName key) = some value := by
  have hkey := keyOf_of_get? h
  rw [lookupVar?_eq_bind, lookupKey?, keysOfName]
  cases hname : theme.namePrefix with
  | none =>
      have hwritten : theme.varName key = key := by rw [varName, hname, hkey]
      rw [hwritten, hkey]
      simp only [Option.bind_none, Option.toList_none, List.nil_append]
      rw [find?_bind_get?, h]
      rfl
  | some namePrefix =>
      have hafter : Text.after? (nameLead namePrefix) (theme.varName key).toList =
          some (keyBody key) := by
        rw [toList_varName_eq, lead, hname]
        exact Text.after?_append _ _
      simp only [Option.bind_some, hafter, Option.map_some, Option.toList_some,
        List.singleton_append]
      rw [dashed_keyBody, keyOf_keyOf, hkey, find?_bind_get?, h]
      rfl

theorem inlineChars_varRef (hvalue : theme.values.get? key = some value)
    (hparens : Css.parenScanner.Passes (theme.varName key).toList)
    (hcomma : Css.commaScanner.Passes (theme.varName key).toList) (depth : Nat) :
    theme.inlineChars (depth + 1) (theme.varRef key).toList =
      if (theme.varName key).toList.foldl Css.Delimiter.parens.advance (0, .outside) =
          (0, .outside) then theme.inlineChars depth value.toList
      else (theme.varRef key).toList := by
  have href : (theme.varRef key).toList = Css.reference (theme.varName key).toList := by
    simp [varRef, Css.reference]
  have hexpand (write : List Char → List Char) :
      theme.expand write (theme.varName key).toList = write value.toList := by
    rw [expand, referent?, Css.varParts_of_passes hcomma, trim_varName, String.ofList_toList,
      lookupVar?_varName hvalue]
    rfl
  rw [href, inlineChars_succ, Css.mapVars_reference _ hparens, hexpand]

theorem passes_varName (hplain : theme.HasPlainPrefix) {name : String}
    (h : scanner.Passes (keyBody name)) : scanner.Passes (theme.varName name).toList := by
  rw [toList_varName_eq]
  apply (Css.NameScanner.passes_append_iff ?_ _).mpr h
  intro c hc
  exact .inl (hplain.isNameChar hc)

/-- A key that a written name stands for is written under a name that is passed over too. -/
theorem passes_varName_of_lookupKey? (hplain : theme.HasPlainPrefix) {name : String}
    (hkey : theme.lookupKey? name = some key) (h : scanner.Passes name.toList) :
    scanner.Passes (theme.varName key).toList := by
  apply passes_varName hplain
  rcases List.mem_append.mp (List.mem_of_find?_eq_some hkey) with hmem | hmem
  · simp only [Option.mem_toList, Option.bind_eq_some_iff, Option.map_eq_some_iff] at hmem
    obtain ⟨namePrefix, hname, rest, hafter, rfl⟩ := hmem
    have hlead : ∀ c ∈ nameLead namePrefix, Css.isNameChar c ∨ Text.isBlank c :=
      fun c hc => .inl (isNameChar_of_mem_nameLead (hplain namePrefix hname) hc)
    rw [Text.eq_append_of_after? hafter, Css.NameScanner.passes_append_iff hlead] at h
    rw [keyBody_keyOf]
    apply Css.NameScanner.Passes.keyBody
    simp only [String.toList_append, String.toList_ofList]
    apply (Css.NameScanner.passes_append_iff ?_ _).mpr h
    exact fun c hc => .inl (isNameChar_dashes c hc)
  · rw [List.mem_singleton.mp hmem, keyBody_keyOf]
    exact h.keyBody

end Theme

end AtomicCss
