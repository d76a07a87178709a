import AtomicCss.Css.Bracketed
import AtomicCss.Selector
import Mathlib.Data.List.Basic

/-!
Texts whose brackets and quotes are closed, and how such texts are cut at commas: what stands in
brackets is never cut, and closed texts put side by side are cut where each of them is.
-/

namespace AtomicCss

namespace Text

/-- The pieces of two texts side by side: the last of the first and the first of the second meet. -/
def glue : List (List Char) → List (List Char) → List (List Char)
  | [], second => second
  | [last], next :: rest => (last ++ next) :: rest
  | [last], [] => [last]
  | piece :: rest, second => piece :: glue rest second

theorem glue_cons (lead piece : List Char) (rest second : List (List Char))
    (hsecond : second ≠ []) :
    glue [lead] (glue (piece :: rest) second) = glue ((lead ++ piece) :: rest) second := by
  cases rest with
  | cons next rest => rfl
  | nil =>
      cases second with
      | nil => exact (hsecond rfl).elim
      | cons first second => simp [glue]

theorem dropLast_glue {first : List (List Char)} (hfirst : first ≠ []) (next : List Char)
    (rest : List (List Char)) :
    glue first (next :: rest) = first.dropLast ++ (first.getLast hfirst ++ next) :: rest := by
  induction first with
  | nil => exact (hfirst rfl).elim
  | cons piece later ih =>
      cases later with
      | nil => rfl
      | cons following later =>
          simp only [glue, List.dropLast_cons_cons, List.cons_append]
          rw [ih (List.cons_ne_nil _ _)]
          rfl

theorem filter_dropWhile {keeps drops : Char → Bool}
    (h : ∀ c, drops c = true → keeps c = false) (text : List Char) :
    (text.dropWhile drops).filter keeps = text.filter keeps := by
  induction text with
  | nil => rfl
  | cons c rest ih =>
      rw [List.dropWhile_cons]
      split
      · rename_i hdrops
        rw [ih, List.filter_cons_of_neg (by simp [h c hdrops])]
      · rfl

theorem filter_trim {keeps : Char → Bool} (h : ∀ c, isBlank c = true → keeps c = false)
    (text : List Char) : (trim text).filter keeps = text.filter keeps := by
  rw [trim, trimEnd, List.filter_reverse, filter_dropWhile h, List.filter_reverse,
    List.reverse_reverse, trimStart, filter_dropWhile h]

section Pieces

variable {State : Type} {step : State → Char → State} {cuts : State → Char → Bool}

theorem pieces_ne_nil (state : State) (text : List Char) : pieces step cuts state text ≠ [] :=
  List.cons_ne_nil _ _

theorem pieces_cons_of_cut {state : State} {c : Char} (h : cuts state c = true)
    (rest : List Char) :
    pieces step cuts state (c :: rest) = [] :: pieces step cuts (step state c) rest := by
  simp [pieces, cutAll, h]

theorem pieces_cons {state : State} {c : Char} (h : cuts state c = false) (rest : List Char) :
    pieces step cuts state (c :: rest) = glue [[c]] (pieces step cuts (step state c) rest) := by
  simp [pieces, cutAll, h, glue]

theorem pieces_append (state : State) (first second : List Char) :
    pieces step cuts state (first ++ second) =
      glue (pieces step cuts state first) (pieces step cuts (first.foldl step state) second) := by
  induction first generalizing state with
  | nil => simp [pieces, cutAll, glue]
  | cons c rest ih =>
      rw [List.cons_append, List.foldl_cons]
      cases hcut : cuts state c with
      | true =>
          rw [pieces_cons_of_cut hcut, pieces_cons_of_cut hcut, ih]
          rfl
      | false =>
          rw [pieces_cons hcut, pieces_cons hcut, ih]
          exact glue_cons _ _ _ _ (pieces_ne_nil _ _)

/-- A text is one piece, or it is cut somewhere for the first time. -/
theorem pieces_cases (step : State → Char → State) (cuts : State → Char → Bool) (state : State)
    (text : List Char) :
    pieces step cuts state text = [text] ∨
      ∃ first c rest, text = first ++ c :: rest ∧ pieces step cuts state first = [first] ∧
        cuts (first.foldl step state) c = true := by
  induction text generalizing state with
  | nil => exact .inl rfl
  | cons c rest ih =>
      cases hcut : cuts state c with
      | true => exact .inr ⟨[], c, rest, rfl, rfl, hcut⟩
      | false =>
          rcases ih (step state c) with hwhole | ⟨first, d, later, rfl, hfirst, hlater⟩
          · rw [pieces_cons hcut, hwhole]
            exact .inl rfl
          · refine .inr ⟨c :: first, d, later, rfl, ?_, hlater⟩
            rw [pieces_cons hcut, hfirst]
            rfl

theorem pieces_append_cons_of_cut {state : State} {first : List Char} {c : Char}
    (hcut : cuts (first.foldl step state) c = true) (rest : List Char) :
    pieces step cuts state (first ++ c :: rest) =
      pieces step cuts state first ++
        pieces step cuts (step (first.foldl step state) c) rest := by
  rw [pieces_append, pieces_cons_of_cut hcut, dropLast_glue (pieces_ne_nil _ _), List.append_nil,
    ← List.singleton_append, ← List.append_assoc, List.dropLast_append_getLast]

theorem pieces_append_cut {state : State} {first : List Char} {c : Char}
    (hfirst : pieces step cuts state first = [first])
    (hcut : cuts (first.foldl step state) c = true) (rest : List Char) :
    pieces step cuts state (first ++ c :: rest) =
      first :: pieces step cuts (step (first.foldl step state) c) rest := by
  rw [pieces_append_cons_of_cut hcut, hfirst]
  rfl

end Pieces

end Text

namespace Css.Nesting

def isMark (c : Char) : Bool :=
  isQuote c || opens c || closes c

/-- A step that closes only what is open. -/
def step? (state : Nesting) (c : Char) : Option Nesting :=
  if state.quote.isNone && closes c && state.depth == 0 then none else some (state.step c)

/-- A step at which the text is not cut at a comma either. -/
def pass? (state : Nesting) (c : Char) : Option Nesting :=
  if cuts ',' state c then none else state.step? c

def run? (state : Nesting) (text : List Char) : Option Nesting :=
  text.foldlM step? state

def through? (state : Nesting) (text : List Char) : Option Nesting :=
  text.foldlM pass? state

variable {state next : Nesting} {c : Char} {text rest : List Char}

@[simp] theorem run?_nil : run? state [] = some state := rfl

@[simp] theorem run?_cons :
    run? state (c :: rest) = (state.step? c).bind fun next => run? next rest :=
  rfl

@[simp] theorem run?_append :
    run? state (text ++ rest) = (run? state text).bind fun next => run? next rest :=
  List.foldlM_append

@[simp] theorem through?_nil : through? state [] = some state := rfl

@[simp] theorem through?_cons :
    through? state (c :: rest) = (state.pass? c).bind fun next => through? next rest :=
  rfl

@[simp] theorem through?_append :
    through? state (text ++ rest) = (through? state text).bind fun next => through? next rest :=
  List.foldlM_append

theorem eq_step_of_step? (h : state.step? c = some next) : next = state.step c := by
  unfold step? at h
  split at h
  · cases h
  · exact (Option.some.inj h).symm

theorem step?_of_pass? (h : state.pass? c = some next) :
    cuts ',' state c = false ∧ state.step? c = some next := by
  unfold pass? at h
  split at h
  · cases h
  · rename_i hcut
    exact ⟨Bool.eq_false_iff.mpr hcut, h⟩

theorem pass?_quoted (depth : Nat) (quote c : Char) :
    pass? ⟨depth, some quote⟩ c = some ⟨depth, if c = quote then none else some quote⟩ := by
  have hcut : cuts ',' ⟨depth, some quote⟩ c = false := by simp [cuts, outside]
  simp only [pass?, hcut, step?, step, Option.isNone_some, Bool.false_and, Bool.false_eq_true,
    if_false, Option.some.injEq]
  split <;> rfl

theorem pass?_unquoted {depth : Nat} (hopens : opens c = false) (hcloses : closes c = false)
    (hcomma : depth = 0 → c ≠ ',') :
    pass? ⟨depth, none⟩ c = some ⟨depth, if isQuote c then some c else none⟩ := by
  have hcut : cuts ',' ⟨depth, none⟩ c = false := by
    by_contra hcut
    simp only [cuts, outside, Bool.not_eq_false, Bool.and_eq_true, beq_iff_eq] at hcut
    exact hcomma (congrArg Nesting.depth hcut.1.1.1.2) hcut.1.1.1.1
  simp only [pass?, hcut, step?, step, hopens, hcloses, Bool.and_false, Bool.false_and,
    Bool.false_eq_true, if_false, Option.some.injEq]
  split <;> rfl

theorem foldl_step_of_run? (h : run? state text = some next) : text.foldl step state = next := by
  induction text generalizing state with
  | nil => exact Option.some.inj h
  | cons c rest ih =>
      rw [run?_cons, Option.bind_eq_some_iff] at h
      obtain ⟨middle, hstep, hrest⟩ := h
      rw [List.foldl_cons, ← eq_step_of_step? hstep]
      exact ih hrest

theorem run?_of_through? (h : through? state text = some next) : run? state text = some next := by
  induction text generalizing state with
  | nil => exact h
  | cons c rest ih =>
      rw [through?_cons, Option.bind_eq_some_iff] at h
      obtain ⟨middle, hpass, hrest⟩ := h
      rw [run?_cons, (step?_of_pass? hpass).2]
      exact ih hrest

theorem pieces_of_through? (h : through? state text = some next) :
    Text.pieces step (cuts ',') state text = [text] := by
  induction text generalizing state with
  | nil => rfl
  | cons c rest ih =>
      rw [through?_cons, Option.bind_eq_some_iff] at h
      obtain ⟨middle, hpass, hrest⟩ := h
      obtain ⟨hcut, hstep⟩ := step?_of_pass? hpass
      rw [Text.pieces_cons hcut, ← eq_step_of_step? hstep, ih hrest]
      rfl

/-- A text without commas is not cut. -/
theorem through?_of_not_mem (hcomma : ',' ∉ text) : through? state text = run? state text := by
  induction text generalizing state with
  | nil => rfl
  | cons c rest ih =>
      have hcut : cuts ',' state c = false := by
        have hne : c ≠ ',' := fun heq => hcomma (heq ▸ List.mem_cons_self)
        simp [cuts, hne]
      rw [through?_cons, run?_cons, pass?, hcut]
      congr 1
      funext next
      exact ih fun hmem => hcomma (List.mem_cons_of_mem c hmem)

/-- The same place inside more brackets. -/
def deepen (state : Nesting) (more : Nat) : Nesting :=
  { state with depth := state.depth + more }

theorem step?_deepen (h : state.step? c = some next) (more : Nat) :
    (state.deepen more).step? c = some (next.deepen more) := by
  obtain ⟨depth, quote⟩ := state
  have hnext := eq_step_of_step? h
  subst hnext
  cases quote with
  | some quote =>
      simp only [step?, step, deepen, Option.isNone_some, Bool.false_and, Bool.false_eq_true,
        if_false]
      split <;> rfl
  | none =>
      have hopen : closes c = true → depth ≠ 0 := by
        intro hcloses hdepth
        simp [step?, hcloses, hdepth] at h
      simp only [step?, step, deepen, Option.isNone_none, Bool.true_and]
      split
      · rename_i hfails
        simp only [Bool.and_eq_true, beq_iff_eq] at hfails
        exact (hopen hfails.1 (by omega)).elim
      · congr 1
        split
        · rfl
        split
        · simp only [Nesting.mk.injEq, and_true]
          omega
        split
        · rename_i hcloses
          have := hopen hcloses
          simp only [Nesting.mk.injEq, and_true]
          omega
        · rfl

/-- What goes well at the top goes well in brackets, where nothing is cut. -/
theorem through?_deepen (h : run? state text = some next) (more : Nat) :
    through? (state.deepen (more + 1)) text = some (next.deepen (more + 1)) := by
  induction text generalizing state with
  | nil => exact congrArg some (congrArg (deepen · (more + 1)) (Option.some.inj h))
  | cons c rest ih =>
      rw [run?_cons, Option.bind_eq_some_iff] at h
      obtain ⟨middle, hstep, hrest⟩ := h
      have hcut : cuts ',' (state.deepen (more + 1)) c = false := by
        simp [cuts, deepen, outside]
      rw [through?_cons, pass?, hcut, if_neg (by decide), step?_deepen hstep]
      exact ih hrest

def Sound (state : Nesting) : Prop :=
  ∀ quote ∈ state.quote, isQuote quote = true

theorem sound_unquoted (depth : Nat) : Sound ⟨depth, none⟩ := nofun

theorem sound_outside : outside.Sound := sound_unquoted 0

theorem Sound.step (hsound : state.Sound) (c : Char) : (state.step c).Sound := by
  rw [Nesting.step]
  split
  · split
    · exact sound_unquoted state.depth
    · exact hsound
  split
  · rename_i hquote
    intro quote hmem
    cases hmem
    exact hquote
  split
  · exact hsound
  split
  · exact hsound
  · exact hsound

theorem Sound.step? (hsound : state.Sound) (h : state.step? c = some next) : next.Sound := by
  rw [eq_step_of_step? h]
  exact hsound.step c

theorem Sound.run? (hsound : state.Sound) (h : Nesting.run? state text = some next) :
    next.Sound := by
  induction text generalizing state with
  | nil => exact Option.some.inj h ▸ hsound
  | cons c rest ih =>
      rw [run?_cons, Option.bind_eq_some_iff] at h
      obtain ⟨middle, hstep, hrest⟩ := h
      exact ih (hsound.step? hstep) hrest

theorem step?_of_not_mark (hsound : state.Sound) (hc : isMark c = false) :
    state.step? c = some state := by
  simp only [isMark, Bool.or_eq_false_iff] at hc
  obtain ⟨⟨hquote, hopens⟩, hcloses⟩ := hc
  simp only [step?, step, hquote, hopens, hcloses, Bool.and_false, Bool.false_and,
    Bool.false_eq_true, if_false]
  split
  · rename_i quote hopen
    rw [if_neg]
    rintro rfl
    rw [hsound c hopen] at hquote
    cases hquote
  · rfl

theorem run?_filter_isMark (hsound : state.Sound) (text : List Char) :
    run? state (text.filter isMark) = run? state text := by
  induction text generalizing state with
  | nil => rfl
  | cons c rest ih =>
      cases hmark : isMark c with
      | false =>
          rw [List.filter_cons_of_neg (by simp [hmark]), run?_cons, step?_of_not_mark hsound hmark]
          exact ih hsound
      | true =>
          rw [List.filter_cons_of_pos hmark, run?_cons, run?_cons]
          cases hstep : state.step? c with
          | none => rfl
          | some next => exact ih (hsound.step? hstep)

/-- Only marks matter to whether a text is closed. -/
theorem run?_congr (hsound : state.Sound) (h : text.filter isMark = rest.filter isMark) :
    run? state text = run? state rest := by
  rw [← run?_filter_isMark hsound text, h, run?_filter_isMark hsound rest]

def isMarkOrComma (c : Char) : Bool :=
  isMark c || c == ','

theorem through?_filter_isMarkOrComma (hsound : state.Sound) (text : List Char) :
    through? state (text.filter isMarkOrComma) = through? state text := by
  induction text generalizing state with
  | nil => rfl
  | cons c rest ih =>
      cases hkept : isMarkOrComma c with
      | false =>
          have hpass : state.pass? c = some state := by
            simp only [isMarkOrComma, Bool.or_eq_false_iff] at hkept
            simp [pass?, cuts, hkept.2, step?_of_not_mark hsound hkept.1]
          rw [List.filter_cons_of_neg (by simp [hkept]), through?_cons, hpass]
          exact ih hsound
      | true =>
          rw [List.filter_cons_of_pos hkept, through?_cons, through?_cons]
          cases hpass : state.pass? c with
          | none => rfl
          | some next => exact ih (hsound.step? (step?_of_pass? hpass).2)

theorem through?_congr (hsound : state.Sound)
    (h : text.filter isMarkOrComma = rest.filter isMarkOrComma) :
    through? state text = through? state rest := by
  rw [← through?_filter_isMarkOrComma hsound text, h, through?_filter_isMarkOrComma hsound rest]

theorem not_isMarkOrComma_of_isBlank (h : Text.isBlank c = true) : isMarkOrComma c = false := by
  by_contra hkept
  simp only [isMarkOrComma, isMark, isQuote, opens, closes, Bool.not_eq_false, Bool.or_eq_true,
    beq_iff_eq] at hkept
  rcases hkept with (((rfl | rfl) | (rfl | rfl) | rfl) | (rfl | rfl) | rfl) | rfl <;> cases h

theorem through?_pieces (h : run? state text = some outside) :
    ∃ first others, Text.pieces step (cuts ',') state text = first :: others ∧
      through? state first = some outside ∧
        ∀ other ∈ others, through? outside other = some outside := by
  induction text generalizing state with
  | nil => exact ⟨[], [], rfl, h, nofun⟩
  | cons c rest ih =>
      rw [run?_cons, Option.bind_eq_some_iff] at h
      obtain ⟨middle, hstep, hrest⟩ := h
      obtain ⟨first, others, hpieces, hfirst, hothers⟩ := ih hrest
      have hnext := eq_step_of_step? hstep
      cases hcut : cuts ',' state c with
      | false =>
          refine ⟨c :: first, others, ?_, ?_, hothers⟩
          · rw [Text.pieces_cons hcut, ← hnext, hpieces]
            rfl
          · rw [through?_cons, pass?, hcut, if_neg (by decide), hstep]
            exact hfirst
      | true =>
          simp only [cuts, Bool.and_eq_true, beq_iff_eq] at hcut
          obtain ⟨⟨⟨⟨rfl, rfl⟩, -⟩, -⟩, -⟩ := hcut
          have hmiddle : middle = outside := hnext
          rw [hmiddle] at hfirst
          refine ⟨[], first :: others, ?_, rfl, List.forall_mem_cons.mpr ⟨hfirst, hothers⟩⟩
          rw [Text.pieces_cons_of_cut rfl, ← hnext, hpieces]

end Css.Nesting

namespace Css

/-- A text whose brackets and quotes are closed. -/
def WellBracketed (text : List Char) : Prop :=
  Nesting.run? .outside text = some .outside

/-- A closed text that is not cut at any comma. -/
def IsWhole (text : List Char) : Prop :=
  Nesting.through? .outside text = some .outside

instance (text : List Char) : Decidable (WellBracketed text) :=
  inferInstanceAs (Decidable (_ = _))

instance (text : List Char) : Decidable (IsWhole text) :=
  inferInstanceAs (Decidable (_ = _))

theorem IsWhole.wellBracketed {text : List Char} (h : IsWhole text) : WellBracketed text :=
  Nesting.run?_of_through? h

theorem IsWhole.append {first second : List Char} (hfirst : IsWhole first)
    (hsecond : IsWhole second) : IsWhole (first ++ second) := by
  rw [IsWhole, Nesting.through?_append, hfirst]
  exact hsecond

theorem WellBracketed.append {first second : List Char} (hfirst : WellBracketed first)
    (hsecond : WellBracketed second) : WellBracketed (first ++ second) := by
  rw [WellBracketed, Nesting.run?_append, hfirst]
  exact hsecond

theorem wellBracketed_congr {first second : List Char}
    (h : first.filter Nesting.isMark = second.filter Nesting.isMark) :
    WellBracketed first ↔ WellBracketed second := by
  rw [WellBracketed, WellBracketed, Nesting.run?_congr Nesting.sound_outside h]

theorem isWhole_of_not_mem {text : List Char} (hcomma : ',' ∉ text) (h : WellBracketed text) :
    IsWhole text :=
  (Nesting.through?_of_not_mem hcomma).trans h

/-- Brackets with a closed text in them are not cut. -/
theorem WellBracketed.enclose {lead text tail : List Char}
    (hlead : Nesting.through? .outside lead = some ⟨1, none⟩) (h : WellBracketed text)
    (htail : Nesting.through? ⟨1, none⟩ tail = some .outside) :
    IsWhole (lead ++ text ++ tail) := by
  have hinside : Nesting.through? ⟨1, none⟩ text = some ⟨1, none⟩ := Nesting.through?_deepen h 0
  rw [IsWhole, Nesting.through?_append, Nesting.through?_append, hlead, Option.bind_some, hinside]
  exact htail

theorem IsWhole.trim {text : List Char} (h : IsWhole text) : IsWhole (Text.trim text) :=
  (Nesting.through?_congr Nesting.sound_outside
    (Text.filter_trim (fun _ => Nesting.not_isMarkOrComma_of_isBlank) text)).trans h

theorem WellBracketed.trim {text : List Char} (h : WellBracketed text) :
    WellBracketed (Text.trim text) := by
  refine (wellBracketed_congr (Text.filter_trim (fun c hblank => ?_) text)).mpr h
  exact (Bool.or_eq_false_iff.mp (Nesting.not_isMarkOrComma_of_isBlank hblank)).1

theorem IsWhole.getLast?_ne_comma {text : List Char} (h : IsWhole text) :
    text.getLast? ≠ some ',' := by
  intro hlast
  obtain ⟨init, rfl⟩ := List.getLast?_eq_some_iff.mp hlast
  rw [IsWhole, Nesting.through?_append, Option.bind_eq_some_iff] at h
  obtain ⟨state, hinit, hlast⟩ := h
  have hsound := Nesting.sound_outside.run? (Nesting.run?_of_through? hinit)
  rw [Nesting.through?_cons, Option.bind_eq_some_iff] at hlast
  obtain ⟨next, hpass, hnext⟩ := hlast
  obtain ⟨hcut, hstep⟩ := Nesting.step?_of_pass? hpass
  rw [Nesting.step?_of_not_mark hsound (by decide)] at hstep
  rw [Option.some.inj hstep, Option.some.inj hnext] at hcut
  revert hcut
  decide

theorem splitTopLevel_of_isWhole {text : List Char} (h : IsWhole text) :
    splitTopLevel ',' text = [text] :=
  Nesting.pieces_of_through? h

theorem isWhole_of_mem_splitTopLevel {text piece : List Char} (h : WellBracketed text)
    (hpiece : piece ∈ splitTopLevel ',' text) : IsWhole piece := by
  obtain ⟨first, others, hpieces, hfirst, hothers⟩ := Nesting.through?_pieces h
  rw [splitTopLevel, hpieces] at hpiece
  rcases List.mem_cons.mp hpiece with rfl | hother
  · exact hfirst
  · exact hothers piece hother

theorem splitTopLevel_append {first : List Char} (h : WellBracketed first) (second : List Char) :
    splitTopLevel ',' (first ++ second) =
      Text.glue (splitTopLevel ',' first) (splitTopLevel ',' second) := by
  rw [splitTopLevel, Text.pieces_append, Nesting.foldl_step_of_run? h]
  rfl

/-- Whole texts put behind commas are cut apart again. -/
theorem splitTopLevel_join {first : List Char} {others : List (List Char)} (hfirst : IsWhole first)
    (hothers : ∀ other ∈ others, IsWhole other) :
    splitTopLevel ',' (Text.join [',', ' '] (first :: others)) =
      first :: others.map (' ' :: ·) := by
  induction others generalizing first with
  | nil => exact splitTopLevel_of_isWhole hfirst
  | cons next rest ih =>
      obtain ⟨hnext, hrest⟩ := List.forall_mem_cons.mp hothers
      have htail : splitTopLevel ',' (',' :: ' ' :: Text.join [',', ' '] (next :: rest)) =
          [] :: (' ' :: next) :: rest.map (' ' :: ·) := by
        rw [splitTopLevel, Text.pieces_cons_of_cut (by decide), Text.pieces_cons (by decide)]
        exact congrArg (fun parts => [] :: Text.glue [[' ']] parts) (ih hnext hrest)
      rw [Text.join_cons_of_ne_nil _ _ (List.cons_ne_nil _ _), List.append_assoc,
        splitTopLevel_append hfirst.wellBracketed, splitTopLevel_of_isWhole hfirst]
      refine (congrArg (Text.glue [first]) htail).trans ?_
      simp [Text.glue]

/-- The text that a closed content stands for is closed. -/
theorem WellBracketed.decodeBracketed {text : List Char} (h : WellBracketed text) :
    WellBracketed (decodeBracketed text) :=
  WellBracketed.trim ((wellBracketed_congr
    (filter_decodeUnderscores (by decide) (by decide) (by decide) text)).mpr h)

end Css

namespace ClassName

theorem toList_escape (name : String) : (escape name).toList = escapeList name.toList :=
  String.toList_ofList

theorem filter_isMark_escapeChar (c : Char) :
    (escapeChar c).filter Css.Nesting.isMark = [c].filter Css.Nesting.isMark := by
  unfold escapeChar
  split
  · rename_i hc
    subst hc
    decide
  split
  · rw [List.filter_cons_of_neg (by decide)]
  · rfl

theorem filter_isMark_flatMap_escapeChar (text : List Char) :
    (text.flatMap escapeChar).filter Css.Nesting.isMark = text.filter Css.Nesting.isMark := by
  induction text with
  | nil => rfl
  | cons c rest ih =>
      rw [List.flatMap_cons, List.filter_append, filter_isMark_escapeChar, ih, ← List.filter_append,
        List.singleton_append]

theorem isMark_of_isDigit {c : Char} (h : c.isDigit = true) : Css.Nesting.isMark c = false := by
  by_contra hmark
  simp only [Css.Nesting.isMark, Css.isQuote, Css.Nesting.opens, Css.Nesting.closes,
    Bool.not_eq_false, Bool.or_eq_true, beq_iff_eq] at hmark
  rcases hmark with ((rfl | rfl) | (rfl | rfl) | rfl) | (rfl | rfl) | rfl <;> cases h

theorem filter_isMark_escapeLead (text : List Char) :
    (escapeLead text).filter Css.Nesting.isMark = text.filter Css.Nesting.isMark := by
  cases text with
  | nil => rfl
  | cons c rest =>
      have hlead : (if c.isDigit then escapeDigit c else escapeChar c).filter Css.Nesting.isMark =
          [c].filter Css.Nesting.isMark := by
        split
        · rename_i hdigit
          have hc : ¬ Css.Nesting.isMark c = true := by simp [isMark_of_isDigit hdigit]
          rw [escapeDigit, List.filter_cons_of_neg (by decide), List.filter_cons_of_neg (by decide),
            List.filter_cons_of_neg hc, List.filter_cons_of_neg hc]
          rfl
        · exact filter_isMark_escapeChar c
      rw [escapeLead, List.filter_append, hlead, filter_isMark_flatMap_escapeChar,
        ← List.filter_append, List.singleton_append]

/-- A name is as closed as it is when escaped. -/
theorem filter_isMark_escapeList (text : List Char) :
    (escapeList text).filter Css.Nesting.isMark = text.filter Css.Nesting.isMark := by
  unfold escapeList
  split
  · rw [List.filter_cons_of_neg (by decide), List.filter_cons_of_neg (by decide),
      filter_isMark_escapeLead]
  · exact filter_isMark_escapeLead text

theorem comma_not_mem_escapeChar (c : Char) : ',' ∉ escapeChar c := by
  unfold escapeChar
  split
  · decide
  · rename_i hc
    split <;> simp [Ne.symm hc]

theorem comma_not_mem_escapeLead (text : List Char) : ',' ∉ escapeLead text := by
  cases text with
  | nil => exact List.not_mem_nil
  | cons c rest =>
      rw [escapeLead, List.mem_append, not_or]
      constructor
      · split
        · rename_i hdigit
          rintro hmem
          simp only [escapeDigit, List.mem_cons, List.not_mem_nil, or_false] at hmem
          rcases hmem with hmem | hmem | rfl | hmem
          · cases hmem
          · cases hmem
          · cases hdigit
          · cases hmem
        · exact comma_not_mem_escapeChar c
      · intro hmem
        obtain ⟨other, -, hother⟩ := List.mem_flatMap.mp hmem
        exact comma_not_mem_escapeChar other hother

theorem comma_not_mem_escapeList (text : List Char) : ',' ∉ escapeList text := by
  unfold escapeList
  split
  · rw [List.mem_cons, not_or]
    exact ⟨by decide, comma_not_mem_escapeLead _⟩
  · exact comma_not_mem_escapeLead text

/-- The selector of a class whose name is closed is not cut. -/
theorem isWhole_escapeList {text : List Char} (h : Css.WellBracketed text) :
    Css.IsWhole ('.' :: escapeList text) := by
  have hdot : Css.IsWhole ['.'] := by decide
  have hescaped : Css.WellBracketed (escapeList text) :=
    (Css.wellBracketed_congr (filter_isMark_escapeList text)).mpr h
  exact hdot.append (Css.isWhole_of_not_mem (comma_not_mem_escapeList text) hescaped)

theorem getLast?_escapeChar {c : Char} (h : c ≠ ',') : (escapeChar c).getLast? = some c := by
  rw [escapeChar, if_neg h]
  split <;> rfl

theorem getLast?_escapeLead {text : List Char} {last : Char} (hlast : text.getLast? = some last)
    (hcomma : last ≠ ',') (hletter : ∃ c ∈ text, c.isDigit = false) :
    (escapeLead text).getLast? = some last := by
  cases text with
  | nil => cases hlast
  | cons first rest =>
      rcases List.eq_nil_or_concat rest with rfl | ⟨init, final, rfl⟩
      · obtain ⟨c, hmem, hdigit⟩ := hletter
        obtain rfl : first = last := Option.some.inj hlast
        cases List.mem_singleton.mp hmem
        simp [escapeLead, hdigit, getLast?_escapeChar hcomma]
      · rw [List.concat_eq_append, ← List.cons_append, List.getLast?_concat] at hlast
        cases hlast
        simp [escapeLead, getLast?_escapeChar hcomma]

/-- An escaped name ends with the last character of the name, unless a comma stands there or the
name is one digit. -/
theorem getLast?_escapeList {text : List Char} {last : Char} (hlast : text.getLast? = some last)
    (hcomma : last ≠ ',') (hletter : ∃ c ∈ text, c ≠ '-' ∧ c.isDigit = false) :
    (escapeList text).getLast? = some last := by
  obtain ⟨c, hmem, hdash, hdigit⟩ := hletter
  unfold escapeList
  split
  · rename_i rest
    have hrest : c ∈ rest := List.mem_of_ne_of_mem hdash hmem
    have hlast : rest.getLast? = some last := by
      rw [← hlast, List.getLast?_cons]
      cases hlist : rest.getLast? with
      | none => simp_all
      | some found => rfl
    rw [List.getLast?_cons, getLast?_escapeLead hlast hcomma ⟨c, hrest, hdigit⟩]
    rfl
  · exact getLast?_escapeLead hlast hcomma ⟨c, hmem, hdigit⟩

end ClassName

end AtomicCss
