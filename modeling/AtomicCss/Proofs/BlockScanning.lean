import AtomicCss.Proofs.NameScanning
import Mathlib.Order.Bounds.Defs

/-!
The two readers of blocks. One follows a text from its start and knows whether a position is at top
level, the other starts at an opening brace and looks for its partner. In a text without comments
both count braces in the same way, so that the first is at top level again where the second ends.
-/

namespace AtomicCss

namespace Text

/-- A character starts before an offset if the text in front of it is shorter. -/
theorem length_lt_charsBeforeByte_iff {before : List Char} {c : Char} {rest : List Char}
    {offset : Nat} :
    before.length < charsBeforeByte offset (before ++ c :: rest) ↔ byteLength before < offset := by
  induction before generalizing offset with
  | nil => cases offset <;> simp [charsBeforeByte]
  | cons d before ih =>
      have hsize := d.utf8Size_pos
      cases offset with
      | zero => simp [charsBeforeByte]
      | succ offset =>
          rw [List.cons_append, charsBeforeByte, List.length_cons, Nat.add_lt_add_iff_right, ih,
            byteLength_cons]
          omega

theorem charsBeforeByte_byteLength (lead rest : List Char) :
    charsBeforeByte (byteLength lead) (lead ++ rest) = lead.length := by
  induction lead with
  | nil => simp [charsBeforeByte]
  | cons c lead ih =>
      have hsize := c.utf8Size_pos
      obtain ⟨size, hsize⟩ : ∃ size, byteLength (c :: lead) = size + 1 :=
        ⟨byteLength (c :: lead) - 1, by rw [byteLength_cons]; omega⟩
      rw [hsize, List.cons_append, charsBeforeByte]
      rw [byteLength_cons] at hsize
      have hrest : size + 1 - c.utf8Size = byteLength lead := by omega
      rw [hrest, ih, List.length_cons]

end Text

namespace Css

namespace Lexical

variable {state : Lexical} {c : Char} {rest lead : List Char}

def view (state : Lexical) : Nat × Quoting :=
  match state.mode with
  | .quoted quoting => (state.depth, quoting)
  | _ => (state.depth, .outside)

/-- The state is outside comments, and what follows does not complete the start of one. -/
def IsClear (state : Lexical) (rest : List Char) : Prop :=
  match state.mode with
  | .code => True
  | .slash => rest.head? ≠ some '*'
  | .comment => False
  | .star => False
  | .quoted quoting => quoting ≠ .outside

theorem isClear_stepCode (h : ¬['/', '*'] <+: c :: rest) (depth : Nat) :
    (stepCode depth c).IsClear rest ∧
      (stepCode depth c).view = Delimiter.braces.advance (depth, .outside) c := by
  rw [stepCode]
  split
  · rename_i hc
    subst hc
    refine ⟨?_, by simp [view, Delimiter.advance, Delimiter.braces, Quoting.step, isQuote]⟩
    intro hstar
    obtain ⟨later, rfl⟩ := List.head?_eq_some_iff.mp hstar
    exact h ⟨later, rfl⟩
  · split
    · rename_i hquote
      exact ⟨by simp [IsClear], by simp [view, Delimiter.advance, Quoting.step, hquote]⟩
    · rename_i hquote
      split
      · rename_i hopening
        rw [hopening]
        exact ⟨trivial, rfl⟩
      · split
        · rename_i hclosing
          rw [hclosing]
          exact ⟨trivial, rfl⟩
        · rename_i hopening hclosing
          refine ⟨trivial, ?_⟩
          simp [view, Delimiter.advance, Delimiter.braces, Quoting.step, hquote, hopening, hclosing]

/-- Outside comments a state steps as the search for a closing brace does. -/
theorem IsClear.step (h : state.IsClear (c :: rest)) (hfree : ¬['/', '*'] <+: c :: rest) :
    (state.step c).IsClear rest ∧
      (state.step c).view = Delimiter.braces.advance state.view c := by
  obtain ⟨depth, mode⟩ := state
  cases mode with
  | code => exact isClear_stepCode hfree depth
  | slash =>
      have hc : c ≠ '*' := fun hc => h (congrArg some hc)
      rw [Lexical.step, if_neg hc]
      exact isClear_stepCode hfree depth
  | comment => exact h.elim
  | star => exact h.elim
  | quoted quoting =>
      have hopen : quoting ≠ .outside := h
      have hadvance : Delimiter.braces.advance (depth, quoting) c = (depth, quoting.step c) := by
        simp [Delimiter.advance, hopen]
      simp only [Lexical.step, view, hadvance]
      cases hstep : quoting.step c with
      | outside => exact ⟨trivial, rfl⟩
      | inside quote => exact ⟨by simp [IsClear], rfl⟩
      | escaped quote => exact ⟨by simp [IsClear], rfl⟩

theorem IsClear.run (h : state.IsClear (lead ++ rest)) (hfree : ¬['/', '*'] <:+: lead ++ rest) :
    (state.run lead).IsClear rest ∧
      (state.run lead).view = lead.foldl Delimiter.braces.advance state.view := by
  induction lead generalizing state with
  | nil => exact ⟨h, rfl⟩
  | cons c lead ih =>
      obtain ⟨hclear, hview⟩ := h.step fun hlead => hfree hlead.isInfix
      rw [run_cons, List.foldl_cons, ← hview]
      exact ih hclear fun hfound => hfree (hfound.trans (List.suffix_cons c _).isInfix)

theorem IsClear.isTop_iff (h : state.IsClear rest) :
    state.isTop rest.head? = true ↔ state.view = (0, .outside) := by
  obtain ⟨depth, mode⟩ := state
  cases mode with
  | code => simp [isTop, view]
  | slash =>
      have hnext : rest.head? ≠ some '*' := h
      simp [isTop, view, hnext]
  | comment => exact h.elim
  | star => exact h.elim
  | quoted quoting =>
      have hopen : quoting ≠ .outside := h
      simp [isTop, view, hopen]

end Lexical

theorem isTopLevel_iff {css : List Char} (h : ¬['/', '*'] <:+: css) (index : Nat) :
    isTopLevel css index = true ↔
      (css.take index).foldl Delimiter.braces.advance (0, .outside) = (0, .outside) := by
  rw [← List.take_append_drop index css] at h
  have hinitial : Lexical.initial.IsClear (css.take index ++ css.drop index) := trivial
  obtain ⟨hclear, hview⟩ := hinitial.run h
  rw [isTopLevel, hclear.isTop_iff, hview]
  rfl

namespace Delimiter

variable {delimiter : Delimiter} {state : Nat × Quoting} {c : Char}
  {text inner after rest : List Char}

theorem spanFrom_cons_eq_none_iff (hproper : delimiter.IsProper) :
    delimiter.spanFrom state.1 state.2 (c :: rest) = none ↔
      delimiter.ends state c = false ∧
        delimiter.spanFrom (delimiter.advance state c).1 (delimiter.advance state c).2 rest =
          none := by
  cases hends : delimiter.ends state c with
  | true => simp [spanFrom_of_ends hproper hends]
  | false => simp [spanFrom_cons hends]

theorem spanFrom_eq_none_of_append (hproper : delimiter.IsProper) (state : Nat × Quoting)
    (h : delimiter.spanFrom state.1 state.2 (text ++ rest) = none) :
    delimiter.spanFrom state.1 state.2 text = none := by
  induction text generalizing state with
  | nil => rfl
  | cons c text ih =>
      rw [List.cons_append, spanFrom_cons_eq_none_iff hproper] at h
      exact (spanFrom_cons_eq_none_iff hproper).mpr ⟨h.1, ih _ h.2⟩

/-- The text in front of the partner holds no partner itself, and all that it opens is closed. -/
theorem of_spanFrom_eq_some (hproper : delimiter.IsProper) (state : Nat × Quoting)
    (h : delimiter.spanFrom state.1 state.2 text = some (inner, after)) :
    delimiter.spanFrom state.1 state.2 inner = none ∧
      inner.foldl delimiter.advance state = (0, .outside) := by
  induction text generalizing state inner with
  | nil => cases h
  | cons c text ih =>
      cases hends : delimiter.ends state c with
      | true =>
          rw [spanFrom_of_ends hproper hends] at h
          cases h
          simp only [ends, Bool.and_eq_true, beq_iff_eq] at hends
          exact ⟨rfl, hends.1⟩
      | false =>
          rw [spanFrom_cons hends] at h
          obtain ⟨⟨later, rest⟩, hlater, heq⟩ := Option.map_eq_some_iff.mp h
          cases heq
          obtain ⟨hnone, hhome⟩ := ih _ hlater
          exact ⟨(spanFrom_cons_eq_none_iff hproper).mpr ⟨hends, hnone⟩, hhome⟩

/-- One more open delimiter makes no difference as long as the outer one is not closed. -/
theorem advance_succ (h : delimiter.ends state c = false) :
    delimiter.advance (state.1 + 1, state.2) c =
      ((delimiter.advance state c).1 + 1, (delimiter.advance state c).2) := by
  obtain ⟨depth, quoting⟩ := state
  simp only [ends, Bool.and_eq_false_iff, beq_eq_false_iff_ne] at h
  simp only [advance]
  split
  · rfl
  · split
    · rfl
    · split
      · cases depth with
        | zero => simp_all
        | succ depth => rfl
      · rfl

theorem foldl_advance_succ (hproper : delimiter.IsProper) (state : Nat × Quoting)
    (h : delimiter.spanFrom state.1 state.2 text = none) :
    text.foldl delimiter.advance (state.1 + 1, state.2) =
      ((text.foldl delimiter.advance state).1 + 1, (text.foldl delimiter.advance state).2) := by
  induction text generalizing state with
  | nil => rfl
  | cons c text ih =>
      obtain ⟨hends, hnone⟩ := (spanFrom_cons_eq_none_iff hproper).mp h
      rw [List.foldl_cons, advance_succ hends, ih _ hnone, List.foldl_cons]

theorem snd_foldl_advance (delimiter : Delimiter) (state : Nat × Quoting) (text : List Char) :
    (text.foldl delimiter.advance state).2 = text.foldl Quoting.step state.2 := by
  induction text generalizing state with
  | nil => rfl
  | cons c text ih => exact ih (delimiter.advance state c)

end Delimiter

/-- The characters of a text that stand outside quotes, if the text starts in this state. -/
def outsideOf : Quoting → List Char → List Char
  | _, [] => []
  | quoting, c :: rest =>
      if quoting = .outside then c :: outsideOf (quoting.step c) rest
      else outsideOf (quoting.step c) rest

/-- A text that starts in this state closes as many braces as it opens. -/
def Balances (quoting : Quoting) (text : List Char) : Prop :=
  (outsideOf quoting text).count '{' = (outsideOf quoting text).count '}'

/-- The braces balance from the byte `start` to the end of the character at the byte `position`. -/
def BalancesAt (css : List Char) (start position : Nat) : Prop :=
  ∃ before inner c after, Text.cutAtByte? start css = some (before, inner ++ c :: after) ∧
    position = start + Text.byteLength inner ∧
    Balances (before.foldl Quoting.step .outside) (inner ++ [c])

theorem outsideOf_append (quoting : Quoting) (first second : List Char) :
    outsideOf quoting (first ++ second) =
      outsideOf quoting first ++ outsideOf (first.foldl Quoting.step quoting) second := by
  induction first generalizing quoting with
  | nil => rfl
  | cons c first ih =>
      rw [List.cons_append, outsideOf, outsideOf, ih, List.foldl_cons]
      split <;> rfl

theorem Delimiter.count_advance {delimiter : Delimiter} (hproper : delimiter.IsProper) {depth : Nat}
    {c : Char} (h : delimiter.ends (depth, .outside) c = false) :
    [c].count delimiter.opening + depth =
      [c].count delimiter.closing + (delimiter.advance (depth, .outside) c).1 := by
  by_cases hopening : c = delimiter.opening
  · subst hopening
    have hclosing : [delimiter.opening].count delimiter.closing = 0 := by
      simp [hproper.apart.symm]
    have hadvance : (delimiter.advance (depth, .outside) delimiter.opening).1 = depth + 1 := by
      simp [advance, hproper.opening]
    rw [List.count_singleton_self, hclosing, hadvance]
    omega
  · by_cases hclosing : c = delimiter.closing
    · subst hclosing
      have hdepth : depth ≠ 0 := by
        rintro rfl
        simp [ends] at h
      have hadvance : (delimiter.advance (depth, .outside) delimiter.closing).1 = depth - 1 := by
        simp [advance, hproper.closing, hopening]
      have hopening' : [delimiter.closing].count delimiter.opening = 0 := by simp [hopening]
      rw [List.count_singleton_self, hopening', hadvance]
      omega
    · simp [advance, hopening, hclosing]

/-- The depth counts what is open. -/
theorem Delimiter.count_outsideOf {delimiter : Delimiter} (hproper : delimiter.IsProper)
    (state : Nat × Quoting) {text : List Char}
    (h : delimiter.spanFrom state.1 state.2 text = none) :
    (outsideOf state.2 text).count delimiter.opening + state.1 =
      (outsideOf state.2 text).count delimiter.closing +
        (text.foldl delimiter.advance state).1 := by
  induction text generalizing state with
  | nil => rfl
  | cons c text ih =>
      obtain ⟨hends, hnone⟩ := (spanFrom_cons_eq_none_iff hproper).mp h
      have hlater := ih _ hnone
      have hquoting : (delimiter.advance state c).2 = state.2.step c := rfl
      rw [hquoting] at hlater
      rw [List.foldl_cons, outsideOf]
      split
      · rename_i houtside
        have hstate : state = (state.1, .outside) := Prod.ext rfl houtside
        have hdepth : [c].count delimiter.opening + state.1 =
            [c].count delimiter.closing + (delimiter.advance state c).1 := by
          rw [hstate] at hends ⊢
          exact count_advance hproper hends
        rw [← List.singleton_append, List.count_append, List.count_append]
        omega
      · rename_i hinside
        have hdepth : (delimiter.advance state c).1 = state.1 := by
          simp [advance, hinside]
        omega

section Block

variable {before rest : List Char}

theorem count_outsideOf_block {lead : List Char} (h : Delimiter.braces.span? lead = none) :
    (outsideOf .outside ('{' :: lead)).count '{' =
      (outsideOf .outside ('{' :: lead)).count '}' +
        (lead.foldl Delimiter.braces.advance (0, .outside)).1 + 1 := by
  have hcount : (outsideOf .outside lead).count '{' + 0 = (outsideOf .outside lead).count '}' +
      (lead.foldl Delimiter.braces.advance (0, .outside)).1 :=
    Delimiter.count_outsideOf Delimiter.isProper_braces (0, .outside) h
  have houtside : outsideOf .outside ('{' :: lead) = '{' :: outsideOf .outside lead := rfl
  rw [houtside, List.count_cons_self, List.count_cons_of_ne (by decide)]
  omega

/-- As long as the block is open, more braces are opened than closed. -/
theorem not_balances {lead after : List Char} {c : Char}
    (h : Delimiter.braces.span? rest = none) (hrest : '{' :: rest = lead ++ c :: after) :
    ¬Balances .outside (lead ++ [c]) := by
  rw [List.append_cons] at hrest
  obtain ⟨hnil, -⟩ | ⟨inner, hinner, rfl⟩ := List.append_eq_cons_iff.mp hrest.symm
  · simp at hnil
  · have hnone := Delimiter.spanFrom_eq_none_of_append Delimiter.isProper_braces (0, .outside) h
    rw [hinner, Balances, count_outsideOf_block hnone]
    omega

theorem span?_take_eq_none (h : Delimiter.braces.span? rest = none) (count : Nat) :
    Delimiter.braces.span? (rest.take count) = none := by
  rw [← List.take_append_drop count rest] at h
  exact Delimiter.spanFrom_eq_none_of_append Delimiter.isProper_braces (0, .outside) h

theorem take_append_cons (c : Char) {index : Nat} (h : before.length < index) :
    (before ++ c :: rest).take index = before ++ c :: rest.take (index - (before.length + 1)) := by
  obtain ⟨more, rfl⟩ := Nat.exists_eq_add_of_lt h
  rw [List.take_append, List.take_of_length_le (by omega), Nat.add_assoc,
    Nat.add_sub_cancel_left, List.take_succ_cons]
  congr 3
  omega

theorem closingOffset?_eq (before rest : List Char) :
    Delimiter.braces.closingOffset? (before ++ '{' :: rest) (Text.byteLength before) =
      some ((Delimiter.braces.span? rest).map fun span =>
        Text.byteLength before + Text.byteLength ('{' :: span.1)) := by
  rw [Delimiter.closingOffset?, Text.cutAtByte?_append, Option.map_some]
  simp [Delimiter.braces, Nat.add_assoc]

variable (hbefore : before.foldl Delimiter.braces.advance (0, .outside) = (0, .outside))

include hbefore

theorem balancesAt_iff {position : Nat} :
    BalancesAt (before ++ '{' :: rest) (Text.byteLength before) position ↔
      ∃ inner c after, '{' :: rest = inner ++ c :: after ∧
        position = Text.byteLength before + Text.byteLength inner ∧
        Balances .outside (inner ++ [c]) := by
  have hquoting : before.foldl Quoting.step .outside = .outside := by
    rw [← Delimiter.snd_foldl_advance .braces (0, .outside), hbefore]
  rw [BalancesAt, Text.cutAtByte?_append]
  constructor
  · rintro ⟨_, inner, c, after, hcut, hposition, hbalances⟩
    obtain ⟨rfl, hrest⟩ := Prod.mk.inj (Option.some.inj hcut)
    rw [hquoting] at hbalances
    exact ⟨inner, c, after, hrest, hposition, hbalances⟩
  · rintro ⟨inner, c, after, hrest, hposition, hbalances⟩
    rw [← hquoting] at hbalances
    exact ⟨before, inner, c, after, by rw [hrest], hposition, hbalances⟩

theorem not_balancesAt (h : Delimiter.braces.span? rest = none) (position : Nat) :
    ¬BalancesAt (before ++ '{' :: rest) (Text.byteLength before) position := by
  rw [balancesAt_iff hbefore]
  rintro ⟨inner, c, after, hrest, -, hbalances⟩
  exact not_balances h hrest hbalances

theorem isLeast_balancesAt {inner after : List Char}
    (h : Delimiter.braces.span? rest = some (inner, after)) :
    IsLeast {position | BalancesAt (before ++ '{' :: rest) (Text.byteLength before) position}
      (Text.byteLength before + Text.byteLength ('{' :: inner)) := by
  obtain ⟨hnone, hhome⟩ :=
    Delimiter.of_spanFrom_eq_some Delimiter.isProper_braces (0, .outside) h
  have hrest : rest = inner ++ '}' :: after := Delimiter.eq_append_of_span? h
  constructor
  · refine (balancesAt_iff hbefore).mpr ⟨'{' :: inner, '}', after, by rw [hrest]; rfl, rfl, ?_⟩
    have hquoting : ('{' :: inner).foldl Quoting.step .outside = .outside := by
      have hsnd := Delimiter.snd_foldl_advance .braces (0, .outside) inner
      rw [hhome] at hsnd
      exact hsnd.symm
    have hblock := count_outsideOf_block hnone
    rw [hhome] at hblock
    rw [Balances, outsideOf_append, hquoting, List.count_append, List.count_append, hblock]
    rfl
  · intro position hposition
    obtain ⟨lead, c, later, hlead, rfl, hbalances⟩ := (balancesAt_iff hbefore).mp hposition
    rw [hrest, ← List.cons_append] at hlead
    rcases List.append_eq_append_iff.mp hlead with ⟨more, rfl, -⟩ | ⟨more, hinner, hmore⟩
    · rw [Text.byteLength_append]
      omega
    · cases more with
      | nil => rw [hinner, List.append_nil]
      | cons d more =>
          cases hmore
          exact (not_balances hnone hinner hbalances).elim

theorem foldl_advance_block {lead : List Char} (hlead : Delimiter.braces.span? lead = none) :
    (before ++ '{' :: lead).foldl Delimiter.braces.advance (0, .outside) =
      ((lead.foldl Delimiter.braces.advance (0, .outside)).1 + 1,
        (lead.foldl Delimiter.braces.advance (0, .outside)).2) := by
  rw [List.foldl_append, hbefore, List.foldl_cons]
  exact Delimiter.foldl_advance_succ Delimiter.isProper_braces (0, .outside) hlead

theorem isTopLevel_eq_false {css lead : List Char} {index : Nat} (hfree : ¬['/', '*'] <:+: css)
    (hlead : Delimiter.braces.span? lead = none) (htake : css.take index = before ++ '{' :: lead) :
    isTopLevel css index = false := by
  rw [Bool.eq_false_iff, ne_eq, isTopLevel_iff hfree, htake, foldl_advance_block hbefore hlead]
  simp

theorem isTopLevelAtByte_eq_false_of_none (hfree : ¬['/', '*'] <:+: before ++ '{' :: rest)
    (h : Delimiter.braces.span? rest = none) {position : Nat}
    (hposition : Text.byteLength before < position) :
    isTopLevelAtByte (before ++ '{' :: rest) position = false := by
  have hindex : before.length < Text.charsBeforeByte position (before ++ '{' :: rest) :=
    Text.length_lt_charsBeforeByte_iff.mpr hposition
  rw [isTopLevelAtByte]
  generalize Text.charsBeforeByte position (before ++ '{' :: rest) = index at hindex ⊢
  exact isTopLevel_eq_false hbefore hfree (span?_take_eq_none h _) (take_append_cons '{' hindex)

/-- A position between a brace and its partner splits the text in front of the partner. -/
theorem isTopLevelAtByte_eq_false_of_le {inner after : List Char}
    (hfree : ¬['/', '*'] <:+: before ++ '{' :: (inner ++ '}' :: after))
    (h : Delimiter.braces.span? inner = none) {position : Nat}
    (hposition : Text.byteLength before < position)
    (hle : position ≤ Text.byteLength before + Text.byteLength ('{' :: inner)) :
    isTopLevelAtByte (before ++ '{' :: (inner ++ '}' :: after)) position = false := by
  have hsplit : before ++ '{' :: (inner ++ '}' :: after) =
      (before ++ '{' :: inner) ++ '}' :: after := by simp
  have hindex : before.length <
      Text.charsBeforeByte position (before ++ '{' :: (inner ++ '}' :: after)) :=
    Text.length_lt_charsBeforeByte_iff.mpr hposition
  have hbound : Text.charsBeforeByte position (before ++ '{' :: (inner ++ '}' :: after)) ≤
      (before ++ '{' :: inner).length := by
    rw [← Nat.not_lt, hsplit, Text.length_lt_charsBeforeByte_iff, Text.byteLength_append]
    omega
  rw [isTopLevelAtByte]
  generalize Text.charsBeforeByte position (before ++ '{' :: (inner ++ '}' :: after)) = index
    at hindex hbound ⊢
  have htake : (before ++ '{' :: (inner ++ '}' :: after)).take index =
      before ++ '{' :: inner.take (index - (before.length + 1)) := by
    rw [hsplit, List.take_append_of_le_length hbound, take_append_cons '{' hindex]
  exact isTopLevel_eq_false hbefore hfree (span?_take_eq_none h _) htake

theorem isTopLevelAtByte_closed {inner after : List Char}
    (hfree : ¬['/', '*'] <:+: before ++ '{' :: (inner ++ '}' :: after))
    (h : Delimiter.braces.span? inner = none)
    (hhome : inner.foldl Delimiter.braces.advance (0, .outside) = (0, .outside)) :
    isTopLevelAtByte (before ++ '{' :: (inner ++ '}' :: after))
      (Text.byteLength before + Text.byteLength ('{' :: inner) + 1) = true := by
  have hsplit : before ++ '{' :: (inner ++ '}' :: after) =
      (before ++ '{' :: inner ++ ['}']) ++ after := by simp
  have hoffset : Text.byteLength before + Text.byteLength ('{' :: inner) + 1 =
      Text.byteLength (before ++ '{' :: inner ++ ['}']) := by
    rw [Text.byteLength_append, Text.byteLength_append]
    rfl
  rw [isTopLevelAtByte, isTopLevel_iff hfree, hoffset, hsplit, Text.charsBeforeByte_byteLength,
    List.take_left, List.foldl_append, foldl_advance_block hbefore h, hhome]
  rfl

end Block

/-- In a text without comments, the search for the partner of a brace at top level ends at the least
position where braces balance, and the text is back at top level right behind it and not before. If
there is no such position, the text does not come back to top level. -/
theorem block_scanners_agree {before rest : List Char}
    (hfree : ¬['/', '*'] <:+: before ++ '{' :: rest)
    (htop : isTopLevelAtByte (before ++ '{' :: rest) (Text.byteLength before) = true) :
    let css := before ++ '{' :: rest
    let opening := Text.byteLength before
    (∃ closing, Delimiter.braces.closingOffset? css opening = some (some closing) ∧
      IsLeast {position | BalancesAt css opening position} closing ∧
      (∀ position, opening < position → position ≤ closing →
        isTopLevelAtByte css position = false) ∧
      isTopLevelAtByte css (closing + 1) = true) ∨
    Delimiter.braces.closingOffset? css opening = some none ∧
      (∀ position, ¬BalancesAt css opening position) ∧
      ∀ position, opening < position → isTopLevelAtByte css position = false := by
  intro css opening
  have hbefore : before.foldl Delimiter.braces.advance (0, .outside) = (0, .outside) := by
    rw [isTopLevelAtByte, isTopLevel_iff hfree, Text.charsBeforeByte_byteLength,
      List.take_left] at htop
    exact htop
  have hclosing : Delimiter.braces.closingOffset? css opening = _ := closingOffset?_eq before rest
  cases hspan : Delimiter.braces.span? rest with
  | none =>
      rw [hspan] at hclosing
      refine .inr ⟨hclosing, not_balancesAt hbefore hspan, ?_⟩
      intro position hposition
      exact isTopLevelAtByte_eq_false_of_none hbefore hfree hspan hposition
  | some span =>
      obtain ⟨inner, after⟩ := span
      obtain ⟨hnone, hhome⟩ :=
        Delimiter.of_spanFrom_eq_some Delimiter.isProper_braces (0, .outside) hspan
      have hrest : rest = inner ++ '}' :: after := Delimiter.eq_append_of_span? hspan
      have hleast := isLeast_balancesAt hbefore hspan
      rw [hspan] at hclosing
      subst hrest
      refine .inl ⟨_, hclosing, hleast, ?_, isTopLevelAtByte_closed hbefore hfree hnone hhome⟩
      intro position hposition hle
      exact isTopLevelAtByte_eq_false_of_le hbefore hfree hnone hposition hle

/-- A block behind a closing brace without a partner, with an escaped quote and a brace in
quotes. -/
theorem block_scanners_agree_quoted :
    let css := "é\x7d".toList ++ '{' :: "a:\"\\\"\x7d\";b\x7b\x7d\x7dc".toList
    ¬['/', '*'] <:+: css ∧ isTopLevelAtByte css 3 = true ∧
      Delimiter.braces.closingOffset? css 3 = some (some 15) ∧
      IsLeast {position | BalancesAt css 3 position} 15 ∧
      (∀ position, 3 < position → position ≤ 15 → isTopLevelAtByte css position = false) ∧
      isTopLevelAtByte css 16 = true := by
  have hfree :
      ¬['/', '*'] <:+: "é\x7d".toList ++ '{' :: "a:\"\\\"\x7d\";b\x7b\x7d\x7dc".toList := by
    decide
  have htop : isTopLevelAtByte ("é\x7d".toList ++ '{' :: "a:\"\\\"\x7d\";b\x7b\x7d\x7dc".toList) 3 =
      true := by decide
  have hclosing : Delimiter.braces.closingOffset?
      ("é\x7d".toList ++ '{' :: "a:\"\\\"\x7d\";b\x7b\x7d\x7dc".toList) 3 = some (some 15) := by
    decide
  rcases block_scanners_agree hfree htop with ⟨closing, hfound, hagree⟩ | ⟨hnone, -⟩
  · cases hclosing.symm.trans hfound
    exact ⟨hfree, htop, hclosing, hagree⟩
  · cases hclosing.symm.trans hnone

end Css

end AtomicCss
