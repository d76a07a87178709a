import AtomicCss.Utility.Color
import Mathlib.Data.List.TakeWhile

/-!
Which modifiers are opacities. A color given by its channels takes a number, others are mixed by
a percentage, and the two readings accept the same modifiers apart from bracketed text that only
mixing can pass on as it stands.
-/

namespace AtomicCss

namespace Number.Literal

variable {text whole fraction : List Char}

theorem splitSign_cons_of_isDigit {c : Char} (hc : c.isDigit = true) (rest : List Char) :
    splitSign (c :: rest) = (false, c :: rest) := by
  unfold splitSign
  split
  · rename_i heq
    rw [(List.cons.inj heq).1] at hc
    cases hc
  · rename_i heq
    rw [(List.cons.inj heq).1] at hc
    cases hc
  · rfl

theorem splitDigits_of_isDigit (h : ∀ c ∈ text, c.isDigit = true) :
    splitDigits text = (text, [], []) := by
  have hnone : text.dropWhile Char.isDigit = [] := List.dropWhile_eq_nil_iff.mpr h
  simp only [splitDigits, hnone, List.takeWhile_eq_self_iff.mpr h]

theorem splitDigits_point (hwhole : ∀ c ∈ whole, c.isDigit = true)
    (hfraction : ∀ c ∈ fraction, c.isDigit = true) :
    splitDigits (whole ++ '.' :: fraction) = (whole, fraction, []) := by
  have hpoint : ('.' :: fraction).dropWhile Char.isDigit = '.' :: fraction := rfl
  have hnone : fraction.dropWhile Char.isDigit = [] := List.dropWhile_eq_nil_iff.mpr hfraction
  simp only [splitDigits, List.dropWhile_append_of_pos hwhole, hpoint,
    List.takeWhile_append_of_pos hwhole, hnone, List.takeWhile_eq_self_iff.mpr hfraction]
  simp

/-- Digits that nothing follows make a number. -/
theorem isSome_parse?_of_splitDigits {c : Char} {rest : List Char} (hc : c.isDigit = true)
    (hwhole : whole ≠ []) (h : splitDigits (c :: rest) = (whole, fraction, [])) :
    (parse? (c :: rest)).isSome = true := by
  simp only [parse?, splitSign_cons_of_isDigit hc]
  split
  · rfl
  · split
    · rfl
    · simp [parseDecimal?, h, hwhole, parseExponent?]

theorem isSome_parse?_of_isDigits (h : Text.isDigits text = true) :
    (parse? text).isSome = true := by
  simp only [Text.isDigits, Bool.and_eq_true, List.all_eq_true] at h
  cases text with
  | nil => simp at h
  | cons c rest =>
      exact isSome_parse?_of_splitDigits (h.2 c List.mem_cons_self) (List.cons_ne_nil c rest)
        (splitDigits_of_isDigit h.2)

theorem isSome_parse?_point (hwhole : Text.isDigits whole = true)
    (hfraction : Text.isDigits fraction = true) :
    (parse? (whole ++ '.' :: fraction)).isSome = true := by
  simp only [Text.isDigits, Bool.and_eq_true, List.all_eq_true] at hwhole hfraction
  cases whole with
  | nil => simp at hwhole
  | cons c rest =>
      exact isSome_parse?_of_splitDigits (hwhole.2 c List.mem_cons_self) (List.cons_ne_nil c rest)
        (splitDigits_point hwhole.2 hfraction.2)

end Number.Literal

theorem Binary64.isSome_parse? (text : String) :
    (parse? text).isSome = Number.isLiteral text :=
  Option.isSome_map

namespace Utility

theorem isLiteral_of_isScaleNumber {text : String} (h : isScaleNumber text = true) :
    Number.isLiteral text = true := by
  unfold isScaleNumber at h
  split at h
  · rename_i whole fraction hcut
    obtain ⟨hwhole, hfraction⟩ := Bool.and_eq_true_iff.mp h
    rw [Number.isLiteral, Text.eq_append_of_cut? hcut]
    exact Number.Literal.isSome_parse?_point hwhole hfraction
  · exact Number.Literal.isSome_parse?_of_isDigits h

end Utility

namespace Candidate.Modifier

/-- A step of the percent scale, or a number or a percentage in brackets. -/
def isOpacity : Modifier → Bool
  | .named text => Utility.isScaleNumber text
  | .arbitrary text =>
      Number.isLiteral (String.ofList ((Text.before? ['%'] text.toList).getD text.toList))

/-- Bracketed text that is no number, but ends like a percentage or starts like a variable. -/
def isVerbatim : Modifier → Bool
  | .named _ => false
  | .arbitrary text =>
      ((Text.before? ['%'] text.toList).isSome || Text.startsWith "var(".toList text.toList) &&
        !isOpacity (.arbitrary text)

end Candidate.Modifier

namespace Utility

open Candidate (Modifier)

theorem isSome_modifierAlpha? (modifier : Modifier) :
    (modifierAlpha? modifier).isSome = modifier.isOpacity := by
  cases modifier with
  | named text =>
      rw [modifierAlpha?, Modifier.isOpacity]
      split
      · rename_i hscale
        rw [Option.isSome_map, Binary64.isSome_parse?, isLiteral_of_isScaleNumber hscale, hscale]
      · rename_i hscale
        rw [Bool.not_eq_true] at hscale
        rw [hscale]
        rfl
  | arbitrary text =>
      rw [modifierAlpha?, Modifier.isOpacity]
      split
      · rename_i percent hpercent
        rw [Option.isSome_map, Binary64.isSome_parse?, hpercent, Option.getD_some]
      · rename_i hpercent
        rw [Option.isSome_map, Binary64.isSome_parse?, hpercent, Option.getD_none,
          String.ofList_toList]

theorem isSome_modifierPercentage? (modifier : Modifier) :
    (modifierPercentage? modifier).isSome = (modifier.isOpacity || modifier.isVerbatim) := by
  cases modifier with
  | named text =>
      rw [modifierPercentage?, Modifier.isOpacity, Modifier.isVerbatim, Bool.or_false]
      split
      · rename_i hscale
        exact hscale.symm
      · rename_i hscale
        exact (Bool.not_eq_true _ ▸ hscale).symm
  | arbitrary text =>
      rw [modifierPercentage?, Modifier.isVerbatim]
      cases hpercent : Text.before? ['%'] text.toList with
      | some percent => simp
      | none =>
          cases hvariable : Text.startsWith "var(".toList text.toList with
          | true => simp
          | false =>
              simp [Modifier.isOpacity, hpercent, Binary64.isSome_parse?]

/-- The keywords that take no opacity: transparency, and whatever the parent has. -/
def Color.isFixed : Color → Bool
  | .keyword .transparent => true
  | .keyword .inherit => true
  | _ => false

/-- Whether a color can be set with a modifier. -/
def Color.admits (color : Color) (modifier : Modifier) : Bool :=
  match color with
  | .rgb _ _ _ _ => modifier.isOpacity
  | color => color.isFixed || modifier.isOpacity || modifier.isVerbatim

theorem isSome_colorDeclarations? (properties : List String) (color : Color) (modifier : Modifier)
    (opacityKey internalPrefix : String) :
    (colorDeclarations? properties color (some modifier) opacityKey internalPrefix).isSome =
      color.admits modifier := by
  have hmixed (text : String) :
      (mixColor? text (some modifier)).isSome = (modifier.isOpacity || modifier.isVerbatim) := by
    rw [mixColor?, Option.isSome_map, isSome_modifierPercentage?]
  cases color with
  | rgb red green blue alpha =>
      rw [colorDeclarations?, Option.isSome_map, channelAlpha?, isSome_modifierAlpha?]
      rfl
  | keyword keyword =>
      cases keyword with
      | current => rw [colorDeclarations?, Option.isSome_map, hmixed]; rfl
      | transparent => rfl
      | inherit => rfl
  | themed reference => rw [colorDeclarations?, Option.isSome_map, hmixed]; rfl
  | literal text => rw [colorDeclarations?, Option.isSome_map, hmixed]; rfl

section Admits

variable {modifier : Modifier}

theorem Color.admits_of_isOpacity (h : modifier.isOpacity = true) (color : Color) :
    color.admits modifier = true := by
  cases color with
  | rgb red green blue alpha => exact h
  | _ => simp [Color.admits, h]

theorem Color.admits_of_isFixed {color : Color} (h : color.isFixed = true) :
    color.admits modifier = true := by
  cases color with
  | rgb red green blue alpha => cases h
  | _ => simp [Color.admits, h]

theorem admits_congr_iff :
    (∀ color other : Color, color.admits modifier = other.admits modifier) ↔
      modifier.isOpacity = true := by
  constructor
  · intro h
    have hfixed : (Color.keyword .transparent).admits modifier = true :=
      Color.admits_of_isFixed rfl
    rwa [h _ (.rgb 0 0 0 none)] at hfixed
  · intro hopacity color other
    rw [color.admits_of_isOpacity hopacity, other.admits_of_isOpacity hopacity]

theorem not_isOpacity_of_isVerbatim (h : modifier.isVerbatim = true) :
    modifier.isOpacity = false := by
  cases modifier with
  | named text => cases h
  | arbitrary text => exact Bool.not_eq_true' _ ▸ (Bool.and_eq_true_iff.mp h).2

theorem admits_congr_iff_of_not_isFixed :
    (∀ color other : Color, color.isFixed = false → other.isFixed = false →
      color.admits modifier = other.admits modifier) ↔ modifier.isVerbatim = false := by
  constructor
  · intro h
    cases hverbatim : modifier.isVerbatim with
    | false => rfl
    | true =>
        have hmixed : (Color.literal "").admits modifier = true := by
          simp [Color.admits, hverbatim]
        rw [h _ (.rgb 0 0 0 none) rfl rfl, Color.admits,
          not_isOpacity_of_isVerbatim hverbatim] at hmixed
        cases hmixed
  · intro hverbatim
    have hopacity (color : Color) (hcolor : color.isFixed = false) :
        color.admits modifier = modifier.isOpacity := by
      cases color with
      | rgb red green blue alpha => rfl
      | _ => simp [Color.admits, hcolor, hverbatim]
    intro color other hcolor hother
    rw [hopacity color hcolor, hopacity other hother]

end Admits

/-- Setting a color with a modifier succeeds exactly for the modifiers that the color admits. All
colors agree about a modifier if it is an opacity and not otherwise, and the colors that take an
opacity agree about it unless it is text that only mixing can pass on. -/
theorem opacity_acceptance_by_color (modifier : Modifier) (properties : List String)
    (opacityKey internalPrefix : String) :
    let accepts (color : Color) : Bool :=
      (colorDeclarations? properties color (some modifier) opacityKey internalPrefix).isSome
    (∀ color, accepts color = color.admits modifier) ∧
      ((∀ color other, accepts color = accepts other) ↔ modifier.isOpacity = true) ∧
      ((∀ color other, color.isFixed = false → other.isFixed = false →
          accepts color = accepts other) ↔ modifier.isVerbatim = false) := by
  intro accepts
  have haccepts (color : Color) : accepts color = color.admits modifier :=
    isSome_colorDeclarations? ..
  simp only [haccepts]
  exact ⟨fun _ => trivial, admits_congr_iff, admits_congr_iff_of_not_isFixed⟩

/-- A word is no opacity, but goes with `transparent`. A variable and a percentage without a number
go with colors that are mixed, but not with one given by its channels. -/
theorem opacity_depends_on_color :
    let accepts (color : Color) (modifier : Modifier) : Bool :=
      (colorDeclarations? ["color"] color (some modifier) "text" "monorail").isSome
    accepts (.keyword .transparent) (.named "half") = true ∧
      accepts (.themed "var(--color-red)") (.named "half") = false ∧
      accepts (.themed "var(--color-red)") (.arbitrary "var(--dim)") = true ∧
      accepts (.rgb 255 0 0 none) (.arbitrary "var(--dim)") = false ∧
      accepts (.literal "red") (.arbitrary "half%") = true ∧
      accepts (.rgb 255 0 0 none) (.arbitrary "half%") = false := by
  decide

end Utility

end AtomicCss
