import AtomicCss.Proofs.Opacity
import AtomicCss.Proofs.PrefixedUtility
import AtomicCss.Proofs.TidyText

/-!
Fractions of a size. A fraction of two numbers below `2 ^ 32` is written as a percentage if it is a
whole one and as a quotient to be computed if not, so that nothing is rounded. A size with a
fraction is this text whatever the theme holds.
-/

namespace AtomicCss

namespace Text

theorem not_mem_of_isDigits {text : List Char} {c : Char} (h : isDigits text = true)
    (hc : c.isDigit = false) : c ∉ text := by
  intro hmem
  have hdigit := List.all_eq_true.mp (Bool.and_eq_true_iff.mp h).2 c hmem
  rw [hc] at hdigit
  cases hdigit

theorem before?_eq_none_of_getLast? {text tail : List Char} {c d : Char}
    (htext : text.getLast? = some c) (htail : tail.getLast? = some d) (hne : c ≠ d) :
    before? tail text = none := by
  rw [Option.eq_none_iff_forall_ne_some]
  intro rest hrest
  rw [eq_append_of_before? hrest, List.getLast?_append, htail] at htext
  exact hne (Option.some.inj htext).symm

end Text

namespace Number.Literal

theorem natOfDigits_eq_ofDigitChars (digits : List Char) :
    natOfDigits digits = Nat.ofDigitChars 10 digits 0 := by
  rw [natOfDigits, Nat.ofDigitChars]
  simp only [Nat.mul_comm]

theorem splitDigits_percent {digits : List Char} (h : ∀ c ∈ digits, c.isDigit = true) :
    splitDigits (digits ++ ['%']) = (digits, [], ['%']) := by
  have hpercent : ['%'].dropWhile Char.isDigit = ['%'] := rfl
  simp only [splitDigits, List.dropWhile_append_of_pos h, hpercent,
    List.takeWhile_append_of_pos h]
  simp

theorem parse?_percent {digits : List Char} (h : Text.isDigits digits = true) :
    parse? (digits ++ ['%']) = none := by
  have hdigits := List.all_eq_true.mp (Bool.and_eq_true_iff.mp h).2
  have hsign : splitSign (digits ++ ['%']) = (false, digits ++ ['%']) := by
    cases digits with
    | nil => cases h
    | cons c rest => exact splitSign_cons_of_isDigit (hdigits c List.mem_cons_self) _
  have hword (word : String) (hpercent : '%' ∉ word.toList) :
      String.ofList ((digits ++ ['%']).map Char.toLower) ≠ word := by
    intro heq
    apply hpercent
    rw [← heq, String.toList_ofList, List.map_append]
    exact List.mem_append_right _ (List.mem_singleton_self '%')
  simp only [parse?, hsign]
  rw [if_neg, if_neg (hword "nan" (by decide)), parseDecimal?, splitDigits_percent hdigits]
  · simp [parseExponent?]
  · rw [Bool.or_eq_true, decide_eq_true_eq, decide_eq_true_eq, not_or]
    exact ⟨hword "inf" (by decide), hword "infinity" (by decide)⟩

end Number.Literal

namespace Utility

theorem word32?_of_isDigits {digits : List Char} (h : Text.isDigits digits = true) :
    word32? digits =
      if Nat.ofDigitChars 10 digits 0 < Nat.pow 2 32 then some (Nat.ofDigitChars 10 digits 0)
      else none := by
  have hplus : Text.after? ['+'] digits = none := by
    apply Text.after?_eq_none
    intro hplus
    exact Text.not_mem_of_isDigits h rfl (hplus.subset (List.mem_singleton_self '+'))
  rw [word32?, hplus, Option.getD_none, h, if_pos rfl, Number.Literal.natOfDigits_eq_ofDigitChars]

def quotientText (numerator denominator : Nat) : String :=
  "calc(" ++ Nat.repr numerator ++ "/" ++ Nat.repr denominator ++ " * 100%)"

def percentageText (numerator denominator : Nat) : String :=
  if 100 * numerator < Nat.pow 2 32 ∧ 100 * numerator % denominator = 0 then
    Nat.repr (100 * numerator / denominator) ++ "%"
  else quotientText numerator denominator

theorem fractionPercentage?_eq {numerator denominator : List Char}
    (hnumerator : Text.isDigits numerator = true)
    (hdenominator : Text.isDigits denominator = true) :
    fractionPercentage? (String.ofList (numerator ++ '/' :: denominator)) =
      let n := Nat.ofDigitChars 10 numerator 0
      let d := Nat.ofDigitChars 10 denominator 0
      if n < Nat.pow 2 32 ∧ d < Nat.pow 2 32 ∧ d ≠ 0 then some (percentageText n d) else none := by
  have hcut : Text.cut? '/' (numerator ++ '/' :: denominator) = some (numerator, denominator) :=
    Text.cut?_append (Text.not_mem_of_isDigits hnumerator rfl) denominator
  simp only [fractionPercentage?, String.toList_ofList, hcut, word32?_of_isDigits hnumerator,
    word32?_of_isDigits hdenominator, Option.bind_eq_bind, Option.bind_some]
  by_cases hn : Nat.ofDigitChars 10 numerator 0 < Nat.pow 2 32
  · by_cases hd : Nat.ofDigitChars 10 denominator 0 < Nat.pow 2 32
    · by_cases hzero : Nat.ofDigitChars 10 denominator 0 = 0
      · rw [if_pos hn, if_pos hd, Option.bind_some, Option.bind_some, if_pos hzero,
          if_neg fun h => h.2.2 hzero]
      · have hall := And.intro hn (And.intro hd hzero)
        rw [if_pos hn, if_pos hd, Option.bind_some, Option.bind_some, if_neg hzero, if_pos hall,
          percentageText]
        split <;> rfl
    · rw [if_pos hn, if_neg hd, Option.bind_some, Option.bind_none, if_neg fun h => hd h.2.1]
  · rw [if_neg hn, Option.bind_none, if_neg fun h => hn h.1]

theorem toList_percent (number : Nat) :
    (Nat.repr number ++ "%").toList = Nat.toDigits 10 number ++ ['%'] := by
  rw [String.toList_append, Nat.toList_repr]
  rfl

theorem isDigits_toDigits (number : Nat) : Text.isDigits (Nat.toDigits 10 number) = true := by
  rw [Text.isDigits, Bool.and_eq_true_iff, Bool.not_eq_true', List.isEmpty_eq_false_iff,
    List.all_eq_true]
  refine ⟨Nat.toDigits_ne_nil, ?_⟩
  intro c hc
  exact Nat.isDigit_of_mem_toDigits (by decide) (by decide) hc

theorem isSignable_percent (number : Nat) : isSignable (Nat.repr number ++ "%") = false := by
  have hnumber := Number.Literal.parse?_percent (isDigits_toDigits number)
  have hpixels : Text.before? "px".toList (Nat.toDigits 10 number ++ ['%']) = none :=
    Text.before?_eq_none_of_getLast? List.getLast?_concat rfl (by decide)
  rw [isSignable, Number.isLiteral, toList_percent, hnumber, hpixels]
  rfl

theorem head?_quotientText (numerator denominator : Nat) :
    (quotientText numerator denominator).toList.head? = some 'c' := by
  simp [quotientText]

theorem quotientText_ne_percent (numerator denominator number : Nat) :
    quotientText numerator denominator ≠ Nat.repr number ++ "%" := by
  intro heq
  have hletter := List.mem_of_head? (head?_quotientText numerator denominator)
  rw [heq, toList_percent] at hletter
  rcases List.mem_append.mp hletter with hdigit | hpercent
  · exact Text.not_mem_of_isDigits (isDigits_toDigits number) rfl hdigit
  · cases List.mem_singleton.mp hpercent

/-- Negative percentages are left to be computed. -/
theorem negate_percentageText (numerator denominator : Nat) :
    negate (percentageText numerator denominator) =
      "calc(" ++ percentageText numerator denominator ++ " * -1)" := by
  have hsignable : isSignable (percentageText numerator denominator) = false := by
    rw [percentageText]
    split
    · exact isSignable_percent _
    · exact isSignable_eq_false (.inr rfl) (head?_quotientText _ _)
  rw [negate, hsignable]
  rfl

section Forms

variable {numerator denominator : Nat}

theorem percentageText_of_dvd
    (h : 100 * numerator < Nat.pow 2 32 ∧ denominator ∣ 100 * numerator) :
    percentageText numerator denominator = Nat.repr (100 * numerator / denominator) ++ "%" := by
  rw [percentageText, if_pos ⟨h.1, Nat.mod_eq_zero_of_dvd h.2⟩]

theorem percentageText_of_not_dvd
    (h : ¬(100 * numerator < Nat.pow 2 32 ∧ denominator ∣ 100 * numerator)) :
    percentageText numerator denominator = quotientText numerator denominator := by
  rw [percentageText, if_neg]
  intro hexact
  exact h ⟨hexact.1, Nat.dvd_of_mod_eq_zero hexact.2⟩

theorem percentageText_eq_percent_iff :
    (∃ quotient, quotient * denominator = 100 * numerator ∧
        percentageText numerator denominator = Nat.repr quotient ++ "%") ↔
      100 * numerator < Nat.pow 2 32 ∧ denominator ∣ 100 * numerator := by
  constructor
  · intro hpercent
    obtain ⟨quotient, -, htext⟩ := hpercent
    by_contra hinexact
    rw [percentageText_of_not_dvd hinexact] at htext
    exact quotientText_ne_percent _ _ _ htext
  · intro hexact
    exact ⟨_, Nat.div_mul_cancel hexact.2, percentageText_of_dvd hexact⟩

theorem percentageText_eq_quotientText_iff :
    percentageText numerator denominator = quotientText numerator denominator ↔
      ¬(100 * numerator < Nat.pow 2 32 ∧ denominator ∣ 100 * numerator) := by
  constructor
  · intro htext hexact
    rw [percentageText_of_dvd hexact] at htext
    exact quotientText_ne_percent _ _ _ htext.symm
  · exact percentageText_of_not_dvd

end Forms

/-- A size with a fraction is nothing but the fraction. -/
theorem resolveSize?_of_fraction {value : Candidate.Value} {fraction : String}
    (h : value.fraction = some fraction) (theme : Theme) (spaces : List String)
    (keywords : List (String × String)) (negative : Bool) :
    resolveSize? theme spaces keywords value negative =
      (fractionPercentage? fraction).map (negateIf negative) := by
  cases value with
  | named text other =>
      cases h
      rfl
  | arbitrary text hint => cases h

/-- A fraction of two numbers in digits has no text only if a number is too large or the denominator
is zero. Its text is a percentage where that is whole and computed without overflow, and else the
quotient of the two numbers. A size that has a fraction is its text, or the negation of it. -/
theorem fractions_are_exact {numerator denominator : List Char}
    (hnumerator : Text.isDigits numerator = true)
    (hdenominator : Text.isDigits denominator = true) :
    let fraction := String.ofList (numerator ++ '/' :: denominator)
    let n := Nat.ofDigitChars 10 numerator 0
    let d := Nat.ofDigitChars 10 denominator 0
    (fractionPercentage? fraction = none ↔
      Nat.pow 2 32 - 1 < n ∨ Nat.pow 2 32 - 1 < d ∨ d = 0) ∧
    (∀ text, fractionPercentage? fraction = some text →
      ((∃ quotient, quotient * d = 100 * n ∧ text = Nat.repr quotient ++ "%") ↔
        100 * n < Nat.pow 2 32 ∧ d ∣ 100 * n) ∧
      (text = "calc(" ++ Nat.repr n ++ "/" ++ Nat.repr d ++ " * 100%)" ↔
        ¬(100 * n < Nat.pow 2 32 ∧ d ∣ 100 * n)) ∧
      negate text = "calc(" ++ text ++ " * -1)") ∧
    ∀ (value : Candidate.Value) (present : String), value.fraction = some present →
      ∀ (theme : Theme) (spaces : List String) (keywords : List (String × String))
        (negative : Bool),
        resolveSize? theme spaces keywords value negative =
          (fractionPercentage? present).map (negateIf negative) := by
  intro fraction n d
  have hvalue : fractionPercentage? fraction =
      if n < Nat.pow 2 32 ∧ d < Nat.pow 2 32 ∧ d ≠ 0 then some (percentageText n d) else none :=
    fractionPercentage?_eq hnumerator hdenominator
  refine ⟨?_, ?_, ?_⟩
  · have hbound : 0 < Nat.pow 2 32 := by decide
    rw [hvalue]
    split
    · simp only [reduceCtorEq, false_iff]
      omega
    · simp only [true_iff]
      omega
  · intro text htext
    rw [hvalue] at htext
    obtain ⟨-, hsome⟩ := Option.ite_none_right_eq_some.mp htext
    cases hsome
    exact ⟨percentageText_eq_percent_iff, percentageText_eq_quotientText_iff,
      negate_percentageText n d⟩
  · intro value present hpresent theme spaces keywords negative
    exact resolveSize?_of_fraction hpresent theme spaces keywords negative

/-- A whole percentage whose numerator is too large by four is left to be computed. -/
theorem fractions_are_exact_overflow :
    Text.isDigits "042949673".toList = true ∧ Text.isDigits "100".toList = true ∧
      100 ∣ 100 * 42949673 ∧
      fractionPercentage? "042949673/100" = some "calc(42949673/100 * 100%)" ∧
      ∀ (theme : Theme) (spaces : List String) (keywords : List (String × String)),
        resolveSize? theme spaces keywords (.named "042949673" (some "042949673/100")) true =
          some "calc(calc(42949673/100 * 100%) * -1)" := by
  have hnumerator : Text.isDigits "042949673".toList = true := by decide
  have hdenominator : Text.isDigits "100".toList = true := by decide
  obtain ⟨hnone, hforms, hsize⟩ := fractions_are_exact hnumerator hdenominator
  have hfraction : String.ofList ("042949673".toList ++ '/' :: "100".toList) = "042949673/100" := by
    decide
  rw [hfraction] at hnone hforms
  cases hvalue : fractionPercentage? "042949673/100" with
  | none => exact absurd (hnone.mp hvalue) (by decide +kernel)
  | some text =>
      obtain ⟨-, hquotient, hnegated⟩ := hforms text hvalue
      have htext : text = "calc(42949673/100 * 100%)" :=
        (hquotient.mpr (by decide +kernel)).trans (by decide +kernel)
      refine ⟨hnumerator, hdenominator, by decide, congrArg some htext, ?_⟩
      intro theme spaces keywords
      rw [hsize _ _ rfl, hvalue, Option.map_some, negateIf, if_pos rfl, hnegated, htext]
      rfl

end Utility

end AtomicCss
