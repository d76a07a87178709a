import AtomicCss.Theme.Reference
import Mathlib.Data.List.Infix

/-!
Replacing in texts, and references whose prefix is taken off again. Two texts are alike if they
cannot be told apart in any context once the prefix is off.
-/

namespace AtomicCss.Text

/-- Writes `replacement` for each occurrence of a target that is not empty, from left to right,
after passing over `skip` characters of an occurrence. -/
def replaceFrom (target replacement : List Char) : (skip : Nat) → List Char → List Char
  | _, [] => []
  | skip + 1, _ :: rest => replaceFrom target replacement skip rest
  | 0, c :: rest =>
      if startsWith target (c :: rest) then
        replacement ++ replaceFrom target replacement (target.length - 1) rest
      else c :: replaceFrom target replacement 0 rest

def replaceAll (target replacement text : List Char) : List Char :=
  replaceFrom target replacement 0 text

section Replace

variable {target replacement first second : List Char}

theorem replaceFrom_eq_replaceAll_drop (skip : Nat) (text : List Char) :
    replaceFrom target replacement skip text =
      replaceAll target replacement (text.drop skip) := by
  induction skip generalizing text with
  | zero => rfl
  | succ skip ih =>
      cases text with
      | nil => rfl
      | cons c rest => exact ih rest

theorem replaceAll_append_target (htarget : target ≠ []) (text : List Char) :
    replaceAll target replacement (target ++ text) =
      replacement ++ replaceAll target replacement text := by
  cases target with
  | nil => exact (htarget rfl).elim
  | cons c rest =>
      have hstarts : startsWith (c :: rest) (c :: (rest ++ text)) = true :=
        List.isPrefixOf_iff_prefix.mpr (List.prefix_append ..)
      rw [List.cons_append, replaceAll, replaceFrom, if_pos hstarts,
        replaceFrom_eq_replaceAll_drop]
      simp

theorem replaceAll_cons_of_not {c : Char} {rest : List Char} (h : ¬ target <+: c :: rest) :
    replaceAll target replacement (c :: rest) =
      c :: replaceAll target replacement rest := by
  have hstarts : ¬ startsWith target (c :: rest) = true :=
    fun hstarts => h (List.isPrefixOf_iff_prefix.mp hstarts)
  rw [replaceAll, replaceFrom, if_neg hstarts]
  rfl

/-- No occurrence of the target that begins before the text reaches into it. -/
def StartsApart (target text : List Char) : Prop :=
  ∀ tail, tail <:+ target → tail ≠ [] → tail ≠ target → ¬ tail <+: text

theorem StartsApart.isPrefix_iff {before text : List Char} (h : StartsApart target text)
    (hbefore : before ≠ []) : target <+: before ++ text ↔ target <+: before := by
  constructor
  · intro htarget
    rcases List.prefix_or_prefix_of_prefix htarget (List.prefix_append before text) with
      hle | ⟨tail, rfl⟩
    · exact hle
    · rw [List.prefix_append_right_inj] at htarget
      by_cases htail : tail = []
      · rw [htail, List.append_nil]
      · have hne : tail ≠ before ++ tail := by
          intro heq
          exact hbefore (List.self_eq_append_left.mp heq)
        exact (h tail (List.suffix_append ..) htail hne htarget).elim
  · intro htarget
    exact htarget.trans (List.prefix_append ..)

theorem replaceAll_append_congr (htarget : target ≠ []) (hfirst : StartsApart target first)
    (hsecond : StartsApart target second)
    (h : replaceAll target replacement first = replaceAll target replacement second)
    (before : List Char) :
    replaceAll target replacement (before ++ first) =
      replaceAll target replacement (before ++ second) := by
  -- The scan leaves `before` at the same place in both texts, at the latest at its end.
  induction hlength : before.length using Nat.strong_induction_on generalizing before with
  | _ length ih =>
      cases before with
      | nil => exact h
      | cons c rest =>
          by_cases hoccurs : target <+: c :: rest
          · obtain ⟨after, hafter⟩ := hoccurs
            rw [← hafter, List.append_assoc, List.append_assoc,
              replaceAll_append_target htarget, replaceAll_append_target htarget]
            congr 1
            apply ih after.length _ _ rfl
            have hpos := List.length_pos_iff.mpr htarget
            rw [← hlength, ← hafter, List.length_append]
            omega
          · have hcons : c :: rest ≠ [] := List.cons_ne_nil _ _
            rw [List.cons_append, List.cons_append, replaceAll_cons_of_not,
              replaceAll_cons_of_not]
            · congr 1
              apply ih rest.length _ _ rfl
              rw [← hlength, List.length_cons]
              omega
            · rw [← List.cons_append, hsecond.isPrefix_iff hcons]
              exact hoccurs
            · rw [← List.cons_append, hfirst.isPrefix_iff hcons]
              exact hoccurs

end Replace

theorem isPrefix_of_not_mem {lead before after : List Char} {c : Char} (hc : c ∉ lead)
    (h : lead <+: before ++ c :: after) : lead <+: before := by
  rcases List.prefix_or_prefix_of_prefix h (List.prefix_append before _) with
    hlead | ⟨tail, rfl⟩
  · exact hlead
  · rw [List.prefix_append_right_inj] at h
    cases tail with
    | nil => rw [List.append_nil]
    | cons d tail =>
        rw [List.cons_prefix_cons] at h
        rw [h.1] at hc
        simp at hc

end AtomicCss.Text

namespace AtomicCss.Theme

def nameLead (namePrefix : String) : List Char :=
  "--".toList ++ namePrefix.toList ++ ['-']

theorem toList_nameLead (namePrefix : String) :
    ("--" ++ namePrefix ++ "-").toList = nameLead namePrefix := by
  simp [nameLead]

/-- Takes the prefix off the references of a text: `var(--prefix-` becomes `var(--`. -/
def dropPrefixChars (namePrefix : String) (text : List Char) : List Char :=
  Text.replaceAll ("var(".toList ++ nameLead namePrefix) "var(--".toList text

def dropPrefix (namePrefix text : String) : String :=
  String.ofList (dropPrefixChars namePrefix text.toList)

variable {namePrefix : String}

theorem isNameChar_of_mem_nameLead (hchars : ∀ c ∈ namePrefix.toList, Css.isNameChar c)
    {c : Char} (hc : c ∈ nameLead namePrefix) : Css.isNameChar c := by
  rw [nameLead, List.mem_append, List.mem_append] at hc
  rcases hc with (hdashes | hname) | hdash
  · have hc : c = '-' := by simpa using hdashes
    rw [hc]
    decide
  · exact hchars c hname
  · rw [List.mem_singleton.mp hdash]
    decide

/-- A reference starts in the middle of no other: it starts with `var`, and what follows the
parenthesis of a reference is one name that ends with a dash. -/
theorem startsApart_var (hchars : ∀ c ∈ namePrefix.toList, Css.isNameChar c) (text : List Char) :
    Text.StartsApart ("var(".toList ++ nameLead namePrefix) ("var(".toList ++ text) := by
  intro tail htail hnil hne hstarts
  have hlead : tail <:+ nameLead namePrefix := by
    simp only [String.reduceToList, List.cons_append, List.nil_append, List.suffix_cons_iff]
      at htail hne
    rcases htail with rfl | rfl | rfl | rfl | hlead
    · exact (hne rfl).elim
    · simp at hstarts
    · simp at hstarts
    · simp at hstarts
    · exact hlead
  have hparen : '(' ∉ tail := by
    intro hmem
    have hname := isNameChar_of_mem_nameLead hchars (hlead.subset hmem)
    exact absurd hname (by decide)
  have hdash : '-' ∈ tail := by
    obtain ⟨front, hfront⟩ := hlead
    have hlast := congrArg List.getLast? hfront
    rw [List.getLast?_append_of_ne_nil _ hnil, nameLead, List.getLast?_concat] at hlast
    exact List.mem_of_getLast? hlast
  have hvar : tail <+: "var".toList := Text.isPrefix_of_not_mem hparen hstarts
  exact absurd (hvar.subset hdash) (by decide)

theorem dropPrefixChars_append_lead (rest : List Char) :
    dropPrefixChars namePrefix ("var(".toList ++ nameLead namePrefix ++ rest) =
      "var(--".toList ++ dropPrefixChars namePrefix rest :=
  Text.replaceAll_append_target (by simp) rest

theorem dropPrefixChars_append_var {rest : List Char}
    (h : ¬ namePrefix.toList ++ ['-'] <+: rest) :
    dropPrefixChars namePrefix ("var(--".toList ++ rest) =
      "var(--".toList ++ dropPrefixChars namePrefix rest := by
  have hlead : ¬ "var(".toList ++ nameLead namePrefix <+: "var(--".toList ++ rest := by
    simpa [nameLead] using h
  simp only [dropPrefixChars, String.reduceToList, List.cons_append, List.nil_append] at hlead ⊢
  rw [Text.replaceAll_cons_of_not hlead]
  iterate 5 rw [Text.replaceAll_cons_of_not (by simp)]

example : dropPrefix "tw" "calc(var(--tw-gap) + var(--two) + --tw-gap)" =
    "calc(var(--gap) + var(--two) + --tw-gap)" := by decide

/-- Two texts that cannot be told apart in any context once the prefix is off. -/
def Alike (namePrefix first second : String) : Prop :=
  ∀ before after : List Char,
    dropPrefixChars namePrefix (before ++ first.toList ++ after) =
      dropPrefixChars namePrefix (before ++ second.toList ++ after)

namespace Alike

variable {first second : String}

theorem surround (h : Alike namePrefix first second) (before after : String) :
    Alike namePrefix (before ++ first ++ after) (before ++ second ++ after) := by
  intro outerBefore outerAfter
  have hinner := h (outerBefore ++ before.toList) (after.toList ++ outerAfter)
  simpa [List.append_assoc] using hinner

theorem dropPrefix_eq (h : Alike namePrefix first second) :
    dropPrefix namePrefix first = dropPrefix namePrefix second := by
  have hchars := h [] []
  rw [List.nil_append, List.append_nil, List.nil_append, List.append_nil] at hchars
  rw [dropPrefix, dropPrefix, hchars]

/-- A reference to a prefixed name is like the one to the plain name, unless the plain name looks
prefixed itself. -/
theorem of_reference (hchars : ∀ c ∈ namePrefix.toList, Css.isNameChar c) {body : List Char}
    (hbody : ¬ namePrefix.toList ++ ['-'] <+: body)
    (hfirst : first.toList = "var(".toList ++ nameLead namePrefix ++ body ++ [')'])
    (hsecond : second.toList = "var(--".toList ++ body ++ [')']) :
    Alike namePrefix first second := by
  intro before after
  have hparen : ')' ∉ namePrefix.toList ++ ['-'] := by
    intro hmem
    rcases List.mem_append.mp hmem with hmem | hmem
    · exact absurd (hchars _ hmem) (by decide)
    · exact absurd hmem (by decide)
  have hrest : ¬ namePrefix.toList ++ ['-'] <+: body ++ ')' :: after :=
    fun h => hbody (Text.isPrefix_of_not_mem hparen h)
  rw [hfirst, hsecond, List.append_assoc, List.append_assoc before]
  apply Text.replaceAll_append_congr (by simp)
  · simpa only [List.append_assoc] using startsApart_var hchars _
  · exact startsApart_var hchars ("--".toList ++ (body ++ [')'] ++ after))
  · have hlead := @dropPrefixChars_append_lead namePrefix (body ++ ')' :: after)
    have hvar := dropPrefixChars_append_var hrest
    simpa [dropPrefixChars, List.append_assoc] using hlead.trans hvar.symm

end Alike

end AtomicCss.Theme
