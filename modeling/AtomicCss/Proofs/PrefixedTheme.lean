import AtomicCss.Proofs.References
import AtomicCss.Utility.Custom
import AtomicCss.Variant.Standard

/-!
A theme with and without a name prefix. Both hold the same tokens, so all that reads values is the
same for both; references are alike.
-/

namespace AtomicCss

namespace Theme

theorem keyOf_mem_of_contains {theme : Theme} {name : String}
    (h : theme.contains name = true) : keyOf name ∈ theme.values.keys :=
  Dictionary.mem_keys_of_contains h

theorem keyOf_mem_of_resolveKey? {theme : Theme} {name : Option String} {spaces : List String}
    {key : String} (h : theme.resolveKey? name spaces = some key) :
    keyOf key ∈ theme.values.keys := by
  have hfound {keys : List String} (h : keys.find? theme.values.contains = some key) :
      keyOf key ∈ theme.values.keys := by
    have hkey := Dictionary.mem_keys_of_contains (List.find?_some h)
    rwa [theme.keyOf_eq key hkey]
  cases name with
  | none => exact hfound h
  | some name =>
      rw [resolveKey?] at h
      split at h
      · split at h
        · rename_i hname
          cases h
          rw [keyOf_keyOf]
          exact keyOf_mem_of_contains hname
        · cases h
      · exact hfound h

/-- The prefix is a name without dashes at its ends, and no token looks as if it had the prefix. -/
structure IsFreshPrefix (theme : Theme) (namePrefix : String) : Prop where
  isNameChar : ∀ c ∈ namePrefix.toList, Css.isNameChar c
  head_ne : namePrefix.toList.head? ≠ some '-'
  last_ne : namePrefix.toList.getLast? ≠ some '-'
  not_in_key : ∀ entry ∈ theme.entries, ¬ nameLead namePrefix <:+: entry.1.toList
  not_in_value : ∀ entry ∈ theme.entries, ¬ nameLead namePrefix <:+: entry.2.toList

/-- Two themes with the same tokens, of which the second writes them out with the prefix. -/
structure Renames (namePrefix : String) (plain prefixed : Theme) : Prop where
  values_eq : prefixed.values = plain.values
  plain_eq : plain.namePrefix = none
  prefixed_eq : prefixed.namePrefix = some namePrefix
  fresh : plain.IsFreshPrefix namePrefix

namespace Renames

variable {namePrefix : String} {plain prefixed : Theme}

theorem get?_eq (h : Renames namePrefix plain prefixed) (name : String) :
    prefixed.get? name = plain.get? name := by
  rw [get?, get?, h.values_eq]

theorem contains_eq (h : Renames namePrefix plain prefixed) (name : String) :
    prefixed.contains name = plain.contains name := by
  rw [contains, contains, h.get?_eq]

theorem namesIn_eq (h : Renames namePrefix plain prefixed) (space : String) :
    prefixed.namesIn space = plain.namesIn space := by
  rw [namesIn, namesIn, restsAfter, restsAfter, h.values_eq]

theorem resolveKey?_eq (h : Renames namePrefix plain prefixed) (name : Option String)
    (spaces : List String) :
    prefixed.resolveKey? name spaces = plain.resolveKey? name spaces := by
  simp only [resolveKey?, h.contains_eq, h.values_eq]

theorem resolveValue?_eq (h : Renames namePrefix plain prefixed) (name : Option String)
    (spaces : List String) :
    prefixed.resolveValue? name spaces = plain.resolveValue? name spaces := by
  rw [resolveValue?, resolveValue?, h.resolveKey?_eq, h.values_eq]

/-- A value holds no name with the prefix. -/
theorem not_in_value_of_get? (h : Renames namePrefix plain prefixed) {name value : String}
    (hvalue : plain.get? name = some value) :
    ¬ nameLead namePrefix <:+: value.toList :=
  h.fresh.not_in_value _ (Dictionary.mem_entries_of_get? hvalue)

theorem lookupVar?_plain (h : Renames namePrefix plain prefixed) (name : String) :
    plain.lookupVar? name = plain.get? name := by
  rw [lookupVar?, h.plain_eq]
  rfl

theorem lookupVar?_prefixed (h : Renames namePrefix plain prefixed) {name : String}
    (hname : ¬ nameLead namePrefix <:+: name.toList) :
    prefixed.lookupVar? name = plain.get? name := by
  have hafter : Text.after? ("--" ++ namePrefix ++ "-").toList name.toList = none := by
    rw [Option.eq_none_iff_forall_ne_some]
    intro rest hrest
    apply hname
    rw [Text.eq_append_of_after? hrest, toList_nameLead]
    exact (List.prefix_append _ _).isInfix
  rw [lookupVar?, h.prefixed_eq, h.get?_eq]
  simp only [Option.bind_eq_bind, Option.bind_some, hafter, Option.bind_none]
  rfl

theorem inlineChars_eq (h : Renames namePrefix plain prefixed) (depth : Nat)
    {text : List Char} (htext : ¬ nameLead namePrefix <:+: text) :
    prefixed.inlineChars depth text = plain.inlineChars depth text := by
  induction depth generalizing text with
  | zero => rfl
  | succ depth ih =>
      rw [inlineChars, inlineChars]
      apply Css.mapVars_congr
      intro inner hmem
      have hinner := Css.infix_of_mem_fragments hmem
      have hname : ¬ nameLead namePrefix <:+: (Css.varParts inner).1 := fun hlead =>
        htext ((hlead.trans (Css.varParts_name_infix inner)).trans hinner)
      simp only
      rw [h.lookupVar?_prefixed (by simpa using hname), h.lookupVar?_plain]
      cases hvalue : plain.get? (String.ofList (Css.varParts inner).1) with
      | some value => exact ih (h.not_in_value_of_get? hvalue)
      | none =>
          cases hfallback : (Css.varParts inner).2 with
          | none => rfl
          | some fallback =>
              apply ih
              intro hlead
              apply htext
              exact ((hlead.trans (Text.trim_infix fallback)).trans
                (Css.varParts_fallback_infix hfallback)).trans hinner

theorem inline_eq (h : Renames namePrefix plain prefixed) (depth : Nat) {text : String}
    (htext : ¬ nameLead namePrefix <:+: text.toList) :
    prefixed.inline depth text = plain.inline depth text := by
  rw [inline, inline, h.inlineChars_eq depth htext]

theorem varRef_alike (h : Renames namePrefix plain prefixed) {name : String}
    (hname : keyOf name ∈ plain.values.keys) :
    Alike namePrefix (prefixed.varRef name) (plain.varRef name) := by
  have hbody : ¬ namePrefix.toList ++ ['-'] <+: keyBody name := by
    obtain ⟨entry, hentry, hkey⟩ := List.mem_map.mp hname
    have hlead := h.fresh.not_in_key entry hentry
    rw [hkey, toList_keyOf] at hlead
    intro hbody
    apply hlead
    rw [nameLead, List.append_assoc]
    exact List.IsPrefix.isInfix (by simpa using hbody)
  apply Alike.of_reference h.fresh.isNameChar hbody
  · rw [toList_varRef, toList_varName, h.prefixed_eq]
    simp [nameLead]
  · rw [toList_varRef, toList_varName, h.plain_eq]
    rfl

end Renames

section WithPrefix

variable {theme : Theme} {namePrefix : String}

theorem namePrefix_withPrefix (hfresh : theme.IsFreshPrefix namePrefix) (hne : namePrefix ≠ "") :
    (theme.withPrefix namePrefix).namePrefix = some namePrefix := by
  have hhead : namePrefix.toList.dropWhile (· == '-') = namePrefix.toList := by
    apply dropWhile_eq_self
    intro c hc
    have hc' : c ≠ '-' := fun h => hfresh.head_ne (h ▸ hc)
    simpa using hc'
  have hlast : namePrefix.toList.reverse.dropWhile (· == '-') = namePrefix.toList.reverse := by
    apply dropWhile_eq_self
    intro c hc
    rw [List.head?_reverse] at hc
    have hc' : c ≠ '-' := fun h => hfresh.last_ne (h ▸ hc)
    simpa using hc'
  simp only [withPrefix, trim_of_isNameChar hfresh.isNameChar, hhead, hlast,
    List.reverse_reverse, String.ofList_toList]
  rw [if_neg]
  simpa using hne

theorem renames_withPrefix (hplain : theme.namePrefix = none)
    (hfresh : theme.IsFreshPrefix namePrefix) (hne : namePrefix ≠ "") :
    Renames namePrefix theme (theme.withPrefix namePrefix) where
  values_eq := by rw [withPrefix]
  plain_eq := hplain
  prefixed_eq := namePrefix_withPrefix hfresh hne
  fresh := hfresh

theorem withPrefix_empty (hplain : theme.namePrefix = none) : theme.withPrefix "" = theme := by
  cases theme
  cases hplain
  rfl

end WithPrefix

section Readers

variable {namePrefix : String} {plain prefixed : Theme}

namespace Renames

theorem width?_eq (h : Renames namePrefix plain prefixed) (space : String)
    (value : Variant.Value) :
    Variant.width? prefixed space value = Variant.width? plain space value := by
  cases value with
  | arbitrary content => rfl
  | named name =>
      simp only [Variant.width?, h.resolveValue?_eq]
      apply Option.bind_congr
      intro width hwidth
      obtain ⟨key, -, hkey⟩ := Option.bind_eq_some_iff.mp hwidth
      have hlead := h.fresh.not_in_value _ (Dictionary.mem_entries_of_get? hkey)
      rw [h.inline_eq _ hlead]

theorem responsiveTest?_eq (h : Renames namePrefix plain prefixed) :
    Variant.responsiveTest? prefixed = Variant.responsiveTest? plain := by
  funext token
  rw [Variant.responsiveTest?, Variant.responsiveTest?, Variant.breakpoints, h.namesIn_eq]
  rfl

theorem responsiveWeight_eq (h : Renames namePrefix plain prefixed) :
    Variant.responsiveWeight prefixed = Variant.responsiveWeight plain := by
  funext token
  simp only [Variant.responsiveWeight, Variant.breakpoints, h.namesIn_eq]

theorem containerWeight_eq (h : Renames namePrefix plain prefixed) :
    Variant.containerWeight prefixed = Variant.containerWeight plain := by
  funext token
  simp only [Variant.containerWeight, h.namesIn_eq]

/-- Variants read values of tokens only, so that they do not see the prefix. -/
theorem standardFamilies_eq (h : Renames namePrefix plain prefixed) :
    Variant.standardFamilies prefixed = Variant.standardFamilies plain := by
  funext darkMode internalPrefix
  simp only [Variant.standardFamilies, Variant.responsiveFamily, Variant.containerFamily,
    h.responsiveTest?_eq, h.responsiveWeight_eq, h.containerWeight_eq, h.width?_eq]

open Utility.Custom

theorem themeValue?_eq (h : Renames namePrefix plain prefixed) :
    themeValue? prefixed = themeValue? plain := by
  funext template capture
  simp only [themeValue?, h.get?_eq]
  apply Option.map_congr
  intro value hvalue
  exact h.inline_eq _ (h.not_in_value_of_get? hvalue)

/-- User-defined utilities write values of tokens, not references. -/
theorem compileWildcard?_eq (h : Renames namePrefix plain prefixed)
    (definition : Utility.Definition) (candidate : Candidate) :
    compileWildcard? definition candidate prefixed =
      compileWildcard? definition candidate plain := by
  have hargument : argumentValue? prefixed = argumentValue? plain := by
    funext arbitrary capture argument
    simp only [argumentValue?, h.themeValue?_eq]
  have hfunction : functionValue? prefixed = functionValue? plain := by
    funext arbitrary capture arguments
    simp only [functionValue?, hargument]
  have hsubstitute : substituteAll? prefixed = substituteAll? plain := by
    funext captures declarations
    simp only [substituteAll?, substitute?, hfunction]
  simp only [compileWildcard?, hsubstitute]

end Renames

end Readers

end Theme

end AtomicCss
