import AtomicCss.Proofs.Renaming
import AtomicCss.Text.Word
import Mathlib.Data.List.Basic

/-!
How references are read off a text. A text is a list of fragments, characters and references;
replacing its references changes these and keeps all other fragments. What a reference stands for
is a value or a fallback, and inlining writes that, one depth further down.
-/

namespace AtomicCss

namespace Css

section MapVars

variable {change : List Char → List Char} {text opened : List Char}

theorem mapVars_of_span? {inner after : List Char}
    (hvar : Text.after? "var(".toList text = some opened)
    (hspan : Delimiter.parens.span? opened = some (inner, after)) :
    mapVars change text = change inner ++ mapVars change after := by
  rw [mapVars]
  grind

theorem mapVars_of_unclosed (hvar : Text.after? "var(".toList text = some opened)
    (hspan : Delimiter.parens.span? opened = none) : mapVars change text = text := by
  rw [mapVars]
  grind

theorem mapVars_nil : mapVars change [] = [] := by
  rw [mapVars]
  rfl

theorem mapVars_cons {c : Char} (hvar : Text.after? "var(".toList (c :: text) = none) :
    mapVars change (c :: text) = c :: mapVars change text := by
  rw [mapVars]
  grind

end MapVars

/-- A character, or a reference with what stands between its parentheses. -/
inductive Fragment where
  | char (c : Char)
  | reference (inner : List Char)
  deriving DecidableEq, Repr

/-- A text from left to right. What follows a `var(` that is not closed holds no reference. -/
def fragments (text : List Char) : List Fragment :=
  match _hvar : Text.after? "var(".toList text with
  | some opened =>
      match _hspan : Delimiter.parens.span? opened with
      | some (inner, after) => .reference inner :: fragments after
      | none => text.map .char
  | none =>
      match text with
      | [] => []
      | c :: rest => .char c :: fragments rest
termination_by text.length
decreasing_by
  · have hvar := Text.length_lt_of_after? (by decide) _hvar
    have hspan := Delimiter.length_lt_of_span? _hspan
    omega
  · simp

def Fragment.write (change : List Char → List Char) : Fragment → List Char
  | .char c => [c]
  | .reference inner => change inner

def reference (inner : List Char) : List Char :=
  'v' :: 'a' :: 'r' :: '(' :: (inner ++ [')'])

theorem flatMap_write_char (change : List Char → List Char) (text : List Char) :
    (text.map Fragment.char).flatMap (Fragment.write change) = text := by
  rw [List.flatMap_map]
  exact List.flatMap_singleton' text

theorem mapVars_eq_flatMap (change : List Char → List Char) (text : List Char) :
    mapVars change text = (fragments text).flatMap (Fragment.write change) := by
  fun_induction fragments text with
  | case1 text opened hvar inner after hspan ih =>
      rw [mapVars_of_span? hvar hspan, ih]
      rfl
  | case2 text opened hvar hspan =>
      rw [mapVars_of_unclosed hvar hspan, flatMap_write_char]
  | case3 => rw [mapVars_nil, List.flatMap_nil]
  | case4 c rest hvar ih =>
      rw [mapVars_cons hvar, ih]
      rfl

theorem flatMap_write_reference (text : List Char) :
    (fragments text).flatMap (Fragment.write reference) = text := by
  fun_induction fragments text with
  | case1 text opened hvar inner after hspan ih =>
      rw [List.flatMap_cons, ih, Text.eq_append_of_after? hvar,
        Delimiter.eq_append_of_span? hspan]
      simp [Fragment.write, reference, Delimiter.parens]
  | case2 text => exact flatMap_write_char reference text
  | case3 => rfl
  | case4 c rest hvar ih =>
      rw [List.flatMap_cons, ih]
      rfl

theorem exists_span?_of_mem_fragments {text inner : List Char}
    (h : .reference inner ∈ fragments text) :
    ∃ opened after, Delimiter.parens.span? opened = some (inner, after) := by
  fun_induction fragments text with
  | case1 text opened hvar found after hspan ih =>
      rcases List.mem_cons.mp h with heq | hlater
      · cases heq
        exact ⟨opened, after, hspan⟩
      · exact ih hlater
  | case2 text opened hvar hspan => simp at h
  | case3 => cases h
  | case4 c rest hvar ih =>
      rcases List.mem_cons.mp h with heq | hlater
      · cases heq
      · exact ih hlater

section Fragments

variable {change other : List Char → List Char} {text inner : List Char}

theorem infix_mapVars (change : List Char → List Char) (h : .reference inner ∈ fragments text) :
    change inner <:+: mapVars change text := by
  rw [mapVars_eq_flatMap]
  exact List.infix_of_mem_flatten (List.mem_map_of_mem h)

theorem infix_reference (h : .reference inner ∈ fragments text) : reference inner <:+: text := by
  have hinfix := infix_mapVars reference h
  rwa [mapVars_eq_flatMap, flatMap_write_reference] at hinfix

theorem infix_of_mem_fragments (h : .reference inner ∈ fragments text) : inner <:+: text := by
  have hinner : inner <:+: reference inner := ⟨['v', 'a', 'r', '('], [')'], by simp [reference]⟩
  exact hinner.trans (infix_reference h)

theorem length_lt_of_mem_fragments (h : .reference inner ∈ fragments text) :
    inner.length < text.length := by
  have hlength := (infix_reference h).length_le
  simp only [reference, List.length_cons, List.length_append] at hlength
  omega

theorem mapVars_congr
    (h : ∀ inner, .reference inner ∈ fragments text → change inner = other inner) :
    mapVars change text = mapVars other text := by
  rw [mapVars_eq_flatMap, mapVars_eq_flatMap]
  apply List.flatMap_congr
  intro fragment hfragment
  cases fragment with
  | char c => rfl
  | reference inner => exact h inner hfragment

theorem var_infix_reference (inner : List Char) : "var(".toList <:+: reference inner :=
  ⟨[], inner ++ [')'], by simp [reference]⟩

theorem mapVars_eq_self (h : ¬"var(".toList <:+: text) : mapVars change text = text := by
  have hnone : ∀ inner, .reference inner ∈ fragments text → change inner = reference inner := by
    intro inner hinner
    exact (h ((var_infix_reference inner).trans (infix_reference hinner))).elim
  rw [mapVars_congr hnone, mapVars_eq_flatMap, flatMap_write_reference]

end Fragments

theorem varParts_name_infix (inner : List Char) : (varParts inner).1 <:+: inner := by
  have hjoin := join_splitTopLevel ',' inner
  rw [varParts]
  split
  · exact List.nil_infix
  · rename_i name hsplit
    rw [hsplit] at hjoin
    exact hjoin ▸ Text.trim_infix name
  · rename_i name fallback hfallback hsplit
    rw [hsplit, Text.join_cons_of_ne_nil _ _ hfallback, List.append_assoc] at hjoin
    have hname : name <+: inner := ⟨_, hjoin⟩
    exact (Text.trim_infix name).trans hname.isInfix

theorem varParts_fallback_infix {inner fallback : List Char}
    (h : (varParts inner).2 = some fallback) : fallback <:+: inner := by
  have hjoin := join_splitTopLevel ',' inner
  rw [varParts] at h
  split at h
  · cases h
  · cases h
  · rename_i name rest hrest hsplit
    cases h
    rw [hsplit, Text.join_cons_of_ne_nil _ _ hrest] at hjoin
    have hsuffix : Text.join [','] rest <:+ inner := ⟨_, hjoin⟩
    exact hsuffix.isInfix

end Css

namespace Theme

variable {theme : Theme}

theorem isNameChar_dashes : ∀ c ∈ ['-', '-'], Css.isNameChar c := by
  simp [Css.isNameChar]

theorem isBlank_eq_false_of_isNameChar {c : Char} (h : Css.isNameChar c) :
    Text.isBlank c = false := by
  simp only [Css.isNameChar, Bool.or_eq_true, beq_iff_eq] at h
  rcases h with (hcode | rfl) | rfl
  · have hrange := Text.toNat_of_isAlphanum hcode
    simp only [Text.isBlank, Bool.or_eq_false_iff, Bool.and_eq_false_iff,
      decide_eq_false_iff_not, beq_eq_false_iff_ne]
    omega
  · decide
  · decide

theorem dropWhile_eq_self {drops : Char → Bool} {text : List Char}
    (h : ∀ c, text.head? = some c → drops c = false) : text.dropWhile drops = text := by
  cases text with
  | nil => rfl
  | cons c rest =>
      apply List.dropWhile_cons_of_neg
      rw [h c rfl]
      exact Bool.false_ne_true

theorem trim_of_isNameChar {text : List Char} (h : ∀ c ∈ text, Css.isNameChar c) :
    Text.trim text = text := by
  have hblank : ∀ c ∈ text, Text.isBlank c = false :=
    fun c hc => isBlank_eq_false_of_isNameChar (h c hc)
  have hstart : Text.trimStart text = text :=
    dropWhile_eq_self fun c hc => hblank c (List.mem_of_head? hc)
  rw [Text.trim, hstart]
  apply Text.trimEnd_eq_self
  intro c hc
  exact hblank c (List.mem_of_getLast? hc)

theorem replaceChar_of_isNameChar {text : List Char} (h : ∀ c ∈ text, Css.isNameChar c) :
    Text.replaceChar '.' ['_'] text = text := by
  have hdot : ∀ c ∈ text, (if c = '.' then '_' else c) = id c := by
    intro c hc
    apply if_neg
    rintro rfl
    exact absurd (h '.' hc) (by decide)
  rw [Text.replaceChar_singleton, List.map_congr_left hdot, List.map_id]

/-- The start of a name is kept in its key. -/
theorem keyBody_append {lead : List Char} (h : ∀ c ∈ lead, Css.isNameChar c) (rest : List Char) :
    keyBody ("--" ++ String.ofList (lead ++ rest)) =
      lead ++ Text.replaceChar '.' ['_'] (Text.trimEnd rest) := by
  have hname : ∀ c ∈ '-' :: '-' :: lead, Css.isNameChar c := by
    simpa using ⟨by decide, h⟩
  have hstart : Text.trimStart ('-' :: '-' :: (lead ++ rest)) = '-' :: '-' :: (lead ++ rest) :=
    List.dropWhile_cons_of_neg (by decide)
  obtain ⟨last, hlast⟩ : ∃ last, ('-' :: '-' :: lead).getLast? = some last :=
    Option.isSome_iff_exists.mp (by simp)
  have hblank : Text.isBlank last = false :=
    isBlank_eq_false_of_isNameChar (hname last (List.mem_of_getLast? hlast))
  have hend : Text.trimEnd ('-' :: '-' :: (lead ++ rest)) =
      '-' :: '-' :: (lead ++ Text.trimEnd rest) :=
    Text.trimEnd_append hlast hblank rest
  have htrim : Text.trim ("--" ++ String.ofList (lead ++ rest)).toList =
      '-' :: '-' :: (lead ++ Text.trimEnd rest) := by
    rw [← hend, ← hstart]
    simp [Text.trim]
  have hafter : Text.after? "--".toList ('-' :: '-' :: (lead ++ Text.trimEnd rest)) =
      some (lead ++ Text.trimEnd rest) :=
    Text.after?_append ['-', '-'] _
  rw [keyBody, htrim, hafter, Option.getD_some, Text.replaceChar, List.flatMap_append]
  exact congrArg (· ++ _) (replaceChar_of_isNameChar h)

theorem keyBody_dashed {body : List Char} (h : ∀ c ∈ body, Css.isNameChar c) :
    keyBody ("--" ++ String.ofList body) = body := by
  simpa [Text.replaceChar] using keyBody_append h []

theorem toList_varRef (theme : Theme) (name : String) :
    (theme.varRef name).toList = "var(".toList ++ (theme.varName name).toList ++ [')'] := by
  simp [varRef]

def keysOfName (theme : Theme) (name : String) : List String :=
  (theme.namePrefix.bind fun namePrefix =>
    (Text.after? (nameLead namePrefix) name.toList).map fun rest =>
      keyOf ("--" ++ String.ofList rest)).toList ++ [keyOf name]

def lookupKey? (theme : Theme) (name : String) : Option String :=
  (theme.keysOfName name).find? theme.values.contains

/-- What is looked up is the first of the keys that has a value. -/
theorem find?_bind_get? (theme : Theme) (key : String) (keys : List String) :
    ((key :: keys).find? theme.values.contains).bind theme.values.get? =
      (theme.values.get? key).or
        ((keys.find? theme.values.contains).bind theme.values.get?) := by
  rw [List.find?_cons, Dictionary.contains]
  cases hvalue : theme.values.get? key with
  | none => rfl
  | some value => exact hvalue

theorem lookupVar?_eq_bind (theme : Theme) (name : String) :
    theme.lookupVar? name = (theme.lookupKey? name).bind theme.values.get? := by
  have hlast : ([keyOf name].find? theme.values.contains).bind theme.values.get? =
      theme.get? name := by
    rw [find?_bind_get?]
    exact Option.or_none
  rw [lookupVar?, lookupKey?, keysOfName]
  cases theme.namePrefix with
  | none => exact hlast.symm
  | some namePrefix =>
      simp only [Option.bind_eq_bind, Option.bind_some, toList_nameLead]
      cases Text.after? (nameLead namePrefix) name.toList with
      | none => exact hlast.symm
      | some rest =>
          simp only [Option.bind_some, Option.map_some, Option.toList_some,
            List.singleton_append]
          rw [find?_bind_get?, hlast, Option.or_eq_orElse]
          rfl

theorem get?_isSome_of_lookupKey? {name key : String} (h : theme.lookupKey? name = some key) :
    ∃ value, theme.values.get? key = some value := by
  have hcontains : theme.values.contains key = true := List.find?_some h
  exact Option.isSome_iff_exists.mp hcontains

/-- What a reference stands for: the value of its name or, without one, its fallback. -/
def referent? (theme : Theme) (inner : List Char) : Option (List Char) :=
  ((theme.lookupVar? (String.ofList (Css.varParts inner).1)).map String.toList).or
    ((Css.varParts inner).2.map Text.trim)

theorem referent?_of_lookupKey? {inner : List Char} {key value : String}
    (hkey : theme.lookupKey? (String.ofList (Css.varParts inner).1) = some key)
    (hvalue : theme.values.get? key = some value) :
    theme.referent? inner = some value.toList := by
  rw [referent?, lookupVar?_eq_bind, hkey, Option.bind_some, hvalue]
  rfl

theorem referent?_cases {inner referent : List Char}
    (h : theme.referent? inner = some referent) :
    (∃ key value, theme.lookupKey? (String.ofList (Css.varParts inner).1) = some key ∧
        theme.values.get? key = some value ∧ referent = value.toList) ∨
      theme.lookupKey? (String.ofList (Css.varParts inner).1) = none ∧
        ∃ fallback, (Css.varParts inner).2 = some fallback ∧ referent = Text.trim fallback := by
  cases hkey : theme.lookupKey? (String.ofList (Css.varParts inner).1) with
  | some key =>
      obtain ⟨value, hvalue⟩ := get?_isSome_of_lookupKey? hkey
      rw [referent?_of_lookupKey? hkey hvalue] at h
      exact .inl ⟨key, value, rfl, hvalue, (Option.some.inj h).symm⟩
  | none =>
      rw [referent?, lookupVar?_eq_bind, hkey] at h
      obtain ⟨fallback, hfallback, heq⟩ := Option.map_eq_some_iff.mp h
      exact .inr ⟨rfl, fallback, hfallback, heq.symm⟩

/-- What a reference becomes when what it stands for is written by `write`. -/
def expand (theme : Theme) (write : List Char → List Char) (inner : List Char) : List Char :=
  ((theme.referent? inner).map write).getD (Css.reference inner)

theorem toList_inline (theme : Theme) (depth : Nat) (text : String) :
    (theme.inline depth text).toList = theme.inlineChars depth text.toList :=
  String.toList_ofList

theorem inlineChars_succ (theme : Theme) (depth : Nat) (text : List Char) :
    theme.inlineChars (depth + 1) text =
      Css.mapVars (theme.expand (theme.inlineChars depth)) text := by
  rw [inlineChars]
  congr 1
  funext inner
  rw [expand, referent?]
  simp only
  cases theme.lookupVar? (String.ofList (Css.varParts inner).1) with
  | some value => rfl
  | none =>
      cases (Css.varParts inner).2 with
      | some fallback => rfl
      | none => simp [Css.reference]

theorem inlineChars_eq_self {text : List Char} (h : ¬"var(".toList <:+: text) (depth : Nat) :
    theme.inlineChars depth text = text := by
  cases depth with
  | zero => rfl
  | succ depth =>
      rw [inlineChars_succ]
      exact Css.mapVars_eq_self h

end Theme

end AtomicCss
