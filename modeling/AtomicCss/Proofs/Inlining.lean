import AtomicCss.Proofs.NameScanning
import Mathlib.Logic.Relation
import Mathlib.Order.Filter.EventuallyConst

/-!
Inlining with more and more depth. If the values of tokens look up tokens of smaller rank only, the
text stops changing at some depth. If tokens refer to each other in a circle, a `var(` is left at
every depth; and where none is left, no depth changes the text any more.
-/

namespace AtomicCss.Theme

open Filter

variable {theme : Theme}

/-- The keys whose values are looked up in a text: those of the names of its references and, where a
name has no value, those in the fallback. -/
def lookups (theme : Theme) (text : List Char) : List String :=
  (Css.fragments text).attach.flatMap fun
    | ⟨.char _, _⟩ => []
    | ⟨.reference inner, _hinner⟩ =>
        match theme.lookupKey? (String.ofList (Css.varParts inner).1),
          _hfallback : (Css.varParts inner).2 with
        | some key, _ => [key]
        | none, some fallback => theme.lookups (Text.trim fallback)
        | none, none => []
termination_by text.length
decreasing_by
  have htrim := (Text.trim_infix fallback).length_le
  have hfallback := (Css.varParts_fallback_infix _hfallback).length_le
  have hinner := Css.length_lt_of_mem_fragments _hinner
  omega

section Lookups

variable {text inner fallback : List Char} {key : String}

theorem mem_lookups_of_lookupKey? (hinner : .reference inner ∈ Css.fragments text)
    (hkey : theme.lookupKey? (String.ofList (Css.varParts inner).1) = some key) :
    key ∈ theme.lookups text := by
  rw [lookups, List.mem_flatMap]
  refine ⟨⟨.reference inner, hinner⟩, List.mem_attach _ _, ?_⟩
  simp only
  grind

theorem mem_lookups_of_fallback (hinner : .reference inner ∈ Css.fragments text)
    (hname : theme.lookupKey? (String.ofList (Css.varParts inner).1) = none)
    (hfallback : (Css.varParts inner).2 = some fallback)
    (hkey : key ∈ theme.lookups (Text.trim fallback)) : key ∈ theme.lookups text := by
  rw [lookups, List.mem_flatMap]
  refine ⟨⟨.reference inner, hinner⟩, List.mem_attach _ _, ?_⟩
  simp only
  grind

end Lookups

theorem eventuallyConst_flatMap {Item : Type} {items : List Item}
    {write : Nat → Item → List Char}
    (h : ∀ item ∈ items, EventuallyConst (fun depth => write depth item) atTop) :
    EventuallyConst (fun depth => items.flatMap (write depth)) atTop := by
  induction items with
  | nil => exact .const []
  | cons item rest ih =>
      obtain ⟨hitem, hrest⟩ := List.forall_mem_cons.mp h
      simp only [List.flatMap_cons]
      exact hitem.comp₂ (· ++ ·) (ih hrest)

/-- A text stops changing if all that its references stand for does. -/
theorem eventuallyConst_of_referents {text : List Char}
    (h : ∀ inner referent, .reference inner ∈ Css.fragments text →
      theme.referent? inner = some referent →
        EventuallyConst (fun depth => theme.inlineChars depth referent) atTop) :
    EventuallyConst (fun depth => theme.inlineChars depth text) atTop := by
  have hlater : EventuallyConst (fun depth => theme.inlineChars (depth + 1) text) atTop := by
    simp only [inlineChars_succ, Css.mapVars_eq_flatMap]
    apply eventuallyConst_flatMap
    intro fragment hfragment
    cases fragment with
    | char c => exact .const [c]
    | reference inner =>
        simp only [Css.Fragment.write, expand]
        cases hreferent : theme.referent? inner with
        | none => exact .const (Css.reference inner)
        | some referent => exact h inner referent hfragment hreferent
  rw [eventuallyConst_atTop] at hlater ⊢
  obtain ⟨bound, hbound⟩ := hlater
  refine ⟨bound + 1, fun depth hdepth => ?_⟩
  cases depth with
  | zero => omega
  | succ depth => exact hbound depth (by omega)

theorem eventuallyConst_of_lookups {text : List Char}
    (h : ∀ key ∈ theme.lookups text, ∀ value, theme.values.get? key = some value →
      EventuallyConst (fun depth => theme.inlineChars depth value.toList) atTop) :
    EventuallyConst (fun depth => theme.inlineChars depth text) atTop := by
  -- a fallback is shorter than the text it stands in, and looks up no other keys
  induction hlength : text.length using Nat.strong_induction_on generalizing text with
  | _ length ih =>
      apply eventuallyConst_of_referents
      intro inner referent hinner hreferent
      rcases referent?_cases hreferent with
        ⟨key, value, hkey, hvalue, rfl⟩ | ⟨hname, fallback, hfallback, rfl⟩
      · exact h key (mem_lookups_of_lookupKey? hinner hkey) value hvalue
      · apply ih (Text.trim fallback).length ?_ ?_ rfl
        · have htrim := (Text.trim_infix fallback).length_le
          have hshorter := (Css.varParts_fallback_infix hfallback).length_le
          have hinner := Css.length_lt_of_mem_fragments hinner
          omega
        · intro key hkey
          exact h key (mem_lookups_of_fallback hinner hname hfallback hkey)

/-- The values of a theme whose keys look up keys of smaller rank stop changing. -/
theorem eventuallyConst_of_rank {rank : String → Nat}
    (hrank : ∀ entry ∈ theme.entries, ∀ key ∈ theme.lookups entry.2.toList,
      rank key < rank entry.1)
    {key value : String} (hvalue : theme.values.get? key = some value) :
    EventuallyConst (fun depth => theme.inlineChars depth value.toList) atTop := by
  induction hkey : rank key using Nat.strong_induction_on generalizing key value with
  | _ bound ih =>
      apply eventuallyConst_of_lookups
      intro other hother otherValue hotherValue
      have hless := hrank (key, value) (Dictionary.mem_entries_of_get? hvalue) other hother
      exact ih (rank other) (hkey ▸ hless) hotherValue rfl

/-- Without circles among the tokens, there is a depth from which on a text stays as it is. -/
theorem inline_converges (theme : Theme) (rank : String → Nat)
    (hrank : ∀ entry ∈ theme.entries, ∀ key ∈ theme.lookups entry.2.toList,
      rank key < rank entry.1)
    (text : String) :
    ∃ bound, ∀ depth, bound ≤ depth → theme.inline depth text = theme.inline bound text := by
  have hconst : EventuallyConst (fun depth => theme.inlineChars depth text.toList) atTop :=
    eventuallyConst_of_lookups fun _ _ _ hvalue => eventuallyConst_of_rank hrank hvalue
  exact eventuallyConst_atTop.mp (hconst.comp String.ofList)

/-- Three tokens of a theme whose names have a prefix, each of which looks up the one before it. -/
def chainedTheme : Theme :=
  (empty.addMany
    [("--base", "#123456"), ("--brand", "var(--base)"),
      ("--primary", "var(--tw-brand, red) var(--missing, var(--tw-base))")]).withPrefix "tw"

theorem inline_converges_chained :
    (∀ entry ∈ chainedTheme.entries, ∀ key ∈ chainedTheme.lookups entry.2.toList,
      ["--base", "--brand", "--primary"].idxOf key <
        ["--base", "--brand", "--primary"].idxOf entry.1) ∧
      ∃ bound, ∀ depth, bound ≤ depth →
        chainedTheme.inline depth "1px solid var(--tw-primary)" =
          chainedTheme.inline bound "1px solid var(--tw-primary)" := by
  have hrank : ∀ entry ∈ chainedTheme.entries, ∀ key ∈ chainedTheme.lookups entry.2.toList,
      ["--base", "--brand", "--primary"].idxOf key <
        ["--base", "--brand", "--primary"].idxOf entry.1 := by decide +kernel
  exact ⟨hrank, inline_converges chainedTheme _ hrank _⟩

/-- The value of a token has a reference whose name stands for the other token. -/
def RefersTo (theme : Theme) (key next : String) : Prop :=
  ∃ value, theme.values.get? key = some value ∧
    ∃ inner, .reference inner ∈ Css.fragments value.toList ∧
      theme.lookupKey? (String.ofList (Css.varParts inner).1) = some next

section Cycles

variable {key value : String}

theorem var_infix_of_cycle (hcycle : Relation.TransGen theme.RefersTo key key)
    (hvalue : theme.values.get? key = some value) (depth : Nat) :
    "var(".toList <:+: theme.inlineChars depth value.toList := by
  induction depth generalizing key value with
  | zero =>
      obtain ⟨next, ⟨found, hfound, inner, hinner, -⟩, -⟩ :=
        Relation.TransGen.head'_iff.mp hcycle
      cases hvalue.symm.trans hfound
      exact (Css.var_infix_reference inner).trans (Css.infix_reference hinner)
  | succ depth ih =>
      obtain ⟨next, hrefers, hback⟩ := Relation.TransGen.head'_iff.mp hcycle
      have hnextCycle : Relation.TransGen theme.RefersTo next next := .tail' hback hrefers
      obtain ⟨found, hfound, inner, hinner, hnext⟩ := hrefers
      cases hvalue.symm.trans hfound
      obtain ⟨nextValue, hnextValue⟩ := get?_isSome_of_lookupKey? hnext
      have hinfix := Css.infix_mapVars (theme.expand (theme.inlineChars depth)) hinner
      rw [expand, referent?_of_lookupKey? hnext hnextValue, ← inlineChars_succ] at hinfix
      exact (ih hnextCycle hnextValue).trans hinfix

/-- The written name of a token on a circle is one that another token of the circle mentions, so
that its reference is followed into the circle or kept as it is. -/
theorem var_infix_varRef_of_cycle (hplain : theme.HasPlainPrefix)
    (hcycle : Relation.TransGen theme.RefersTo key key) (depth : Nat) :
    "var(".toList <:+: theme.inlineChars depth (theme.varRef key).toList := by
  have hkept : "var(".toList <:+: (theme.varRef key).toList := by
    rw [toList_varRef, List.append_assoc]
    exact (List.prefix_append _ _).isInfix
  cases depth with
  | zero => exact hkept
  | succ depth =>
      obtain ⟨last, -, _, -, inner, hinner, hkey⟩ := Relation.TransGen.tail'_iff.mp hcycle
      obtain ⟨hparens, hcomma⟩ := Css.passes_varParts (Css.passes_of_mem_fragments hinner)
      obtain ⟨value, hvalue⟩ := get?_isSome_of_lookupKey? hkey
      rw [inlineChars_varRef hvalue
        (passes_varName_of_lookupKey? hplain hkey (by rwa [String.toList_ofList]))
        (passes_varName_of_lookupKey? hplain hkey (by rwa [String.toList_ofList]))]
      split
      · exact var_infix_of_cycle hcycle hvalue depth
      · exact hkept

/-- A text in which no `var(` is left is final. -/
theorem inlineChars_of_le {text : List Char} {depth more : Nat}
    (h : ¬"var(".toList <:+: theme.inlineChars depth text) (hle : depth ≤ more) :
    theme.inlineChars more text = theme.inlineChars depth text := by
  induction depth generalizing text more with
  | zero => exact inlineChars_eq_self h more
  | succ depth ih =>
      obtain ⟨more, rfl⟩ := Nat.exists_eq_add_of_le' hle
      rw [inlineChars_succ] at h
      rw [← Nat.add_assoc, inlineChars_succ, inlineChars_succ]
      apply Css.mapVars_congr
      intro inner hinner
      have hinfix := Css.infix_mapVars (theme.expand (theme.inlineChars depth)) hinner
      rw [expand] at hinfix
      rw [expand, expand]
      cases hreferent : theme.referent? inner with
      | none => rfl
      | some referent =>
          rw [hreferent] at hinfix
          exact ih (fun hvar => h (hvar.trans hinfix)) (by omega)

end Cycles

/-- A reference to a token of a circle leaves a `var(` at every depth. Conversely, a text without a
`var(` left is what every greater depth gives too. -/
theorem inline_never_hides_a_cycle (theme : Theme) :
    (theme.HasPlainPrefix → ∀ key, Relation.TransGen theme.RefersTo key key → ∀ depth,
      "var(".toList <:+: (theme.inline depth (theme.varRef key)).toList) ∧
    ∀ (text : String) (depth : Nat), ¬"var(".toList <:+: (theme.inline depth text).toList →
      ∀ more, depth ≤ more → theme.inline more text = theme.inline depth text := by
  constructor
  · intro hplain key hcycle depth
    rw [toList_inline]
    exact var_infix_varRef_of_cycle hplain hcycle depth
  · intro text depth hnone more hle
    rw [toList_inline] at hnone
    rw [inline, inline, inlineChars_of_le hnone hle]

/-- Two tokens that refer to each other, one of them by a name with a dot and the prefix. -/
def circle : Theme :=
  (empty.addMany
    [("--a", "1px var(--missing, 2px) var(--tw-b.c, red)"),
      ("--b.c", "calc(var( a ) + 1px")]).withPrefix "tw"

theorem inline_never_hides_a_cycle_pair :
    circle.HasPlainPrefix ∧ Relation.TransGen circle.RefersTo "--a" "--a" ∧
      (∀ depth, "var(".toList <:+: (circle.inline depth (circle.varRef "--a")).toList) ∧
      ¬"var(".toList <:+: (circle.inline 1 "var(--missing, 2px)").toList ∧
      ∀ more, 1 ≤ more →
        circle.inline more "var(--missing, 2px)" = circle.inline 1 "var(--missing, 2px)" := by
  have hplain : circle.HasPlainPrefix := by decide +kernel
  have hout : circle.RefersTo "--a" "--b_c" :=
    ⟨"1px var(--missing, 2px) var(--tw-b.c, red)", by decide +kernel, "--tw-b.c, red".toList,
      by decide +kernel, by decide +kernel⟩
  have hback : circle.RefersTo "--b_c" "--a" :=
    ⟨"calc(var( a ) + 1px", by decide +kernel, " a ".toList, by decide +kernel, by decide +kernel⟩
  have hcycle : Relation.TransGen circle.RefersTo "--a" "--a" := .tail (.single hout) hback
  have hnone : ¬"var(".toList <:+: (circle.inline 1 "var(--missing, 2px)").toList := by
    decide +kernel
  exact ⟨hplain, hcycle, (inline_never_hides_a_cycle circle).1 hplain "--a" hcycle, hnone,
    (inline_never_hides_a_cycle circle).2 _ 1 hnone⟩

end AtomicCss.Theme
