import AtomicCss.Proofs.PrefixedTheme
import AtomicCss.Utility.Catalogue

/-!
Each utility makes the same nodes of a theme with and without a name prefix, up to the prefix in the
references of the values.
-/

namespace AtomicCss

namespace Sheet

def Declaration.dropPrefix (namePrefix : String) (declaration : Declaration) : Declaration :=
  { declaration with value := Theme.dropPrefix namePrefix declaration.value }

/-- Takes the prefix off the references in the values of a tree; nothing else changes. -/
def Node.dropPrefix (namePrefix : String) (node : Node) : Node :=
  node.mapDeclarations (Declaration.dropPrefix namePrefix)

end Sheet

namespace Number.Literal

theorem parse?_nil : parse? [] = none := rfl

theorem parse?_cons_eq_none {c : Char} (hc : c = 'v' ∨ c = 'c') (rest : List Char) :
    parse? (c :: rest) = none := by
  rcases hc with rfl | rfl <;>
    simp [parse?, splitSign, parseDecimal?, splitDigits, String.ext_iff, Char.isDigit]

end Number.Literal

namespace Utility

open Theme (Alike Renames)

theorem isSignable_eq_false {value : String} {c : Char} (hc : c = 'v' ∨ c = 'c')
    (hvalue : value.toList.head? = some c) : isSignable value = false := by
  obtain ⟨rest, hrest⟩ := List.head?_eq_some_iff.mp hvalue
  rw [isSignable, Number.isLiteral, hrest, Number.Literal.parse?_cons_eq_none hc]
  cases hbefore : Text.before? "px".toList (c :: rest) with
  | none => rfl
  | some number =>
      have hnumber := Text.eq_append_of_before? hbefore
      cases number with
      | nil => simp [Number.Literal.parse?_nil]
      | cons d tail =>
          rw [List.cons_append, List.cons.injEq] at hnumber
          rw [← hnumber.1]
          simp [Number.Literal.parse?_cons_eq_none hc]

/-- The values that one utility makes of two themes: equal, or alike and of a kind that is only
negated by a calculation. -/
inductive SameValue (namePrefix : String) : String → String → Prop where
  | refl (text : String) : SameValue namePrefix text text
  | alike {first second : String} (halike : Alike namePrefix first second)
      (hfirst : isSignable first = false) (hsecond : isSignable second = false) :
      SameValue namePrefix first second

section Values

variable {namePrefix : String} {first second : String}

theorem SameValue.dropPrefix_eq (h : SameValue namePrefix first second) :
    Theme.dropPrefix namePrefix first = Theme.dropPrefix namePrefix second := by
  cases h with
  | refl => rfl
  | alike halike _ _ => exact halike.dropPrefix_eq

/-- A text around a value that starts with a `c`, as calculations and mixed colors do. -/
theorem SameValue.surround (halike : Alike namePrefix first second) (before after : String)
    (hbefore : before.toList.head? = some 'c') :
    SameValue namePrefix (before ++ first ++ after) (before ++ second ++ after) := by
  apply SameValue.alike (halike.surround before after)
  · exact isSignable_eq_false (.inr rfl) (by simp [hbefore])
  · exact isSignable_eq_false (.inr rfl) (by simp [hbefore])

theorem SameValue.negateIf (h : SameValue namePrefix first second) (negative : Bool) :
    SameValue namePrefix (negateIf negative first) (negateIf negative second) := by
  cases negative with
  | false => exact h
  | true =>
      cases h with
      | refl => exact .refl _
      | alike halike hfirst hsecond =>
          simp only [Utility.negateIf, negate, hfirst, hsecond, if_true]
          exact .surround halike "calc(" " * -1)" rfl

abbrev SameResult (namePrefix : String) : Option String → Option String → Prop :=
  Option.Rel (SameValue namePrefix)

namespace SameResult

theorem refl (value : Option String) : SameResult namePrefix value value := by
  cases value with
  | none => exact .none
  | some text => exact .some (.refl text)

theorem cases {first second : Option String} (h : SameResult namePrefix first second) :
    (first = none ∧ second = none) ∨
      ∃ value value', first = some value ∧ second = some value' ∧
        SameValue namePrefix value value' := by
  cases h with
  | none => exact .inl ⟨rfl, rfl⟩
  | some hvalue => exact .inr ⟨_, _, rfl, rfl, hvalue⟩

theorem orElse {first second first' second' : Option String}
    (h : SameResult namePrefix first second) (h' : SameResult namePrefix first' second') :
    SameResult namePrefix (first <|> first') (second <|> second') := by
  cases h with
  | none => exact h'
  | some hvalue => exact .some hvalue

theorem negateIf {first second : Option String} (h : SameResult namePrefix first second)
    (negative : Bool) :
    SameResult namePrefix (first.map (negateIf negative)) (second.map (negateIf negative)) := by
  cases h with
  | none => exact .none
  | some hvalue => exact .some (hvalue.negateIf negative)

end SameResult

variable {plain prefixed : Theme}

theorem sameValue_varRef (h : Renames namePrefix plain prefixed) {name : String}
    (hname : Theme.keyOf name ∈ plain.values.keys) :
    SameValue namePrefix (prefixed.varRef name) (plain.varRef name) := by
  have hhead (theme : Theme) : (theme.varRef name).toList.head? = some 'v' := by
    rw [Theme.toList_varRef]
    rfl
  exact .alike (h.varRef_alike hname) (isSignable_eq_false (.inl rfl) (hhead _))
    (isSignable_eq_false (.inl rfl) (hhead _))

theorem sameResult_resolve? (h : Renames namePrefix plain prefixed) (name : Option String)
    (spaces : List String) :
    SameResult namePrefix (prefixed.resolve? name spaces) (plain.resolve? name spaces) := by
  rw [Theme.resolve?, Theme.resolve?, h.resolveKey?_eq]
  cases hkey : plain.resolveKey? name spaces with
  | none => exact .none
  | some key => exact .some (sameValue_varRef h (Theme.keyOf_mem_of_resolveKey? hkey))

theorem sameResult_spacingStep? (h : Renames namePrefix plain prefixed) (step : String)
    (negative : Bool) :
    SameResult namePrefix (spacingStep? prefixed step negative)
      (spacingStep? plain step negative) := by
  rw [spacingStep?, spacingStep?, h.contains_eq]
  split
  · rename_i hstep
    have hspacing := Theme.keyOf_mem_of_contains (Bool.and_eq_true_iff.mp hstep).2
    have hsame := SameValue.surround (h.varRef_alike hspacing) "calc("
      (" * " ++ (if negative then "-" else "") ++ step ++ ")") rfl
    apply Option.Rel.some
    simpa only [String.append_assoc] using hsame
  · exact .none

theorem sameResult_resolveSpacing? (h : Renames namePrefix plain prefixed)
    (value : Candidate.Value) (negative : Bool) :
    SameResult namePrefix (resolveSpacing? prefixed value negative)
      (resolveSpacing? plain value negative) := by
  cases value with
  | named name fraction =>
      rw [resolveSpacing?, resolveSpacing?]
      split
      · exact .refl _
      · rcases (sameResult_resolve? h (some name) ["--spacing"]).cases with
          ⟨hprefixed, hplain⟩ | ⟨first, second, hprefixed, hplain, hvalue⟩
        · rw [hprefixed, hplain]
          exact sameResult_spacingStep? h name negative
        · rw [hprefixed, hplain]
          exact .some (hvalue.negateIf negative)
  | arbitrary text hint => exact .refl _

theorem sameResult_resolveSize? (h : Renames namePrefix plain prefixed) (spaces : List String)
    (keywords : List (String × String)) (value : Candidate.Value) (negative : Bool) :
    SameResult namePrefix (resolveSize? prefixed spaces keywords value negative)
      (resolveSize? plain spaces keywords value negative) := by
  cases value with
  | named name fraction =>
      cases fraction with
      | some fraction => exact .refl _
      | none =>
          rw [resolveSize?, resolveSize?]
          cases keywords.lookup name with
          | some keyword => exact .refl _
          | none =>
              rcases (sameResult_resolve? h (some name) spaces).cases with
                ⟨hprefixed, hplain⟩ | ⟨first, second, hprefixed, hplain, hvalue⟩
              · rw [hprefixed, hplain]
                exact sameResult_resolveSpacing? h (.named name none) negative
              · rw [hprefixed, hplain]
                exact .some (hvalue.negateIf negative)
  | arbitrary text hint => exact sameResult_resolveSpacing? h (.arbitrary text hint) negative

theorem sameResult_numericValue? (h : Renames namePrefix plain prefixed) (numeric : Numeric)
    (text : String) :
    SameResult namePrefix (numeric.value? prefixed text) (numeric.value? plain text) := by
  cases numeric with
  | spacing => exact sameResult_spacingStep? h text false
  | nothing => exact .refl _
  | integer => exact .refl _
  | percent => exact .refl _
  | milliseconds => exact .refl _
  | template pieces => exact .refl _

theorem sameResult_themedValue? (h : Renames namePrefix plain prefixed) (spaces : List String)
    (keywords : List (String × String)) (numeric : Numeric) (allowed : List ValueType)
    (value : Candidate.Value) :
    SameResult namePrefix
      (ValueRule.themedValue? prefixed spaces keywords numeric allowed value)
      (ValueRule.themedValue? plain spaces keywords numeric allowed value) := by
  cases value with
  | named name fraction =>
      have hthemed := sameResult_resolve? h (some name) spaces
      have hnumeric := sameResult_numericValue? h numeric name
      exact (SameResult.refl _).orElse (hthemed.orElse hnumeric)
  | arbitrary text hint => exact .refl _

theorem sameResult_bareValue? (h : Renames namePrefix plain prefixed) (rule : ValueRule) :
    SameResult namePrefix (rule.bareValue? prefixed) (rule.bareValue? plain) := by
  cases rule with
  | radius =>
      rw [ValueRule.bareValue?, ValueRule.bareValue?]
      rcases (sameResult_resolve? h none ["--radius"]).cases with
        ⟨hprefixed, hplain⟩ | ⟨first, second, hprefixed, hplain, hvalue⟩
      · rw [hprefixed, hplain]
        exact .refl _
      · rw [hprefixed, hplain]
        exact .some hvalue
  | color => exact .refl _
  | spacing keywords => exact .refl _
  | size spaces keywords => exact .refl _
  | length bare spaces => exact .refl _
  | themed spaces keywords numeric allowed => exact .refl _

theorem sameResult_value? (h : Renames namePrefix plain prefixed) (rule : ValueRule)
    (value : Candidate.Value) (negative : Bool) :
    SameResult namePrefix (rule.value? prefixed value negative)
      (rule.value? plain value negative) := by
  cases rule with
  | color => exact .refl _
  | spacing keywords =>
      cases value with
      | arbitrary text hint => exact sameResult_resolveSpacing? h (.arbitrary text hint) negative
      | named name fraction =>
          rw [ValueRule.value?, ValueRule.value?]
          cases keywords.lookup name with
          | some keyword => exact .refl _
          | none => exact sameResult_resolveSpacing? h (.named name fraction) negative
  | size spaces keywords =>
      simp only [ValueRule.value?]
      exact sameResult_resolveSize? h spaces keywords value negative
  | length bare spaces =>
      cases value with
      | arbitrary text hint => exact .refl _
      | named name fraction =>
          exact (sameResult_resolve? h (some name) spaces).orElse (.refl _)
  | radius =>
      cases value with
      | arbitrary text hint => exact .refl _
      | named name fraction =>
          exact (SameResult.refl _).orElse (sameResult_resolve? h (some name) ["--radius"])
  | themed spaces keywords numeric allowed =>
      simp only [ValueRule.value?]
      exact (sameResult_themedValue? h spaces keywords numeric allowed value).negateIf negative

theorem sameResult_mixColor? {first second : String} (hsame : SameValue namePrefix first second)
    (modifier : Option Candidate.Modifier) :
    SameResult namePrefix (mixColor? first modifier) (mixColor? second modifier) := by
  cases modifier with
  | none => exact .some hsame
  | some modifier =>
      rw [mixColor?, mixColor?]
      cases modifierPercentage? modifier with
      | none => exact .none
      | some percentage =>
          cases hsame with
          | refl => exact .refl _
          | alike halike hfirst hsecond =>
              have hmixed := SameValue.surround halike "color-mix(in oklab, "
                (" " ++ percentage ++ ", transparent)") rfl
              apply Option.Rel.some
              simpa only [String.append_assoc] using hmixed

theorem sameResult_lineHeight? (h : Renames namePrefix plain prefixed)
    (modifier : Candidate.Modifier) :
    SameResult namePrefix (lineHeight? prefixed modifier) (lineHeight? plain modifier) := by
  cases modifier with
  | named name =>
      exact (sameResult_resolve? h (some name) ["--leading"]).orElse
        (sameResult_spacingStep? h name false)
  | arbitrary text => exact .refl _

end Values

/-- Two results of a utility that are both missing or become the same without the prefix. -/
def SameNodes (namePrefix : String) (first second : Option (List Sheet.Node)) : Prop :=
  first.map (List.map (Sheet.Node.dropPrefix namePrefix)) =
    second.map (List.map (Sheet.Node.dropPrefix namePrefix))

section Nodes

variable {namePrefix : String} {plain prefixed : Theme}

theorem dropPrefix_declare {first second : String} (h : SameValue namePrefix first second)
    (property : String) :
    (Sheet.Node.declare property first).dropPrefix namePrefix =
      (Sheet.Node.declare property second).dropPrefix namePrefix := by
  simp only [Sheet.Node.dropPrefix, Sheet.Node.declare, Sheet.Node.mapDeclarations,
    Sheet.Declaration.dropPrefix, h.dropPrefix_eq]

theorem SameResult.sameNodes {first second : Option String}
    (h : SameResult namePrefix first second) (properties : List String) :
    SameNodes namePrefix
      (first.map fun value => properties.map fun property => Sheet.Node.declare property value)
      (second.map fun value =>
        properties.map fun property => Sheet.Node.declare property value) := by
  cases h with
  | none => rfl
  | some hvalue =>
      apply congrArg some
      rw [List.map_map, List.map_map]
      apply List.map_congr_left
      intro property _
      exact dropPrefix_declare hvalue property

theorem sameNodes_color (h : Renames namePrefix plain prefixed) (value : Candidate.Value)
    (properties : List String) (modifier : Option Candidate.Modifier)
    (opacityKey internalPrefix : String) :
    SameNodes namePrefix
      ((resolveColor? prefixed value).bind fun color =>
        colorDeclarations? properties color modifier opacityKey internalPrefix)
      ((resolveColor? plain value).bind fun color =>
        colorDeclarations? properties color modifier opacityKey internalPrefix) := by
  cases value with
  | arbitrary text hint => rfl
  | named name fraction =>
      rw [resolveColor?, resolveColor?]
      split
      · rfl
      split
      · rfl
      split
      · rfl
      rcases (sameResult_resolve? h (some name) ["--color"]).cases with
        ⟨hprefixed, hplain⟩ | ⟨first, second, hprefixed, hplain, hvalue⟩
      · rw [hprefixed, hplain]
        rfl
      · rw [hprefixed, hplain]
        exact (sameResult_mixColor? hvalue modifier).sameNodes properties

theorem sameNodes_functional (h : Renames namePrefix plain prefixed) (functional : Functional)
    (internalPrefix : String) (candidate : Candidate) :
    SameNodes namePrefix (functional.compile? internalPrefix candidate prefixed)
      (functional.compile? internalPrefix candidate plain) := by
  rw [Functional.compile?, Functional.compile?]
  cases candidate.reading with
  | static root => rfl
  | property property value => rfl
  | functional root value =>
      simp only
      cases functional.roots.lookup root with
      | none => rfl
      | some properties =>
          simp only
          split
          · rfl
          cases value with
          | none =>
              simp only
              split
              · rfl
              · exact (sameResult_bareValue? h functional.rule).sameNodes properties
          | some value =>
              simp only
              cases functional.rule with
              | color => exact sameNodes_color h value properties _ root internalPrefix
              | _ =>
                  simp only
                  split
                  · exact (sameResult_value? h _ value candidate.negative).sameNodes properties
                  · rfl

theorem fontSize?_rel (h : Renames namePrefix plain prefixed) (value : Candidate.Value) :
    Option.Rel
      (fun first second =>
        SameValue namePrefix first.1 second.1 ∧ SameResult namePrefix first.2 second.2)
      (fontSize? prefixed value) (fontSize? plain value) := by
  cases value with
  | named name fraction =>
      rw [fontSize?, fontSize?]
      rcases (sameResult_resolve? h (some name) ["--text"]).cases with
        ⟨hprefixed, hplain⟩ | ⟨first, second, hprefixed, hplain, hvalue⟩
      · rw [hprefixed, hplain]
        exact .none
      · rw [hprefixed, hplain]
        exact .some ⟨hvalue, sameResult_resolve? h _ _⟩
  | arbitrary text hint =>
      rw [fontSize?, fontSize?]
      split
      · exact .some ⟨.refl _, .refl _⟩
      · exact .none

theorem map_dropPrefix_fontSize {size size' : String} {height height' : Option String}
    (hsize : SameValue namePrefix size size') (hheight : SameResult namePrefix height height') :
    (Sheet.Node.declare "font-size" size ::
        (height.map fun height => Sheet.Node.declare "line-height" height).toList).map
          (Sheet.Node.dropPrefix namePrefix) =
      (Sheet.Node.declare "font-size" size' ::
        (height'.map fun height => Sheet.Node.declare "line-height" height).toList).map
          (Sheet.Node.dropPrefix namePrefix) := by
  rw [List.map_cons, List.map_cons, dropPrefix_declare hsize]
  congr 1
  cases hheight with
  | none => rfl
  | some hvalue => exact congrArg ([·]) (dropPrefix_declare hvalue "line-height")

theorem sameNodes_fontSize (h : Renames namePrefix plain prefixed) (candidate : Candidate) :
    SameNodes namePrefix (compileFontSize? candidate prefixed)
      (compileFontSize? candidate plain) := by
  rw [compileFontSize?, compileFontSize?]
  split
  · rfl
  cases candidate.value? with
  | none => rfl
  | some value =>
      have hsize := fontSize?_rel h value
      simp only [Option.bind_eq_bind, Option.bind_some]
      generalize fontSize? prefixed value = first at hsize ⊢
      generalize fontSize? plain value = second at hsize ⊢
      cases hsize with
      | none => rfl
      | some hpair =>
          cases candidate.modifier with
          | none =>
              simp only [Option.bind_some, SameNodes, Option.map_some]
              rw [map_dropPrefix_fontSize hpair.1 hpair.2]
          | some modifier =>
              simp only [Option.bind_some, SameNodes]
              rcases (sameResult_lineHeight? h modifier).cases with
                ⟨hprefixed, hplain⟩ | ⟨height, height', hprefixed, hplain, hvalue⟩
              · rw [hprefixed, hplain]
                rfl
              · rw [hprefixed, hplain]
                simp only [Option.map_some, Option.bind_some]
                exact congrArg some (map_dropPrefix_fontSize hpair.1 (.some hvalue))

/-- The utility does not tell the themes apart, but for the prefix. -/
def Respects (namePrefix : String) (plain prefixed : Theme) (utility : Utility) : Prop :=
  ∀ candidate, SameNodes namePrefix (utility.compile candidate prefixed)
    (utility.compile candidate plain)

theorem respects_of_mem_catalogue (h : Renames namePrefix plain prefixed)
    (internalPrefix : String) :
    ∀ utility ∈ Catalogue.all internalPrefix, Respects namePrefix plain prefixed utility := by
  have hstatic : Respects namePrefix plain prefixed static := fun _ => rfl
  have hproperty : Respects namePrefix plain prefixed property := fun _ => rfl
  have hfontSize : Respects namePrefix plain prefixed fontSize := sameNodes_fontSize h
  have hfunctional (functional : Functional) :
      Respects namePrefix plain prefixed (functional.toUtility internalPrefix) :=
    sameNodes_functional h functional internalPrefix
  simp [Catalogue.all, hstatic, hproperty, hfontSize, hfunctional]

theorem respects_ofDefinition (h : Renames namePrefix plain prefixed)
    {definition : Definition} {utility : Utility}
    (hutility : ofDefinition definition = .ok utility) :
    Respects namePrefix plain prefixed utility := by
  intro candidate
  rw [ofDefinition] at hutility
  split at hutility
  · cases hutility
  · split at hutility
    · cases hutility
      exact congrArg _ (h.compileWildcard?_eq definition candidate)
    · cases hutility
      rfl

end Nodes

end Utility

end AtomicCss
