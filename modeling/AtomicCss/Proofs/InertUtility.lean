import AtomicCss.Proofs.InertVariant
import AtomicCss.Utility.Catalogue
import AtomicCss.Utility.Custom

/-!
What utilities make of inert candidates and an inert theme is inert.
-/

namespace AtomicCss

open Text (AllInert Inert InertResult)

namespace Sheet.Node

mutual

def texts : Node → List String
  | .declaration content => [content.property, content.value]
  | .rule selector children => selector :: textsList children
  | .atRule head children => head.texts ++ textsList children

def textsList : List Node → List String
  | [] => []
  | node :: rest => node.texts ++ textsList rest

end

theorem textsList_eq_flatMap (nodes : List Node) : textsList nodes = nodes.flatMap texts := by
  induction nodes with
  | nil => rfl
  | cons node rest ih => rw [textsList, ih, List.flatMap_cons]

theorem allInert_textsList {nodes : List Node} :
    AllInert (textsList nodes) ↔ ∀ node ∈ nodes, AllInert node.texts := by
  rw [textsList_eq_flatMap]
  exact List.forall_mem_flatMap

mutual

theorem texts_markImportant : (node : Node) → node.markImportant.texts = node.texts
  | .declaration _ => rfl
  | .rule selector children => by
      simp only [markImportant, mapDeclarations, texts, textsList_markImportant children]
  | .atRule head children => by
      simp only [markImportant, mapDeclarations, texts, textsList_markImportant children]

theorem textsList_markImportant :
    (nodes : List Node) →
      textsList (mapDeclarationsList Declaration.markImportant nodes) = textsList nodes
  | [] => rfl
  | node :: rest => by
      have hnode := texts_markImportant node
      rw [markImportant] at hnode
      simp only [mapDeclarationsList, textsList, hnode, textsList_markImportant rest]

end

theorem allInert_marked {nodes : List Node} (h : AllInert (textsList nodes)) (important : Bool) :
    AllInert (textsList (if important then nodes.map markImportant else nodes)) := by
  cases important with
  | false => exact h
  | true =>
      rw [allInert_textsList] at h
      rw [if_pos rfl, allInert_textsList, List.forall_mem_map]
      intro node hnode
      rw [texts_markImportant]
      exact h node hnode

def InertNodes (result : Option (List Node)) : Prop :=
  ∀ nodes ∈ result, AllInert (textsList nodes)

theorem inertNodes_none : InertNodes none := nofun

def declarationTexts (entries : List (String × String)) : List String :=
  entries.flatMap fun entry => [entry.1, entry.2]

theorem allInert_declareAll {entries : List (String × String)}
    (h : AllInert (declarationTexts entries)) :
    AllInert (textsList (entries.map fun entry => declare entry.1 entry.2)) := by
  rw [textsList_eq_flatMap, List.flatMap_map]
  exact h

theorem inertNodes_declare {result : Option String} {properties : List String}
    (hproperties : AllInert properties) (h : InertResult result) :
    InertNodes (result.map fun value => properties.map fun property => declare property value) := by
  intro nodes hnodes
  obtain ⟨value, hvalue, rfl⟩ := Option.map_eq_some_iff.mp hnodes
  rw [allInert_textsList]
  intro node hnode
  obtain ⟨property, hproperty, rfl⟩ := List.mem_map.mp hnode
  simp [declare, texts, hproperties property hproperty, h value hvalue]

end Sheet.Node

namespace Binary64

theorem inert_positional (digits : Nat) (exponent : Int) :
    Inert (positional digits exponent).toList := by
  have hdigits := Text.inert_toDigits digits
  have hzeros (count : Nat) := Text.inert_replicate (c := '0') rfl count
  unfold positional
  simp only
  split
  · simp [hdigits, hzeros]
  split
  · have hwhole (count : Nat) := hdigits.mono (List.take_subset count _)
    have hplaces (count : Nat) := hdigits.mono (List.drop_subset count _)
    simp +decide [hwhole, hplaces]
  · simp +decide [hdigits, hzeros]

theorem inert_text (number : Binary64) : Inert number.text.toList := by
  have hsign (negative : Bool) : Inert (if negative then "-" else "").toList := by
    cases negative <;> decide
  unfold text
  split
  · decide
  · simp +decide [hsign]
  · simp +decide [hsign]
  · simp [hsign, inert_positional]

theorem inert_roundedText (number : Binary64) : Inert number.roundedText.toList :=
  inert_text _

end Binary64

namespace Utility

open Sheet.Node (InertNodes)

section Values

variable {theme : Theme}

theorem inert_negateIf (negative : Bool) {value : String} (h : Inert value.toList) :
    Inert (negateIf negative value).toList := by
  unfold negateIf negate
  split
  · split
    · split
      · rename_i hafter
        simpa using h.after? hafter
      · simp +decide [h]
    · simp +decide [h]
  · exact h

theorem inertResult_spacingStep? (htheme : theme.IsInert) {step : String}
    (h : Inert step.toList) (negative : Bool) :
    InertResult (spacingStep? theme step negative) := by
  unfold spacingStep?
  split
  · rename_i hstep
    have hspacing :=
      htheme.varRef (Theme.keyOf_mem_of_contains (Bool.and_eq_true_iff.mp hstep).2)
    cases negative <;> simp +decide [hspacing, h]
  · exact Text.inertResult_none

theorem inertResult_resolveSpacing? (htheme : theme.IsInert) {value : Candidate.Value}
    (h : Inert value.text.toList) (negative : Bool) :
    InertResult (resolveSpacing? theme value negative) := by
  cases value with
  | named name fraction =>
      rw [resolveSpacing?]
      split
      · exact Text.inertResult_some.mpr (inert_negateIf negative (by decide))
      split
      · rename_i hresolve
        exact Text.inertResult_some.mpr (inert_negateIf negative (htheme.resolve? _ _ _ hresolve))
      · exact inertResult_spacingStep? htheme h negative
  | arbitrary text hint =>
      exact InertResult.guard (Text.inertResult_some.mpr (inert_negateIf negative h))

theorem inertResult_fractionPercentage? (fraction : String) :
    InertResult (fractionPercentage? fraction) := by
  intro text htext
  simp only [fractionPercentage?, Option.bind_eq_bind, Option.mem_def,
    Option.bind_eq_some_iff] at htext
  obtain ⟨parts, -, numerator, -, denominator, -, htext⟩ := htext
  split at htext
  · cases htext
  split at htext
  · cases htext
    simp +decide [Text.inert_toDigits]
  · cases htext
    simp +decide [Text.inert_toDigits]

theorem inertResult_resolveSize? (htheme : theme.IsInert) (spaces : List String)
    {keywords : List (String × String)} (hkeywords : AllInert (keywords.map Prod.snd))
    {value : Candidate.Value} (h : Inert value.text.toList) (negative : Bool) :
    InertResult (resolveSize? theme spaces keywords value negative) := by
  cases value with
  | named name fraction =>
      cases fraction with
      | some fraction =>
          exact (inertResult_fractionPercentage? fraction).map fun _ => inert_negateIf negative
      | none =>
          rw [resolveSize?]
          split
          · rename_i hlookup
            have hkeyword := Text.inertResult_lookup hkeywords _ _ hlookup
            split
            · exact Text.inertResult_none
            · exact Text.inertResult_some.mpr hkeyword
          split
          · rename_i hresolve
            exact Text.inertResult_some.mpr
              (inert_negateIf negative (htheme.resolve? _ _ _ hresolve))
          · exact inertResult_resolveSpacing? htheme h negative
  | arbitrary text hint => exact inertResult_resolveSpacing? htheme h negative

def Numeric.texts : Numeric → List String
  | .template pieces => pieces
  | _ => []

def ValueRule.texts : ValueRule → List String
  | .spacing keywords => keywords.map Prod.snd
  | .size _ keywords => keywords.map Prod.snd
  | .length bare _ => [bare]
  | .themed _ keywords numeric _ => keywords.map Prod.snd ++ numeric.texts
  | .color | .radius => []

theorem inertResult_numericValue? (htheme : theme.IsInert) {numeric : Numeric}
    (hnumeric : AllInert numeric.texts) {text : String} (h : Inert text.toList) :
    InertResult (numeric.value? theme text) := by
  cases numeric with
  | nothing => exact Text.inertResult_none
  | integer => exact InertResult.guard (Text.inertResult_some.mpr h)
  | percent => exact InertResult.guard (by simp +decide [h])
  | milliseconds => exact InertResult.guard (by simp +decide [h])
  | spacing => exact inertResult_spacingStep? htheme h false
  | template pieces =>
      exact InertResult.guard (Text.inertResult_some.mpr (Text.inert_intercalate h hnumeric))

theorem inertResult_themedValue? (htheme : theme.IsInert) (spaces : List String)
    {keywords : List (String × String)} (hkeywords : AllInert (keywords.map Prod.snd))
    {numeric : Numeric} (hnumeric : AllInert numeric.texts) (allowed : List ValueType)
    {value : Candidate.Value} (h : Inert value.text.toList) :
    InertResult (ValueRule.themedValue? theme spaces keywords numeric allowed value) := by
  cases value with
  | named name fraction =>
      have hthemed := htheme.resolve? (some name) spaces
      have hnumber := inertResult_numericValue? htheme hnumeric h
      exact (Text.inertResult_lookup hkeywords name).orElse (hthemed.orElse hnumber)
  | arbitrary text hint => exact InertResult.guard (Text.inertResult_some.mpr h)

theorem inertResult_bareValue? (htheme : theme.IsInert) {rule : ValueRule}
    (hrule : AllInert rule.texts) : InertResult (rule.bareValue? theme) := by
  cases rule with
  | length bare spaces => exact Text.inertResult_some.mpr (hrule _ List.mem_cons_self)
  | radius =>
      have hradius := htheme.resolve? none ["--radius"]
      rw [ValueRule.bareValue?, Text.inertResult_some]
      cases hresolve : theme.resolve? none ["--radius"] with
      | none => decide
      | some radius => exact hradius _ hresolve
  | color => exact Text.inertResult_none
  | spacing keywords => exact Text.inertResult_none
  | size spaces keywords => exact Text.inertResult_none
  | themed spaces keywords numeric allowed => exact Text.inertResult_none

theorem inertResult_value? (htheme : theme.IsInert) {rule : ValueRule}
    (hrule : AllInert rule.texts) {value : Candidate.Value} (h : Inert value.text.toList)
    (negative : Bool) : InertResult (rule.value? theme value negative) := by
  cases rule with
  | color => cases value <;> exact Text.inertResult_none
  | spacing keywords =>
      cases value with
      | arbitrary text hint => exact inertResult_resolveSpacing? htheme h negative
      | named name fraction =>
          rw [ValueRule.value?]
          split
          · rename_i hlookup
            have hkeyword := Text.inertResult_lookup hrule _ _ hlookup
            split
            · exact Text.inertResult_none
            · exact Text.inertResult_some.mpr hkeyword
          · exact inertResult_resolveSpacing? htheme h negative
  | size spaces keywords =>
      simp only [ValueRule.value?]
      exact inertResult_resolveSize? htheme spaces hrule h negative
  | length bare spaces =>
      cases value with
      | arbitrary text hint => exact InertResult.guard (Text.inertResult_some.mpr h)
      | named name fraction =>
          have h : Inert name.toList := h
          exact (htheme.resolve? _ _).orElse (InertResult.guard (by simp +decide [h]))
  | radius =>
      cases value with
      | arbitrary text hint => exact InertResult.guard (Text.inertResult_some.mpr h)
      | named name fraction =>
          exact (Text.inertResult_lookup (by decide) _).orElse (htheme.resolve? _ _)
  | themed spaces keywords numeric allowed =>
      obtain ⟨hkeywords, hnumeric⟩ := Text.allInert_append.mp hrule
      simp only [ValueRule.value?]
      exact (inertResult_themedValue? htheme spaces hkeywords hnumeric allowed h).map
        fun _ => inert_negateIf negative

end Values

section Colors

def Color.texts : Color → List String
  | .themed reference => [reference]
  | .literal text => [text]
  | .keyword _ | .rgb _ _ _ _ => []

theorem texts_parseHex? {text : String} {color : Color} (h : Color.parseHex? text = some color) :
    color.texts = [] := by
  simp only [Color.parseHex?, Option.bind_eq_bind, Option.bind_eq_some_iff] at h
  obtain ⟨-, -, digits, -, hcolor⟩ := h
  split at hcolor <;> cases hcolor <;> rfl

theorem allInert_of_resolveColor? {theme : Theme} (htheme : theme.IsInert)
    {value : Candidate.Value} (h : Inert value.text.toList) {color : Color}
    (hcolor : resolveColor? theme value = some color) : AllInert color.texts := by
  cases value with
  | named name fraction =>
      rw [resolveColor?] at hcolor
      split at hcolor
      · cases hcolor
        decide
      split at hcolor
      · cases hcolor
        decide
      split at hcolor
      · cases hcolor
        decide
      · obtain ⟨reference, hreference, rfl⟩ := Option.map_eq_some_iff.mp hcolor
        simpa [Color.texts] using htheme.resolve? _ _ _ hreference
  | arbitrary text hint =>
      rw [resolveColor?] at hcolor
      split at hcolor
      · cases hcolor
        cases hparse : Color.parseHex? text with
        | none => simpa [Color.texts, Candidate.Value.text] using h
        | some channels => simp [texts_parseHex? hparse]
      · cases hcolor

theorem inertResult_modifierPercentage? {modifier : Candidate.Modifier}
    (h : Inert modifier.text.toList) : InertResult (modifierPercentage? modifier) := by
  cases modifier with
  | named text =>
      have h : Inert text.toList := h
      exact InertResult.guard (by simp +decide [h])
  | arbitrary text =>
      have h : Inert text.toList := h
      rw [modifierPercentage?]
      split
      · exact Text.inertResult_some.mpr h
      split
      · simp +decide [h]
      · intro percentage hpercentage
        obtain ⟨number, -, rfl⟩ := Option.map_eq_some_iff.mp hpercentage
        simp +decide [Binary64.inert_roundedText]

theorem inertResult_modifierAlpha? (modifier : Candidate.Modifier) :
    InertResult (modifierAlpha? modifier) := by
  have hnumber {text : String} {change : Binary64 → Binary64} :
      InertResult ((Binary64.parse? text).map fun number => (change number).roundedText) := by
    intro alpha halpha
    obtain ⟨number, -, rfl⟩ := Option.map_eq_some_iff.mp halpha
    exact Binary64.inert_roundedText _
  cases modifier with
  | named text => exact InertResult.guard hnumber
  | arbitrary text =>
      rw [modifierAlpha?]
      split
      · exact hnumber
      · exact hnumber

theorem inertResult_mixColor? {color : String} {modifier : Option Candidate.Modifier}
    (hcolor : Inert color.toList) (h : AllInert (modifier.map Candidate.Modifier.text).toList) :
    InertResult (mixColor? color modifier) := by
  cases modifier with
  | none => exact Text.inertResult_some.mpr hcolor
  | some modifier =>
      have hpercentage := inertResult_modifierPercentage? (h _ List.mem_cons_self)
      exact hpercentage.map fun _ hvalue => by simp +decide [hcolor, hvalue]

theorem inertNodes_colorDeclarations? {properties : List String} {color : Color}
    {modifier : Option Candidate.Modifier} {opacityKey internalPrefix : String}
    (hproperties : AllInert properties) (hcolor : AllInert color.texts)
    (h : AllInert (modifier.map Candidate.Modifier.text).toList)
    (hkey : Inert opacityKey.toList) (hinternal : Inert internalPrefix.toList) :
    InertNodes (colorDeclarations? properties color modifier opacityKey internalPrefix) := by
  have hmix {text : String} (htext : Inert text.toList) :=
    Sheet.Node.inertNodes_declare hproperties (inertResult_mixColor? htext h)
  cases color with
  | keyword keyword =>
      have hkeyword : InertResult (some keyword.text) :=
        Text.inertResult_some.mpr (by cases keyword <;> decide)
      cases keyword with
      | current => exact hmix (by decide)
      | transparent => exact Sheet.Node.inertNodes_declare hproperties hkeyword
      | inherit => exact Sheet.Node.inertNodes_declare hproperties hkeyword
  | themed reference => exact hmix (hcolor _ List.mem_cons_self)
  | literal text => exact hmix (hcolor _ List.mem_cons_self)
  | rgb red green blue alpha =>
      intro nodes hnodes
      obtain ⟨opacity, hopacity, rfl⟩ := Option.map_eq_some_iff.mp hnodes
      have halpha : Inert opacity.toList := by
        cases modifier with
        | some modifier => exact inertResult_modifierAlpha? modifier _ hopacity
        | none =>
            cases hopacity
            cases alpha with
            | none => decide
            | some number => exact Binary64.inert_roundedText number
      refine Text.allInert_append.mpr ⟨?_, ?_⟩
      · simp +decide [Sheet.Node.declare, Sheet.Node.texts, hinternal, hkey, halpha]
      · refine Sheet.Node.inertNodes_declare hproperties (Text.inertResult_some.mpr ?_) _ rfl
        simp +decide [Text.inert_toDigits, hinternal, hkey]

end Colors

section Utilities

variable {theme : Theme}

def Functional.texts (functional : Functional) : List String :=
  functional.rule.texts ++ functional.roots.flatMap Prod.snd

/-- The utility makes inert nodes of inert candidates. -/
def KeepsInert (theme : Theme) (utility : Utility) : Prop :=
  ∀ candidate, AllInert candidate.texts → InertNodes (utility.compile candidate theme)

theorem keepsInert_functional (htheme : theme.IsInert) {functional : Functional}
    (hfunctional : AllInert functional.texts) {internalPrefix : String}
    (hinternal : Inert internalPrefix.toList) :
    KeepsInert theme (functional.toUtility internalPrefix) := by
  obtain ⟨hrule, hroots⟩ := Text.allInert_append.mp hfunctional
  intro candidate hcandidate
  obtain ⟨hreading, hmodifier⟩ := Text.allInert_append.mp hcandidate
  simp only [Functional.toUtility]
  rw [Functional.compile?]
  cases hcase : candidate.reading with
  | static root => exact Sheet.Node.inertNodes_none
  | property property value => exact Sheet.Node.inertNodes_none
  | functional root value =>
      rw [hcase, Candidate.Reading.texts, Text.allInert_cons] at hreading
      simp only
      cases hlookup : functional.roots.lookup root with
      | none => exact Sheet.Node.inertNodes_none
      | some properties =>
          have hproperties : AllInert properties := fun property hproperty =>
            hroots _ (List.mem_flatMap.mpr ⟨_, Dictionary.mem_of_lookup hlookup, hproperty⟩)
          simp only
          split
          · exact Sheet.Node.inertNodes_none
          cases value with
          | none =>
              simp only
              split
              · exact Sheet.Node.inertNodes_none
              · exact Sheet.Node.inertNodes_declare hproperties
                  (inertResult_bareValue? htheme hrule)
          | some value =>
              have hvalue : Inert value.text.toList := hreading.2 _ List.mem_cons_self
              simp only
              split
              · intro nodes hnodes
                obtain ⟨color, hcolor, hnodes⟩ := Option.bind_eq_some_iff.mp hnodes
                exact inertNodes_colorDeclarations? hproperties
                  (allInert_of_resolveColor? htheme hvalue hcolor) hmodifier hreading.1 hinternal
                  nodes hnodes
              · split
                · exact Sheet.Node.inertNodes_declare hproperties
                    (inertResult_value? htheme hrule hvalue candidate.negative)
                · exact Sheet.Node.inertNodes_none

theorem inertResult_lineHeight? (htheme : theme.IsInert) {modifier : Candidate.Modifier}
    (h : Inert modifier.text.toList) : InertResult (lineHeight? theme modifier) := by
  cases modifier with
  | named name =>
      exact (htheme.resolve? _ _).orElse (inertResult_spacingStep? htheme h false)
  | arbitrary text => exact Text.inertResult_some.mpr h

theorem inert_of_fontSize? (htheme : theme.IsInert) {value : Candidate.Value}
    (h : Inert value.text.toList) {size : String} {paired : Option String}
    (hsize : fontSize? theme value = some (size, paired)) :
    Inert size.toList ∧ InertResult paired := by
  cases value with
  | named name fraction =>
      obtain ⟨found, hfound, heq⟩ := Option.map_eq_some_iff.mp hsize
      cases heq
      exact ⟨htheme.resolve? _ _ _ hfound, htheme.resolve? _ _⟩
  | arbitrary text hint =>
      rw [fontSize?] at hsize
      split at hsize
      · cases hsize
        exact ⟨h, Text.inertResult_none⟩
      · cases hsize

theorem keepsInert_fontSize (htheme : theme.IsInert) : KeepsInert theme fontSize := by
  intro candidate hcandidate nodes hnodes
  obtain ⟨hreading, hmodifier⟩ := Text.allInert_append.mp hcandidate
  simp only [fontSize, compileFontSize?, Option.bind_eq_bind] at hnodes
  rw [Option.mem_def] at hnodes
  split at hnodes
  · cases hnodes
  simp only [Option.bind_eq_some_iff] at hnodes
  obtain ⟨value, hvalue, ⟨size, paired⟩, hsize, hnodes⟩ := hnodes
  have htext : Inert value.text.toList := by
    cases hcase : candidate.reading <;> simp_all [Candidate.value?, Candidate.Reading.value?,
      Candidate.Reading.texts]
  obtain ⟨hsize, hpaired⟩ := inert_of_fontSize? htheme htext hsize
  have hdeclared {height : Option String} (hheight : InertResult height) :
      AllInert (Sheet.Node.textsList (Sheet.Node.declare "font-size" size ::
        (height.map fun height => Sheet.Node.declare "line-height" height).toList)) := by
    cases height with
    | none => simp +decide [Sheet.Node.textsList, Sheet.Node.declare, Sheet.Node.texts, hsize]
    | some height =>
        have hheight := Text.inertResult_some.mp hheight
        simp +decide [Sheet.Node.textsList, Sheet.Node.declare, Sheet.Node.texts, hsize, hheight]
  split at hnodes
  · rename_i modifier hcase
    obtain ⟨height, hheight, hnodes⟩ := Option.bind_eq_some_iff.mp hnodes
    obtain ⟨found, hfound, rfl⟩ := Option.map_eq_some_iff.mp hheight
    cases hnodes
    rw [hcase] at hmodifier
    have hheight := inertResult_lineHeight? htheme (hmodifier _ List.mem_cons_self) _ hfound
    exact hdeclared (Text.inertResult_some.mpr hheight)
  · cases hnodes
    exact hdeclared hpaired

def staticTexts : List String :=
  staticTable.flatMap fun entry => Sheet.Node.declarationTexts entry.2

theorem keepsInert_static : KeepsInert theme static := by
  have htable : AllInert staticTexts := Text.allInert_of_bytes (by decide +kernel)
  intro candidate _
  simp only [static]
  split
  · intro nodes hnodes
    obtain ⟨declarations, hlookup, rfl⟩ := Option.map_eq_some_iff.mp hnodes
    apply Sheet.Node.allInert_declareAll
    intro text htext
    exact htable text (List.mem_flatMap.mpr ⟨_, Dictionary.mem_of_lookup hlookup, htext⟩)
  · exact Sheet.Node.inertNodes_none

theorem keepsInert_property : KeepsInert theme property := by
  intro candidate hcandidate
  obtain ⟨hreading, -⟩ := Text.allInert_append.mp hcandidate
  simp only [property]
  rw [compileProperty?]
  cases hcase : candidate.reading with
  | static root => exact Sheet.Node.inertNodes_none
  | functional root value => exact Sheet.Node.inertNodes_none
  | property name value =>
      rw [hcase] at hreading
      simp only
      split
      · intro nodes hnodes
        cases hnodes
        simpa [Sheet.Node.textsList, Sheet.Node.declare, Sheet.Node.texts,
          Candidate.Reading.texts] using hreading
      · exact Sheet.Node.inertNodes_none

theorem keepsInert_of_mem_catalogue (htheme : theme.IsInert) {internalPrefix : String}
    (hinternal : Inert internalPrefix.toList) {utility : Utility}
    (h : utility ∈ Catalogue.all internalPrefix) : KeepsInert theme utility := by
  have hfunctional (functional : Functional) (hfunctional : AllInert functional.texts) :
      KeepsInert theme (functional.toUtility internalPrefix) :=
    keepsInert_functional htheme hfunctional hinternal
  simp only [Catalogue.all, List.mem_cons, List.not_mem_nil, or_false] at h
  rcases h with rfl | rfl | rfl | rfl | rfl | rfl | rfl | rfl | rfl | rfl | rfl | rfl | rfl | rfl |
    rfl | rfl | rfl | rfl | rfl | rfl | rfl | rfl | rfl | rfl | rfl | rfl | rfl | rfl
  all_goals first
    | exact keepsInert_static
    | exact keepsInert_fontSize htheme
    | exact keepsInert_property
    | exact hfunctional _ (Text.allInert_of_bytes (by decide +kernel))

end Utilities

end Utility

end AtomicCss
