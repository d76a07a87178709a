import AtomicCss.Proofs.CandidateReadings
import AtomicCss.Proofs.Inert
import AtomicCss.Utility.Functional

/-!
Where a named value is looked up. A name that starts with two dashes spells a key of the theme by
itself; any other name is found only behind the namespaces of the utility that reads it, and a class
delivers a name with two leading dashes only where it has three dashes in a row.
-/

namespace AtomicCss

namespace Theme

inductive Names (spaces : List String) (name : String) : (key : String) → Prop
  | spelled (hdashes : ['-', '-'] <+: name.toList) : Names spaces name (keyOf name)
  | inside {space : String} (hspace : space ∈ spaces) (hdashes : ¬['-', '-'] <+: name.toList) :
      Names spaces name (namespaceKey space ++ "-" ++ underscored name)

variable {theme : Theme} {name key : String} {spaces : List String}

theorem names_of_resolveKey? (h : theme.resolveKey? (some name) spaces = some key) :
    key ∈ theme.values.keys ∧ Names spaces name key := by
  rw [resolveKey?] at h
  split at h
  · rename_i hdashes
    split at h
    · rename_i hname
      cases h
      exact ⟨keyOf_mem_of_contains hname, .spelled (List.isPrefixOf_iff_prefix.mp hdashes)⟩
    · cases h
  · rename_i hdashes
    obtain ⟨space, hspace, rfl⟩ := List.mem_map.mp (List.mem_of_find?_eq_some h)
    exact ⟨Dictionary.mem_keys_of_contains (List.find?_some h),
      .inside hspace fun hlead => hdashes (List.isPrefixOf_iff_prefix.mpr hlead)⟩

theorem Names.exists_space (h : Names spaces name key) (hdashes : ¬['-', '-'] <+: name.toList) :
    ∃ space ∈ spaces, key = namespaceKey space ++ "-" ++ underscored name := by
  cases h with
  | spelled hspelled => exact (hdashes hspelled).elim
  | @inside space hspace _ => exact ⟨space, hspace, rfl⟩

theorem names_of_resolve? {reference : String}
    (h : theme.resolve? (some name) spaces = some reference) :
    ∃ key ∈ theme.values.keys, Names spaces name key ∧ reference = theme.varRef key := by
  obtain ⟨key, hkey, rfl⟩ := Option.map_eq_some_iff.mp h
  obtain ⟨hmem, hnames⟩ := names_of_resolveKey? hkey
  exact ⟨key, hmem, hnames, rfl⟩

end Theme

namespace Candidate

theorem value?_of_parseProperty? {inner : List Char} {reading : Reading}
    (h : parseProperty? inner = some reading) : reading.value? = none := by
  simp only [parseProperty?, Option.bind_eq_bind, Option.bind_eq_some_iff] at h
  obtain ⟨parts, -, hreading⟩ := h
  split at hreading
  · cases hreading
  · cases hreading
    rfl

theorem isArbitrary_of_arbitraryValue? {head root : List Char} {value : Value}
    (h : arbitraryValue? head = some (root, value)) : value.isArbitrary = true := by
  have hread {split : Option (List Char × List Char)} {value? : List Char → Option Value}
      (hvalue : ∀ {inner value}, value? inner = some value → value.isArbitrary = true)
      (h : (split.bind fun parts =>
        if parts.1.isEmpty then none else (value? parts.2).map fun value => (parts.1, value)) =
          some (root, value)) : value.isArbitrary = true := by
    obtain ⟨parts, -, h⟩ := Option.bind_eq_some_iff.mp h
    split at h
    · cases h
    · obtain ⟨found, hfound, heq⟩ := Option.map_eq_some_iff.mp h
      cases heq
      exact hvalue hfound
  rcases (Option.orElse_eq_some _ _ _).mp h with hsquare | ⟨-, hround⟩
  · refine hread (fun {inner value} hvalue => ?_) hsquare
    simp only [squareValue?] at hvalue
    split at hvalue
    · cases hvalue
    · cases hvalue
      rfl
  · refine hread (fun {inner value} hvalue => ?_) hround
    simp only [roundValue?] at hvalue
    split at hvalue
    · cases hvalue
      rfl
    · cases hvalue

theorem exists_of_mem_headReadings {roots : Roots} {modifier : Option Modifier} {head : List Char}
    {reading : Reading} (h : reading ∈ headReadings roots modifier head) {name : String}
    {fraction : Option String} (hvalue : reading.value? = some (.named name fraction)) :
    ∃ root, head = root ++ '-' :: name.toList := by
  unfold headReadings at h
  split at h
  · rename_i root value harbitrary
    rw [eq_of_mem_ite_singleton h, Reading.value?, Option.some.injEq] at hvalue
    have harbitrary := isArbitrary_of_arbitraryValue? harbitrary
    rw [hvalue] at harbitrary
    cases harbitrary
  · rcases mem_functionalReadings.mp h with ⟨-, rfl⟩ | ⟨root, value, hhead, -, -, -, rfl⟩
    · cases hvalue
    · cases hvalue
      exact ⟨root, by rw [hhead, String.toList_ofList]⟩

theorem Parts.Describes.head_infix {parts : Parts} {base : List Char} (h : parts.Describes base) :
    parts.head <:+: base := by
  obtain ⟨body, important, negative, head, modifier⟩ := parts
  obtain ⟨hmarked, unsigned, hsigned, hmodified⟩ := h
  have hbody : body <:+: base := by
    cases hmarked with
    | atEnd => exact (List.prefix_append _ _).isInfix
    | atStart => exact (List.suffix_cons _ _).isInfix
    | unmarked => exact List.infix_rfl
  have hunsigned : unsigned <:+: body := by
    cases hsigned with
    | negative => exact (List.suffix_cons _ _).isInfix
    | plain => exact List.infix_rfl
  have hhead : head <:+: unsigned := by
    cases hmodified with
    | cut hslash =>
        rw [hslash.eq]
        exact (List.prefix_append _ _).isInfix
    | whole => exact List.infix_rfl
  exact hhead.trans (hunsigned.trans hbody)

/-- A named value stands behind a dash of the class. -/
theorem dash_infix_of_mem_parse {roots : Roots} {base name : String} {candidate : Candidate}
    {fraction : Option String} (h : candidate ∈ parse roots base)
    (hvalue : candidate.value? = some (.named name fraction)) :
    '-' :: name.toList <:+: base.toList := by
  obtain ⟨parts, hparts⟩ := Parts.exists_describes base.toList
  suffices hsplit : ∃ root, parts.head = root ++ '-' :: name.toList by
    obtain ⟨root, hsplit⟩ := hsplit
    refine List.IsInfix.trans ?_ hparts.head_infix
    rw [hsplit]
    exact (List.suffix_append root _).isInfix
  obtain ⟨hmarked, unsigned, hsigned, hmodified⟩ := hparts
  simp only [parse, hmarked.splitImportant_eq, hsigned.splitNegative_eq,
    ClassName.splitModifier_eq_iff.mpr hmodified] at h
  split at h
  · cases h
  split at h
  · split at h
    · rename_i hproperty
      obtain ⟨inner, -, hproperty⟩ := Option.bind_eq_some_iff.mp hproperty
      rw [List.mem_singleton.mp h, value?, value?_of_parseProperty? hproperty] at hvalue
      cases hvalue
    · cases h
  · split at h
    · rcases List.mem_append.mp h with hstatic | hfunctional
      · rw [eq_of_mem_ite_singleton hstatic] at hvalue
        cases hvalue
      · obtain ⟨reading, hreading, rfl⟩ := List.mem_map.mp hfunctional
        exact exists_of_mem_headReadings hreading hvalue
    · rw [eq_of_mem_ite_singleton h] at hvalue
      cases hvalue

end Candidate

namespace Utility

open Theme (Names)

/-- The texts that a name means as a spacing of the theme: a reference to a key of the spacing
namespace, or a multiple of the spacing itself. -/
inductive IsSpacing (theme : Theme) (name : String) (negative : Bool) : String → Prop
  | token {key : String} (hkey : key ∈ theme.values.keys) (hnames : Names ["--spacing"] name key) :
      IsSpacing theme name negative (negateIf negative (theme.varRef key))
  | step (hspacing : "--spacing" ∈ theme.values.keys) (hname : isScaleNumber name = true) :
      IsSpacing theme name negative
        ("calc(" ++ theme.varRef "--spacing" ++ " * " ++ (if negative then "-" else "") ++ name ++
          ")")

variable {theme : Theme} {name text : String} {fraction : Option String} {negative : Bool}

theorem isSpacing_of_spacingStep? (h : spacingStep? theme name negative = some text) :
    IsSpacing theme name negative text := by
  rw [spacingStep?] at h
  split at h
  · rename_i hstep
    obtain ⟨hname, hcontains⟩ := Bool.and_eq_true_iff.mp hstep
    have hspacing := Theme.keyOf_mem_of_contains hcontains
    have hkey : Theme.keyOf "--spacing" = "--spacing" := by decide
    rw [hkey] at hspacing
    rw [← Option.some.inj h]
    exact .step hspacing hname
  · cases h

theorem isSpacing_of_resolveSpacing?
    (h : resolveSpacing? theme (.named name fraction) negative = some text) :
    text = negateIf negative "1px" ∨ IsSpacing theme name negative text := by
  rw [resolveSpacing?] at h
  split at h
  · exact .inl (Option.some.inj h).symm
  · split at h
    · rename_i themed hthemed
      obtain ⟨key, hkey, hnames, rfl⟩ := Theme.names_of_resolve? hthemed
      rw [← Option.some.inj h]
      exact .inr (.token hkey hnames)
    · exact .inr (isSpacing_of_spacingStep? h)

/-- A name is a color keyword or a color of the theme. -/
theorem names_of_resolveColor? {color : Color}
    (h : resolveColor? theme (.named name fraction) = some color) :
    (∃ keyword, color = .keyword keyword) ∨
      ∃ key ∈ theme.values.keys,
        Names ["--color"] name key ∧ color = .themed (theme.varRef key) := by
  rw [resolveColor?] at h
  split at h
  · exact .inl ⟨_, (Option.some.inj h).symm⟩
  split at h
  · exact .inl ⟨_, (Option.some.inj h).symm⟩
  split at h
  · exact .inl ⟨_, (Option.some.inj h).symm⟩
  · obtain ⟨reference, hreference, rfl⟩ := Option.map_eq_some_iff.mp h
    obtain ⟨key, hkey, hnames, rfl⟩ := Theme.names_of_resolve? hreference
    exact .inr ⟨key, hkey, hnames, rfl⟩

theorem exists_color_of_compile? {functional : Functional} {internalPrefix : String}
    {candidate : Candidate} {nodes : List Sheet.Node} (hrule : functional.rule = .color)
    (hvalue : candidate.value? = some (.named name fraction))
    (h : functional.compile? internalPrefix candidate theme = some nodes) :
    ∃ properties color root, resolveColor? theme (.named name fraction) = some color ∧
      colorDeclarations? properties color candidate.modifier root internalPrefix = some nodes := by
  unfold Functional.compile? at h
  split at h
  · rename_i root value hreading
    rw [Candidate.value?, hreading, Candidate.Reading.value?] at hvalue
    subst hvalue
    split at h
    · cases h
    · rename_i properties _
      simp only [hrule] at h
      split at h
      · cases h
      · obtain ⟨color, hcolor, hnodes⟩ := Option.bind_eq_some_iff.mp h
        exact ⟨properties, color, root, hcolor, hnodes⟩
  · cases h

/-- The texts that a name means as a size without the theme: a fraction, a keyword or one pixel. -/
inductive IsPlainSize (keywords : List (String × String)) (name : String)
    (fraction : Option String) (negative : Bool) : String → Prop
  | fraction {written percentage : String} (hwritten : fraction = some written)
      (hpercentage : fractionPercentage? written = some percentage) :
      IsPlainSize keywords name fraction negative (negateIf negative percentage)
  | keyword {text : String} (hkeyword : keywords.lookup name = some text) :
      IsPlainSize keywords name fraction negative text
  | pixel : IsPlainSize keywords name fraction negative (negateIf negative "1px")

theorem names_of_resolveSize? {spaces : List String} {keywords : List (String × String)}
    (h : resolveSize? theme spaces keywords (.named name fraction) negative = some text) :
    IsPlainSize keywords name fraction negative text ∨
      (∃ key ∈ theme.values.keys, Names spaces name key ∧
        text = negateIf negative (theme.varRef key)) ∨
      IsSpacing theme name negative text := by
  cases fraction with
  | some written =>
      obtain ⟨percentage, hpercentage, rfl⟩ := Option.map_eq_some_iff.mp h
      exact .inl (.fraction rfl hpercentage)
  | none =>
      simp only [resolveSize?] at h
      split at h
      · rename_i keyword hkeyword
        split at h
        · cases h
        · cases h
          exact .inl (.keyword hkeyword)
      · split at h
        · rename_i themed hthemed
          obtain ⟨key, hkey, hnames, rfl⟩ := Theme.names_of_resolve? hthemed
          exact .inr (.inl ⟨key, hkey, hnames, (Option.some.inj h).symm⟩)
        · rcases isSpacing_of_resolveSpacing? h with rfl | hspacing
          · exact .inl .pixel
          · exact .inr (.inr hspacing)

/-- A named value reaches no key outside the namespaces it is looked up in, unless it spells that
key, and no class of a color utility does so without three dashes in a row. -/
theorem named_values_stay_in_their_namespaces (theme : Theme) (name : String)
    (fraction : Option String) (negative : Bool) :
    (∀ reference, resolveColor? theme (.named name fraction) = some (.themed reference) →
      ∃ key ∈ theme.values.keys, Names ["--color"] name key ∧ reference = theme.varRef key) ∧
    (∀ text, resolveSpacing? theme (.named name fraction) negative = some text →
      text = negateIf negative "1px" ∨ IsSpacing theme name negative text) ∧
    (∀ spaces keywords text,
      resolveSize? theme spaces keywords (.named name fraction) negative = some text →
        IsPlainSize keywords name fraction negative text ∨
          (∃ key ∈ theme.values.keys, Names spaces name key ∧
            text = negateIf negative (theme.varRef key)) ∨
          IsSpacing theme name negative text) ∧
    ∀ (functional : Functional) (internalPrefix : String) (roots : Candidate.Roots) (base : String),
      functional.rule = .color → ¬['-', '-', '-'] <:+: base.toList →
        ∀ candidate ∈ Candidate.parse roots base,
          candidate.value? = some (.named name fraction) →
            ∀ nodes, functional.compile? internalPrefix candidate theme = some nodes →
              ∃ properties color root,
                colorDeclarations? properties color candidate.modifier root internalPrefix =
                    some nodes ∧
                  ((∃ keyword, color = .keyword keyword) ∨
                    ∃ key ∈ theme.values.keys,
                      "--color-".toList <+: key.toList ∧ color = .themed (theme.varRef key)) := by
  refine ⟨?_, fun _ => isSpacing_of_resolveSpacing?, fun _ _ _ => names_of_resolveSize?, ?_⟩
  · intro reference h
    rcases names_of_resolveColor? h with ⟨keyword, hkeyword⟩ | ⟨key, hkey, hnames, hthemed⟩
    · cases hkeyword
    · exact ⟨key, hkey, hnames, Color.themed.inj hthemed⟩
  · intro functional internalPrefix roots base hrule hbase candidate hcandidate hvalue nodes h
    obtain ⟨properties, color, root, hcolor, hnodes⟩ := exists_color_of_compile? hrule hvalue h
    refine ⟨properties, color, root, hnodes, (names_of_resolveColor? hcolor).imp_right ?_⟩
    rintro ⟨key, hkey, hnames, hthemed⟩
    have hdashes : ¬['-', '-'] <+: name.toList := fun hdashes =>
      hbase ((List.cons_prefix_cons.mpr ⟨rfl, hdashes⟩).isInfix.trans
        (Candidate.dash_infix_of_mem_parse hcandidate hvalue))
    obtain ⟨space, hspace, rfl⟩ := hnames.exists_space hdashes
    obtain rfl := List.mem_singleton.mp hspace
    refine ⟨_, hkey, ?_, hthemed⟩
    rw [String.toList_append]
    exact List.prefix_append _ _

def steppedTheme : Theme :=
  ((Theme.empty.add "--color-2.5" "red").add "--spacing" "4px").add "--container-2.5" "9rem"

def backgrounds : Functional where
  name := "background-color"
  priority := .standardFunctional
  roots := [("bg", ["background-color"])]
  rule := .color

theorem named_values_stay_in_their_namespaces_stepped :
    (∃ key ∈ steppedTheme.values.keys, Names ["--color"] "2.5" key ∧
      "var(--color-2_5)" = steppedTheme.varRef key) ∧
    ("calc(var(--spacing) * -2.5)" = negateIf true "1px" ∨
      IsSpacing steppedTheme "2.5" true "calc(var(--spacing) * -2.5)") ∧
    (IsPlainSize [] "2.5" none true "calc(var(--container-2_5) * -1)" ∨
      (∃ key ∈ steppedTheme.values.keys, Names ["--container"] "2.5" key ∧
        "calc(var(--container-2_5) * -1)" = negateIf true (steppedTheme.varRef key)) ∨
      IsSpacing steppedTheme "2.5" true "calc(var(--container-2_5) * -1)") ∧
    ∃ candidate ∈ Candidate.parse ⟨fun _ => false, (· == "bg")⟩ "bg-2.5",
      ∃ nodes, backgrounds.compile? "monorail" candidate steppedTheme = some nodes ∧
        ∃ properties color root,
          colorDeclarations? properties color candidate.modifier root "monorail" = some nodes ∧
            ((∃ keyword, color = .keyword keyword) ∨
              ∃ key ∈ steppedTheme.values.keys,
                "--color-".toList <+: key.toList ∧
                  color = .themed (steppedTheme.varRef key)) := by
  obtain ⟨hcolor, hspacing, hsize, hclass⟩ :=
    named_values_stay_in_their_namespaces steppedTheme "2.5" none true
  let candidate : Candidate :=
    ⟨.functional "bg" (some (.named "2.5" none)), none, false, false, "bg-2.5"⟩
  have hcandidate : candidate ∈ Candidate.parse ⟨fun _ => false, (· == "bg")⟩ "bg-2.5" := by
    decide +kernel
  obtain ⟨nodes, hnodes⟩ : ∃ nodes,
      backgrounds.compile? "monorail" candidate steppedTheme = some nodes :=
    Option.isSome_iff_exists.mp (by decide +kernel)
  exact ⟨hcolor _ (by decide +kernel), hspacing _ (by decide +kernel),
    hsize _ _ _ (by decide +kernel), candidate, hcandidate, nodes, hnodes,
    hclass backgrounds _ _ _ rfl (by decide) candidate hcandidate rfl nodes hnodes⟩

/-- A key of every other kind is within reach of a name that spells it. -/
theorem spelled_name_leaves_its_namespace :
    let theme := (Theme.empty.add "--spacing" "4px").add "--color-red" "#f00"
    resolveColor? theme (.named "--spacing" none) = some (.themed "var(--spacing)") ∧
      resolveSpacing? theme (.named "--color-red" none) false = some "var(--color-red)" ∧
      resolveSize? theme ["--container"] [] (.named "--color-red" none) false =
        some "var(--color-red)" := by
  decide +kernel

end Utility

end AtomicCss
