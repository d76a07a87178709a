import AtomicCss.Proofs.Compilation
import AtomicCss.Proofs.Dispatch
import AtomicCss.Proofs.PrefixedUtility

/-!
A name prefix renames the variables of a stylesheet and does nothing else: each class compiles with
and without it to the same rule, up to the prefix in the references of the values.
-/

namespace AtomicCss

namespace Sheet.Node

mutual

theorem mapDeclarations_mapDeclarations (outer inner : Declaration → Declaration) :
    (node : Node) → (node.mapDeclarations inner).mapDeclarations outer =
      node.mapDeclarations (outer ∘ inner)
  | .declaration _ => rfl
  | .rule selector children => by
      simp only [mapDeclarations, mapDeclarationsList_mapDeclarationsList outer inner children]
  | .atRule head children => by
      simp only [mapDeclarations, mapDeclarationsList_mapDeclarationsList outer inner children]

theorem mapDeclarationsList_mapDeclarationsList (outer inner : Declaration → Declaration) :
    (nodes : List Node) → mapDeclarationsList outer (mapDeclarationsList inner nodes) =
      mapDeclarationsList (outer ∘ inner) nodes
  | [] => rfl
  | node :: rest => by
      simp only [mapDeclarationsList, mapDeclarations_mapDeclarations outer inner node,
        mapDeclarationsList_mapDeclarationsList outer inner rest]

end

theorem dropPrefix_markImportant (namePrefix : String) (node : Node) :
    node.markImportant.dropPrefix namePrefix = (node.dropPrefix namePrefix).markImportant := by
  rw [markImportant, dropPrefix, mapDeclarations_mapDeclarations, markImportant, dropPrefix,
    mapDeclarations_mapDeclarations]
  rfl

theorem map_dropPrefix_markImportant {namePrefix : String} {first second : List Node}
    (h : first.map (dropPrefix namePrefix) = second.map (dropPrefix namePrefix)) :
    (first.map markImportant).map (dropPrefix namePrefix) =
      (second.map markImportant).map (dropPrefix namePrefix) := by
  have hcomm : dropPrefix namePrefix ∘ markImportant = markImportant ∘ dropPrefix namePrefix :=
    funext (dropPrefix_markImportant namePrefix)
  rw [List.map_map, List.map_map, hcomm, ← List.map_map, ← List.map_map, h]

end Sheet.Node

section Views

variable {α β γ : Type} {view : β → γ}

/-- Two results with the same view are both missing or both there. -/
theorem cases_of_map_eq {first second : Option β} (h : first.map view = second.map view) :
    (first = none ∧ second = none) ∨
      ∃ value value', first = some value ∧ second = some value' ∧ view value = view value' := by
  cases first with
  | none => exact .inl ⟨rfl, Option.map_eq_none_iff.mp h.symm⟩
  | some value =>
      obtain ⟨value', hvalue', hview⟩ := Option.map_eq_some_iff.mp h.symm
      exact .inr ⟨value, value', rfl, hvalue', hview.symm⟩

theorem map_findSome?_congr {first second : α → Option β} {items : List α}
    (h : ∀ item ∈ items, (first item).map view = (second item).map view) :
    (items.findSome? first).map view = (items.findSome? second).map view := by
  induction items with
  | nil => rfl
  | cons item rest ih =>
      rw [List.findSome?_cons, List.findSome?_cons]
      rcases cases_of_map_eq (h item List.mem_cons_self) with
        ⟨hfirst, hsecond⟩ | ⟨value, value', hfirst, hsecond, hview⟩
      · rw [hfirst, hsecond]
        exact ih fun other hother => h other (List.mem_cons_of_mem item hother)
      · rw [hfirst, hsecond]
        exact congrArg some hview

end Views

namespace Utility

def Resolved.dropPrefix (namePrefix : String) (resolved : Resolved) : Resolved :=
  { resolved with nodes := resolved.nodes.map (Sheet.Node.dropPrefix namePrefix) }

variable {namePrefix : String} {plain prefixed : Theme}

theorem Attempt.run?_dropPrefix {attempt : Attempt}
    (h : Respects namePrefix plain prefixed attempt.utility) :
    (attempt.run? prefixed).map (Resolved.dropPrefix namePrefix) =
      (attempt.run? plain).map (Resolved.dropPrefix namePrefix) := by
  rw [run?, run?]
  rcases cases_of_map_eq (h attempt.candidate) with
    ⟨hprefixed, hplain⟩ | ⟨nodes, nodes', hprefixed, hplain, hnodes⟩
  · rw [hprefixed, hplain]
  · have hempty : nodes.isEmpty = nodes'.isEmpty := by
      rw [← List.isEmpty_map (f := Sheet.Node.dropPrefix namePrefix), hnodes, List.isEmpty_map]
    simp only [hprefixed, hplain, hempty]
    split
    · rfl
    · simp only [Option.map_some, Resolved.dropPrefix]
      split
      · rw [Sheet.Node.map_dropPrefix_markImportant hnodes]
      · rw [hnodes]

namespace Registry

theorem utilities_of_registerAll {registry result : Registry} {utilities : List Utility}
    (h : registry.registerAll utilities = .ok result) :
    result.utilities = registry.utilities ++ utilities := by
  induction utilities generalizing registry with
  | nil =>
      cases h
      rw [List.append_nil]
  | cons utility rest ih =>
      rw [registerAll, List.foldlM_cons] at h
      cases hregister : registry.register utility with
      | error error =>
          rw [hregister] at h
          cases h
      | ok next =>
          rw [hregister] at h
          rw [ih h, utilities_of_register hregister, List.append_assoc, List.singleton_append]

/-- The first attempt that gives nodes is the same for both themes. -/
theorem resolve?_dropPrefix {registry : Registry}
    (h : ∀ utility ∈ registry.utilities, Respects namePrefix plain prefixed utility)
    (base : String) :
    (registry.resolve? prefixed base).map (Resolved.dropPrefix namePrefix) =
      (registry.resolve? plain base).map (Resolved.dropPrefix namePrefix) := by
  apply map_findSome?_congr
  intro attempt hattempt
  exact Attempt.run?_dropPrefix
    (h attempt.utility (List.mem_of_getElem? (mem_attempts.mp hattempt).1))

end Registry

end Utility

/-- Takes the prefix off the references in the values of a rule. Its name, selector, at-rules,
weights, place and properties stay. -/
def CompiledRule.dropPrefix (namePrefix : String) (rule : CompiledRule) : CompiledRule :=
  { rule with nodes := rule.nodes.map (Sheet.Node.dropPrefix namePrefix) }

namespace Compiler

def withTheme (compiler : Compiler) (theme : Theme) : Compiler :=
  { compiler with settings := { compiler.settings with theme } }

@[simp] theorem separator_withTheme (compiler : Compiler) (theme : Theme) :
    (compiler.withTheme theme).settings.separator = compiler.settings.separator := rfl

def Parts.toRule (important : Bool) (name : String) (parts : Parts) : CompiledRule where
  name
  placement := parts.outcome.placement
  nodes := if important then parts.nodes.map Sheet.Node.markImportant else parts.nodes
  weights := parts.outcome.weights
  index := parts.index

theorem compileClass?_eq (compiler : Compiler) (name : String) :
    compiler.compileClass? name =
      (compiler.parts? (Variant.tokenize compiler.settings.separator name).2
        (Variant.tokenize compiler.settings.separator name).1 (Placement.ofClass name)).map
          (Parts.toRule compiler.settings.important name) := rfl

def Parts.dropPrefix (namePrefix : String) (parts : Parts) : Parts :=
  { parts with nodes := parts.nodes.map (Sheet.Node.dropPrefix namePrefix) }

variable {namePrefix : String} {plain prefixed : Theme}

theorem build_withTheme {settings : Settings}
    (h : Theme.Renames namePrefix settings.theme prefixed) :
    build { settings with theme := prefixed } =
      (build settings).map fun compiler => compiler.withTheme prefixed := by
  have hvalidate :
      ({ settings with theme := prefixed } : Settings).validate = settings.validate := rfl
  rw [build, build, hvalidate]
  simp only [Variant.Registry.standard, h.standardFamilies_eq]
  cases settings.validate with
  | error error => rfl
  | ok _ =>
      cases Utility.Registry.empty.registerAll (customUtilities settings.definitions ++
          Utility.Catalogue.all settings.internalPrefix) with
      | error error => rfl
      | ok utilities =>
          cases Variant.Registry.empty.registerAll (Variant.standardFamilies settings.theme
              settings.darkMode settings.internalPrefix) with
          | error error => rfl
          | ok variants => rfl

/-- What a compiler is made of. -/
theorem parts_of_build {settings : Settings} {compiler : Compiler}
    (h : build settings = .ok compiler) :
    compiler.settings = settings ∧
      Utility.Registry.empty.registerAll (customUtilities settings.definitions ++
        Utility.Catalogue.all settings.internalPrefix) = .ok compiler.utilities ∧
      Variant.Registry.standard settings.theme settings.darkMode settings.internalPrefix =
        .ok compiler.variants := by
  rw [build] at h
  cases hvalidate : settings.validate with
  | error error =>
      rw [hvalidate] at h
      cases h
  | ok _ =>
      cases hutilities : Utility.Registry.empty.registerAll
          (customUtilities settings.definitions ++
            Utility.Catalogue.all settings.internalPrefix) with
      | error error =>
          rw [hvalidate, hutilities] at h
          cases h
      | ok utilities =>
          cases hvariants : Variant.Registry.standard settings.theme settings.darkMode
              settings.internalPrefix with
          | error error =>
              rw [hvalidate, hutilities, hvariants] at h
              cases h
          | ok variants =>
              rw [hvalidate, hutilities, hvariants] at h
              cases h
              exact ⟨rfl, rfl, rfl⟩

theorem settings_of_build {settings : Settings} {compiler : Compiler}
    (h : build settings = .ok compiler) :
    compiler.settings = settings ∧
      compiler.utilities.utilities = customUtilities settings.definitions ++
        Utility.Catalogue.all settings.internalPrefix := by
  obtain ⟨hsettings, hutilities, -⟩ := parts_of_build h
  exact ⟨hsettings, Utility.Registry.utilities_of_registerAll hutilities⟩

/-- The utilities of a compiler come from its definitions and from the catalogue. -/
theorem mem_utilities_of_build {settings : Settings} {compiler : Compiler} {utility : Utility}
    (h : build settings = .ok compiler) (hutility : utility ∈ compiler.utilities.utilities) :
    (∃ definition ∈ lastDefinitions settings.definitions,
      Utility.ofDefinition definition = .ok utility) ∨
        utility ∈ Utility.Catalogue.all settings.internalPrefix := by
  rw [(settings_of_build h).2, List.mem_append] at hutility
  rcases hutility with hcustom | hbuiltin
  · obtain ⟨definition, hdefinition, hof⟩ := List.mem_filterMap.mp hcustom
    refine .inl ⟨definition, hdefinition, ?_⟩
    cases hcase : Utility.ofDefinition definition with
    | error error =>
        rw [hcase] at hof
        cases hof
    | ok custom =>
        rw [hcase] at hof
        cases hof
        rfl
  · exact .inr hbuiltin

theorem respects_of_build {settings : Settings} {compiler : Compiler}
    (h : Theme.Renames namePrefix plain prefixed) (hbuild : build settings = .ok compiler) :
    ∀ utility ∈ compiler.utilities.utilities,
      Utility.Respects namePrefix plain prefixed utility := by
  intro utility hutility
  rcases mem_utilities_of_build hbuild hutility with ⟨definition, -, hof⟩ | hbuiltin
  · exact Utility.respects_ofDefinition h hof
  · exact Utility.respects_of_mem_catalogue h settings.internalPrefix utility hbuiltin

theorem parts?_dropPrefix {compiler : Compiler}
    (h : ∀ utility ∈ compiler.utilities.utilities,
      Utility.Respects namePrefix compiler.settings.theme prefixed utility) (base : String)
    (tokens : List Variant.Token) (start : Placement) :
    ((compiler.withTheme prefixed).parts? base tokens start).map (Parts.dropPrefix namePrefix) =
      (compiler.parts? base tokens start).map (Parts.dropPrefix namePrefix) := by
  simp only [parts?, withTheme]
  split
  · rfl
  rcases cases_of_map_eq (Utility.Registry.resolve?_dropPrefix h base) with
    ⟨hprefixed, hplain⟩ | ⟨resolved, resolved', hprefixed, hplain, hresolved⟩
  · rw [hprefixed, hplain]
  · simp only [Utility.Resolved.dropPrefix, Utility.Resolved.mk.injEq] at hresolved
    rw [hprefixed, hplain]
    by_cases hcomplete : (compiler.variants.run start tokens).isComplete
    · simp only [hcomplete, if_true, Option.map_some, Parts.dropPrefix, hresolved]
    · simp only [hcomplete]
      rfl

theorem dropPrefix_toRule {parts parts' : Parts}
    (h : parts.dropPrefix namePrefix = parts'.dropPrefix namePrefix) (important : Bool)
    (name : String) :
    (parts.toRule important name).dropPrefix namePrefix =
      (parts'.toRule important name).dropPrefix namePrefix := by
  simp only [Parts.dropPrefix, Parts.mk.injEq] at h
  cases important with
  | true =>
      simp only [Parts.toRule, CompiledRule.dropPrefix, h, if_true,
        Sheet.Node.map_dropPrefix_markImportant h.1]
  | false => simp [Parts.toRule, CompiledRule.dropPrefix, h]

theorem compileClass?_dropPrefix {compiler : Compiler}
    (h : ∀ utility ∈ compiler.utilities.utilities,
      Utility.Respects namePrefix compiler.settings.theme prefixed utility) (name : String) :
    ((compiler.withTheme prefixed).compileClass? name).map
        (CompiledRule.dropPrefix namePrefix) =
      (compiler.compileClass? name).map (CompiledRule.dropPrefix namePrefix) := by
  have hparts := parts?_dropPrefix h (Variant.tokenize compiler.settings.separator name).2
    (Variant.tokenize compiler.settings.separator name).1 (Placement.ofClass name)
  rw [compileClass?_eq, compileClass?_eq]
  rcases cases_of_map_eq hparts with
    ⟨hprefixed, hplain⟩ | ⟨parts, parts', hprefixed, hplain, hsame⟩
  · rw [separator_withTheme, hprefixed, hplain]
    rfl
  · rw [separator_withTheme, hprefixed, hplain]
    exact congrArg some (dropPrefix_toRule hsame compiler.settings.important name)

/-- The prefix changes neither whether a compiler can be built nor which classes compile, and the
rules of these only in the names that their values refer to. -/
theorem prefix_renames_references (settings : Settings) (namePrefix : String)
    (hplain : settings.theme.namePrefix = none)
    (hfresh : settings.theme.IsFreshPrefix namePrefix) :
    match build settings,
      build { settings with theme := settings.theme.withPrefix namePrefix } with
    | .ok plain, .ok prefixed =>
        ∀ name, (prefixed.compileClass? name).map (CompiledRule.dropPrefix namePrefix) =
          (plain.compileClass? name).map (CompiledRule.dropPrefix namePrefix)
    | .error first, .error second => first = second
    | _, _ => False := by
  by_cases hempty : namePrefix = ""
  · subst hempty
    rw [Theme.withPrefix_empty hplain]
    cases build settings with
    | error error => rfl
    | ok compiler => exact fun _ => rfl
  · have hrenames := Theme.renames_withPrefix hplain hfresh hempty
    rw [build_withTheme hrenames]
    cases hbuild : build settings with
    | error error => rfl
    | ok compiler =>
        have hrespects := respects_of_build hrenames hbuild
        obtain ⟨rfl, -⟩ := settings_of_build hbuild
        intro name
        exact compileClass?_dropPrefix hrespects name

def declaredValues (compiler : Compiler) (name : String) : Option (List String) :=
  (compiler.compileClass? name).map fun rule =>
    (Sheet.Node.declarationsList rule.nodes).map Sheet.Declaration.value

def brandTheme : Theme :=
  Theme.empty.add "--color-brand" "#0af"

theorem prefix_renames_references_brand :
    ∃ plain prefixed : Compiler,
      build { theme := brandTheme } = .ok plain ∧
        build { theme := brandTheme.withPrefix "tw" } = .ok prefixed ∧
          brandTheme.namePrefix = none ∧ brandTheme.IsFreshPrefix "tw" ∧
            plain.declaredValues "bg-brand/50" =
              some ["color-mix(in oklab, var(--color-brand) 50%, transparent)"] ∧
            prefixed.declaredValues "bg-brand/50" =
              some ["color-mix(in oklab, var(--tw-color-brand) 50%, transparent)"] ∧
            ∀ name, (prefixed.compileClass? name).map (CompiledRule.dropPrefix "tw") =
              (plain.compileClass? name).map (CompiledRule.dropPrefix "tw") := by
  obtain ⟨plain, hplain, hvalues⟩ := exists_build { theme := brandTheme }
    (fun compiler => compiler.declaredValues "bg-brand/50" ==
      some ["color-mix(in oklab, var(--color-brand) 50%, transparent)"]) (by decide +kernel)
  obtain ⟨prefixed, hprefixed, hvalues'⟩ :=
    exists_build { theme := brandTheme.withPrefix "tw" }
      (fun compiler => compiler.declaredValues "bg-brand/50" ==
        some ["color-mix(in oklab, var(--tw-color-brand) 50%, transparent)"])
      (by decide +kernel)
  have hname : "tw".toList.all Css.isNameChar = true := by decide
  have hfresh : brandTheme.IsFreshPrefix "tw" :=
    ⟨List.all_eq_true.mp hname, by decide, by decide, by decide +kernel, by decide +kernel⟩
  have hrenames := prefix_renames_references { theme := brandTheme } "tw" rfl hfresh
  rw [hplain, hprefixed] at hrenames
  exact ⟨plain, prefixed, hplain, hprefixed, rfl, hfresh, beq_iff_eq.mp hvalues,
    beq_iff_eq.mp hvalues', hrenames⟩

end Compiler

end AtomicCss
