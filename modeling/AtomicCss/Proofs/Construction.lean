import AtomicCss.Proofs.PrefixedRules

/-!
How a compiler is put together. User-defined utilities never keep one from being built: of each
pattern the last definition counts, a definition that is not valid is left out, and the names of the
others are new.
-/

namespace AtomicCss

namespace Dictionary

variable {Value : Type}

def lastEntries : List (String × Value) → List (String × Value)
  | [] => []
  | entry :: rest =>
      if entry.1 ∈ rest.map Prod.fst then lastEntries rest else entry :: lastEntries rest

theorem lastEntries_eq_self {entries : List (String × Value)}
    (h : (entries.map Prod.fst).Nodup) : lastEntries entries = entries := by
  induction entries with
  | nil => rfl
  | cons entry rest ih =>
      obtain ⟨hentry, hrest⟩ := List.nodup_cons.mp h
      rw [lastEntries, if_neg hentry, ih hrest]

theorem put_of_not_mem {key : String} {entries : List (String × Value)}
    (h : key ∉ entries.map Prod.fst) (value : Value) :
    put key value entries = entries ++ [(key, value)] := by
  induction entries with
  | nil => rfl
  | cons entry rest ih =>
      obtain ⟨hentry, hrest⟩ := not_or.mp (mt List.mem_cons.mpr h)
      rw [put, if_neg (Ne.symm hentry), ih hrest]
      rfl

theorem entries_insertLast (dictionary : Dictionary Value) (key : String) (value : Value) :
    (dictionary.insertLast key value).entries =
      dictionary.entries.filter (·.1 != key) ++ [(key, value)] := by
  apply put_of_not_mem
  simp [erase]

/-- Inserting entries at the end one after another keeps the last of each key, in their order. -/
theorem entries_foldl_insertLast (dictionary : Dictionary Value)
    (entries : List (String × Value)) :
    (entries.foldl (fun kept entry => kept.insertLast entry.1 entry.2) dictionary).entries =
      dictionary.entries.filter (fun entry => decide (entry.1 ∉ entries.map Prod.fst)) ++
        lastEntries entries := by
  induction entries generalizing dictionary with
  | nil => simp [lastEntries]
  | cons entry rest ih =>
      rw [List.foldl_cons, ih, entries_insertLast, List.filter_append, List.filter_filter,
        List.append_assoc]
      congr 1
      · apply List.filter_congr
        intro other _
        rw [Bool.eq_iff_iff]
        simp only [Bool.and_eq_true, decide_eq_true_eq, bne_iff_ne, List.map_cons, List.mem_cons,
          not_or, and_comm]
      · by_cases hentry : entry.1 ∈ rest.map Prod.fst
        · rw [lastEntries, if_pos hentry, List.filter_cons_of_neg (by simpa using hentry)]
          rfl
        · rw [lastEntries, if_neg hentry, List.filter_cons_of_pos (by simpa using hentry)]
          rfl

end Dictionary

namespace Utility

theorem Registry.exists_registerAll {registry : Registry} {utilities : List Utility}
    (hnames : (registry.names ++ utilities.map Utility.name).Nodup)
    (hroots : ∀ utility ∈ utilities, utility.declaresNothing = false) :
    ∃ result, registry.registerAll utilities = .ok result := by
  induction utilities generalizing registry with
  | nil => exact ⟨registry, rfl⟩
  | cons utility rest ih =>
      obtain ⟨hutility, hrest⟩ := List.forall_mem_cons.mp hroots
      have hrotated : (registry.names ++ [utility.name] ++ rest.map Utility.name).Nodup := by
        simpa using hnames
      cases hregister : registry.register utility with
      | error error =>
          rcases register_fails_iff.mp ⟨error, hregister⟩ with hname | hnothing
          · have hapart := (List.nodup_append.mp (List.nodup_append.mp hrotated).1).2.2
            exact (hapart _ hname _ (List.mem_singleton_self _) rfl).elim
          · rw [hutility] at hnothing
            cases hnothing
      | ok next =>
          have hnext : next.names = registry.names ++ [utility.name] := by
            rw [names, utilities_of_register hregister, List.map_append]
            rfl
          rw [registerAll, List.foldlM_cons, hregister]
          exact ih (hnext ▸ hrotated) hrest

theorem of_ofDefinition {definition : Definition} {utility : Utility}
    (h : ofDefinition definition = .ok utility) :
    definition.validate = .ok () ∧ utility.name = "@utility " ++ definition.pattern ∧
      utility.declaresNothing = false := by
  unfold ofDefinition at h
  split at h
  · cases h
  · rename_i hvalid
    split at h
    · cases h
      exact ⟨hvalid, rfl, rfl⟩
    · cases h
      exact ⟨hvalid, rfl, rfl⟩

theorem exists_ofDefinition {definition : Definition} (h : definition.validate = .ok ()) :
    ∃ utility, ofDefinition definition = .ok utility := by
  unfold ofDefinition
  rw [h]
  simp only
  split
  · exact ⟨_, rfl⟩
  · exact ⟨_, rfl⟩

namespace Catalogue

theorem declaresNothing_eq_false (internalPrefix : String) :
    ∀ utility ∈ all internalPrefix, utility.declaresNothing = false := by
  have hall : (all internalPrefix).all (fun utility => !utility.declaresNothing) = true := rfl
  intro utility hutility
  simpa using List.all_eq_true.mp hall utility hutility

theorem names_all (internalPrefix : String) :
    (all internalPrefix).map Utility.name =
      ["static", "z-index", "order", "opacity", "grid-template", "grid-span", "flex",
        "transition-duration", "margin", "inset", "letter-spacing", "background-color",
        "font-size", "text-color", "border-width", "border-color", "padding", "gap", "width",
        "height", "size", "flex-basis", "border-radius", "font-weight", "font-family",
        "line-height", "svg-paint", "arbitrary-property"] :=
  rfl

theorem nodup_names (internalPrefix : String) :
    ((all internalPrefix).map Utility.name).Nodup := by
  rw [names_all]
  decide +kernel

theorem ne_name (internalPrefix pattern : String) :
    ∀ utility ∈ all internalPrefix, "@utility " ++ pattern ≠ utility.name := by
  have hheads : ((all internalPrefix).map Utility.name).all
      (fun name => name.toList.head? != some '@') = true := by
    rw [names_all]
    decide +kernel
  intro utility hutility heq
  have hhead := List.all_eq_true.mp hheads utility.name (List.mem_map_of_mem hutility)
  rw [← heq, String.toList_append] at hhead
  cases hhead

end Catalogue

end Utility

namespace Variant.Registry

theorem insertByWeight_eq_append {family : Family} {families : List Family}
    (h : ∀ other ∈ families, other.weight ≤ family.weight) :
    insertByWeight family families = families ++ [family] := by
  induction families with
  | nil => rfl
  | cons first rest ih =>
      obtain ⟨hfirst, hrest⟩ := List.forall_mem_cons.mp h
      rw [insertByWeight, if_neg (Nat.not_lt.mpr hfirst), ih hrest]
      rfl

theorem registerAll_eq {registry : Registry} {families : List Family}
    (hnames : ((registry.families ++ families).map Family.name).Nodup)
    (hweights : ((registry.families ++ families).map Family.weight).Pairwise (· ≤ ·)) :
    registry.registerAll families = .ok ⟨registry.families ++ families⟩ := by
  induction families generalizing registry with
  | nil => simp [registerAll, pure, Except.pure]
  | cons family rest ih =>
      rw [List.append_cons] at hnames hweights
      have hname : registry.families.any (fun other => other.name == family.name) = false := by
        rw [List.any_eq_false]
        intro other hother
        have hfirst := (List.nodup_append.mp (List.map_append ▸ hnames)).1
        have hapart := (List.nodup_append.mp (List.map_append ▸ hfirst)).2.2
        simpa using hapart _ (List.mem_map_of_mem hother) family.name (by simp)
      have hweight : ∀ other ∈ registry.families, other.weight ≤ family.weight := by
        intro other hother
        have hfirst := (List.pairwise_append.mp (List.map_append ▸ hweights)).1
        have hapart := (List.pairwise_append.mp (List.map_append ▸ hfirst)).2.2
        exact hapart _ (List.mem_map_of_mem hother) family.weight (by simp)
      have hregister : registry.register family = .ok ⟨registry.families ++ [family]⟩ := by
        rw [register, hname, insertByWeight_eq_append hweight]
        rfl
      rw [registerAll, List.foldlM_cons, hregister,
        List.append_cons registry.families family rest]
      exact ih hnames hweights

/-- The built-in families stand in the order of their registration. -/
theorem standard_eq (theme : Theme) (darkMode : DarkMode) (internalPrefix : String) :
    standard theme darkMode internalPrefix =
      .ok ⟨standardFamilies theme darkMode internalPrefix⟩ := by
  have hnames : (standardFamilies theme darkMode internalPrefix).map Family.name =
      ["pseudo", "nth", "attribute", "selector-function", "group-peer", "arbitrary", "prose",
        "dark", "media-feature", "supports", "responsive", "container"] := rfl
  have hweights : (standardFamilies theme darkMode internalPrefix).map Family.weight =
      [100, 130, 140, 150, 160, 170, 180, 250, 300, 350, 400, 700] := rfl
  apply registerAll_eq
  · rw [empty, List.nil_append, hnames]
    decide
  · rw [empty, List.nil_append, hweights]
    decide

end Variant.Registry

namespace Compiler

open Utility

def lastOfEachPattern : List Definition → List Definition
  | [] => []
  | definition :: rest =>
      if rest.any fun other => other.pattern == definition.pattern then lastOfEachPattern rest
      else definition :: lastOfEachPattern rest

theorem lastDefinitions_eq (definitions : List Definition) :
    lastDefinitions definitions = lastOfEachPattern definitions := by
  have hentries := Dictionary.entries_foldl_insertLast .empty
    (definitions.map fun definition => (definition.pattern, definition))
  rw [List.foldl_map, Dictionary.entries_empty, List.filter_nil, List.nil_append] at hentries
  rw [lastDefinitions, Dictionary.values, hentries]
  clear hentries
  induction definitions with
  | nil => rfl
  | cons definition rest ih =>
      have hlater : (rest.any fun other => other.pattern == definition.pattern) = true ↔
          definition.pattern ∈
            (rest.map fun definition => (definition.pattern, definition)).map Prod.fst := by
        simp
      rw [List.map_cons, Dictionary.lastEntries, lastOfEachPattern]
      by_cases hpattern : (rest.any fun other => other.pattern == definition.pattern) = true
      · rw [if_pos (hlater.mp hpattern), if_pos hpattern, ih]
      · rw [if_neg (mt hlater.mpr hpattern), if_neg hpattern, List.map_cons, ih]

theorem lastOfEachPattern_sublist (definitions : List Definition) :
    (lastOfEachPattern definitions).Sublist definitions := by
  induction definitions with
  | nil => exact .slnil
  | cons definition rest ih =>
      rw [lastOfEachPattern]
      split
      · exact ih.cons definition
      · exact ih.cons_cons definition

theorem nodup_lastOfEachPattern (definitions : List Definition) :
    ((lastOfEachPattern definitions).map Definition.pattern).Nodup := by
  induction definitions with
  | nil => exact List.nodup_nil
  | cons definition rest ih =>
      rw [lastOfEachPattern]
      split
      · exact ih
      · rename_i hlast
        rw [List.map_cons, List.nodup_cons]
        refine ⟨fun hmem => hlast ?_, ih⟩
        obtain ⟨other, hother, heq⟩ := List.mem_map.mp hmem
        exact List.any_eq_true.mpr
          ⟨other, (lastOfEachPattern_sublist rest).subset hother, beq_iff_eq.mpr heq⟩

/-- The definitions that count: of each pattern the last one, if it is valid. -/
def effectiveDefinitions (definitions : List Definition) : List Definition :=
  (lastOfEachPattern definitions).filter fun definition => definition.validate = .ok ()

theorem forall₂_customUtilities (definitions : List Definition) :
    List.Forall₂ (fun definition utility => ofDefinition definition = .ok utility)
      (effectiveDefinitions definitions) (customUtilities definitions) := by
  rw [customUtilities, lastDefinitions_eq, effectiveDefinitions]
  generalize lastOfEachPattern definitions = kept
  induction kept with
  | nil => exact .nil
  | cons definition rest ih =>
      by_cases hvalid : definition.validate = .ok ()
      · obtain ⟨utility, hutility⟩ := exists_ofDefinition hvalid
        rw [List.filter_cons_of_pos (by simpa using hvalid),
          List.filterMap_cons_some (by rw [hutility]; rfl)]
        exact .cons hutility ih
      · rw [List.filter_cons_of_neg (by simpa using hvalid), List.filterMap_cons_none]
        · exact ih
        · cases hutility : ofDefinition definition with
          | error error => rfl
          | ok utility => exact (hvalid (of_ofDefinition hutility).1).elim

theorem of_forall₂_ofDefinition {definitions : List Definition} {utilities : List Utility}
    (h : List.Forall₂ (fun definition utility => ofDefinition definition = .ok utility)
      definitions utilities) :
    utilities.map Utility.name =
        (definitions.map Definition.pattern).map ("@utility " ++ ·) ∧
      ∀ utility ∈ utilities, utility.declaresNothing = false := by
  induction h with
  | nil => simp
  | cons hutility _ ih =>
      obtain ⟨-, hname, hroots⟩ := of_ofDefinition hutility
      refine ⟨?_, List.forall_mem_cons.mpr ⟨hroots, ih.2⟩⟩
      rw [List.map_cons, List.map_cons, List.map_cons, ih.1, hname]

theorem nodup_names_customUtilities (definitions : List Definition) :
    ((customUtilities definitions).map Utility.name).Nodup := by
  have hpatterns : ((effectiveDefinitions definitions).map Definition.pattern).Nodup :=
    (nodup_lastOfEachPattern definitions).sublist (List.filter_sublist.map Definition.pattern)
  rw [(of_forall₂_ofDefinition (forall₂_customUtilities definitions)).1]
  apply hpatterns.map
  intro first second heq
  simpa using heq

theorem exists_registry (settings : Settings) :
    ∃ registry, Registry.empty.registerAll
      (customUtilities settings.definitions ++ Catalogue.all settings.internalPrefix) =
        .ok registry := by
  obtain ⟨hnames, hroots⟩ := of_forall₂_ofDefinition (forall₂_customUtilities settings.definitions)
  apply Registry.exists_registerAll
  · rw [Registry.names, Registry.empty, List.map_nil, List.nil_append, List.map_append,
      List.nodup_append]
    refine ⟨nodup_names_customUtilities settings.definitions, Catalogue.nodup_names _, ?_⟩
    intro name hname other hother
    rw [hnames] at hname
    obtain ⟨pattern, -, rfl⟩ := List.mem_map.mp hname
    obtain ⟨utility, hutility, rfl⟩ := List.mem_map.mp hother
    exact Catalogue.ne_name settings.internalPrefix pattern utility hutility
  · intro utility hutility
    rcases List.mem_append.mp hutility with hcustom | hbuiltin
    · exact hroots utility hcustom
    · exact Catalogue.declaresNothing_eq_false settings.internalPrefix utility hbuiltin

theorem build_eq_error_iff (settings : Settings) (error : ConstructionError) :
    build settings = .error error ↔ settings.validate = .error error := by
  obtain ⟨registry, hregistry⟩ := exists_registry settings
  rw [build, hregistry, Variant.Registry.standard_eq]
  cases settings.validate with
  | error first =>
      constructor
      · intro h
        cases h
        rfl
      · intro h
        cases h
        rfl
  | ok _ =>
      constructor
      · intro h
        cases h
      · intro h
        cases h

theorem validate_fails_iff (settings : Settings) :
    (∃ error, settings.validate = .error error) ↔
      Text.isBlank settings.separator = true ∨
        Settings.isReservedSeparator settings.separator = true ∨
          settings.hasDarkSelector = false ∨
            Settings.isInternalPrefix settings.internalPrefix = false := by
  rw [Settings.validate]
  cases Text.isBlank settings.separator with
  | true => simp
  | false =>
      cases Settings.isReservedSeparator settings.separator with
      | true => simp
      | false =>
          cases settings.hasDarkSelector with
          | false => simp
          | true => cases Settings.isInternalPrefix settings.internalPrefix <;> simp

/-- No definition keeps a compiler from being built. Its utilities are those of the definitions that
count, in their order, and then the built-in ones. -/
theorem build_registers_effective_definitions (settings : Settings) :
    (∀ error, build settings = .error error ↔ settings.validate = .error error) ∧
      ((∃ error, build settings = .error error) ↔
        Text.isBlank settings.separator = true ∨
          Settings.isReservedSeparator settings.separator = true ∨
            settings.hasDarkSelector = false ∨
              Settings.isInternalPrefix settings.internalPrefix = false) ∧
      ∀ compiler, build settings = .ok compiler →
        ∃ custom, compiler.utilities.utilities =
            custom ++ Catalogue.all settings.internalPrefix ∧
          List.Forall₂ (fun definition utility => ofDefinition definition = .ok utility)
            (effectiveDefinitions settings.definitions) custom := by
  refine ⟨build_eq_error_iff settings, ?_, ?_⟩
  · simp only [build_eq_error_iff]
    exact validate_fails_iff settings
  · intro compiler hbuild
    exact ⟨customUtilities settings.definitions, (settings_of_build hbuild).2,
      forall₂_customUtilities settings.definitions⟩

/-- A pattern that is defined twice, one whose last definition declares nothing, and one that is no
pattern. -/
def mixedDefinitions : List Definition :=
  [⟨"tab-*", [("tab-size", "1")], []⟩, ⟨"card", [("color", "red")], []⟩,
    ⟨"note", [("color", "blue")], []⟩, ⟨"No", [("color", "green")], []⟩,
    ⟨"tab-*", [("tab-size", "2")], []⟩, ⟨"card", [], []⟩]

theorem build_registers_effective_definitions_mixed :
    ∃ compiler, build { definitions := mixedDefinitions } = .ok compiler ∧
      effectiveDefinitions mixedDefinitions =
        [⟨"note", [("color", "blue")], []⟩, ⟨"tab-*", [("tab-size", "2")], []⟩] ∧
      ∃ custom, compiler.utilities.utilities = custom ++ Catalogue.all "monorail" ∧
        List.Forall₂ (fun definition utility => ofDefinition definition = .ok utility)
          (effectiveDefinitions mixedDefinitions) custom := by
  obtain ⟨compiler, hbuild, -⟩ := exists_build { definitions := mixedDefinitions }
    (fun _ => true) (by decide +kernel)
  exact ⟨compiler, hbuild, by decide +kernel,
    (build_registers_effective_definitions { definitions := mixedDefinitions }).2.2 compiler hbuild⟩

end Compiler

end AtomicCss
