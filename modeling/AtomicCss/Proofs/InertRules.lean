import AtomicCss.Proofs.InertUtility

/-!
Classes cannot break out of their rules: if the settings are inert, then each rule of a class made
of characters that classes are scanned for is inert.
-/

namespace AtomicCss

open Text (AllInert Inert InertResult)

namespace Utility

open Sheet.Node (InertNodes declarationTexts)

def NestedRule.texts (rule : NestedRule) : List String :=
  rule.selector :: declarationTexts rule.declarations

def Definition.texts (definition : Definition) : List String :=
  definition.pattern ::
    (declarationTexts definition.declarations ++ definition.nested.flatMap NestedRule.texts)

namespace Wildcard

theorem inert_of_captureRest? {literals : List (List Char)} {subject : List Char}
    {captures : List (List Char)} (h : Inert subject)
    (hcaptures : captureRest? literals subject = some captures) :
    ∀ capture ∈ captures, Inert capture := by
  induction literals generalizing subject captures with
  | nil =>
      cases subject with
      | nil =>
          cases hcaptures
          exact nofun
      | cons c rest => cases hcaptures
  | cons literal literals ih =>
      obtain ⟨parts, hparts, hfound⟩ := List.exists_of_findSome?_eq_some hcaptures
      obtain ⟨later, hlater, rfl⟩ := Option.map_eq_some_iff.mp hfound
      obtain ⟨rest, hafter, hlater⟩ := Option.bind_eq_some_iff.mp hlater
      rw [(mem_beginnings.mp hparts).1, Text.inert_append] at h
      exact List.forall_mem_cons.mpr ⟨h.1, ih (h.2.after? hafter) hlater⟩

theorem inert_of_captures? {pattern subject : List Char} {captures : List (List Char)}
    (h : Inert subject) (hcaptures : captures? pattern subject = some captures) :
    ∀ capture ∈ captures, Inert capture := by
  rw [captures?, Matcher.captures?] at hcaptures
  split at hcaptures
  · cases hcaptures
  · obtain ⟨rest, hafter, hrest⟩ := Option.bind_eq_some_iff.mp hcaptures
    exact inert_of_captureRest? (h.after? hafter) hrest

end Wildcard

namespace Custom

variable {theme : Theme}

theorem inertResult_themeValue? (htheme : theme.IsInert) (template : List Char)
    (capture : String) : InertResult (themeValue? theme template capture) :=
  (htheme.value_of_get? _).map fun _ => htheme.inline _

theorem inertResult_argumentValue? (htheme : theme.IsInert) {arbitrary : Option Candidate.Value}
    (harbitrary : InertResult (arbitrary.map Candidate.Value.text)) {capture : String}
    (hcapture : Inert capture.toList) (argument : List Char) :
    InertResult (argumentValue? theme arbitrary capture argument) := by
  unfold argumentValue?
  split
  · split
    · exact Text.inertResult_none
    · exact inertResult_themeValue? htheme _ _
  split
  · intro text htext
    obtain ⟨value, hvalue, rfl⟩ := Option.map_eq_some_iff.mp htext
    have harbitraryValue := (Option.filter_eq_some_iff.mp hvalue).1
    exact harbitrary _ (Option.map_eq_some_iff.mpr ⟨value, harbitraryValue, rfl⟩)
  split
  · rename_i word _
    split
    · rename_i hword
      rw [eq_of_beq (Bool.and_eq_true_iff.mp hword).2]
      exact Text.inertResult_some.mpr hcapture
    · exact Text.inertResult_none
  · apply InertResult.guard
    split
    · simp +decide [hcapture]
    · exact Text.inertResult_some.mpr hcapture

theorem inertResult_functionValue? (htheme : theme.IsInert) {arbitrary : Option Candidate.Value}
    (harbitrary : InertResult (arbitrary.map Candidate.Value.text)) {capture : String}
    (hcapture : Inert capture.toList) (arguments : List Char) :
    InertResult (functionValue? theme arbitrary capture arguments) := by
  refine InertResult.orElse ?_ harbitrary
  intro text htext
  obtain ⟨argument, -, hargument⟩ := List.exists_of_findSome?_eq_some htext
  exact inertResult_argumentValue? htheme harbitrary hcapture _ _ hargument

theorem allInert_nextCapture {captures : List String} (h : AllInert captures) :
    Inert (nextCapture captures).1.toList ∧ AllInert (nextCapture captures).2 := by
  unfold nextCapture
  split
  · exact ⟨by decide, nofun⟩
  · exact ⟨h _ List.mem_cons_self, h⟩
  · exact Text.allInert_cons.mp h

theorem inert_of_substituteFrom? {resolve? : String → List Char → Option String}
    (hresolve : ∀ capture arguments,
      Inert capture.toList → InertResult (resolve? capture arguments))
    {previous : Option Char} {captures : List String} {text result : List Char}
    (hcaptures : AllInert captures) (h : Inert text)
    (hresult : substituteFrom? resolve? previous captures text = some result) : Inert result := by
  fun_induction substituteFrom? resolve? previous captures text generalizing result with
  | case1 => cases hresult
  | case2 previous captures text opened hopened arguments rest hspan capture later hnext ih =>
      have hcapture := allInert_nextCapture hcaptures
      rw [hnext] at hcapture
      have hopened := h.after? hopened
      rw [Css.Delimiter.eq_append_of_span? hspan, Text.inert_append, Text.inert_cons] at hopened
      simp only [Option.bind_eq_bind, Option.bind_eq_some_iff] at hresult
      obtain ⟨value, hvalue, tail, htail, hresult⟩ := hresult
      cases hresult
      exact Text.inert_append.mpr
        ⟨hresolve capture arguments hcapture.1 value hvalue, ih hcapture.2 hopened.2.2 htail⟩
  | case3 =>
      cases hresult
      exact Text.inert_nil
  | case4 previous captures c rest _ _ capture later hnext ih =>
      have hcapture := allInert_nextCapture hcaptures
      rw [hnext] at hcapture
      simp only [Option.bind_eq_bind, Option.bind_eq_some_iff] at hresult
      obtain ⟨tail, htail, hresult⟩ := hresult
      cases hresult
      exact Text.inert_append.mpr ⟨hcapture.1, ih hcapture.2 (Text.inert_cons.mp h).2 htail⟩
  | case5 previous captures c rest _ _ ih =>
      obtain ⟨tail, htail, rfl⟩ := Option.map_eq_some_iff.mp hresult
      obtain ⟨hc, hrest⟩ := Text.inert_cons.mp h
      exact Text.inert_cons.mpr ⟨hc, ih hcaptures hrest htail⟩

structure Captures.IsInert (captures : Captures) : Prop where
  texts : AllInert captures.texts
  arbitrary : InertResult (captures.arbitrary.map Candidate.Value.text)

theorem isInert_of_captures? {definition : Definition} {root : String} {value : Candidate.Value}
    {captures : Captures} (hroot : Inert root.toList) (hvalue : Inert value.text.toList)
    (h : captures? definition root value = some captures) : captures.IsInert := by
  cases value with
  | named text fraction =>
      have htext : Inert text.toList := hvalue
      obtain ⟨parts, hparts, rfl⟩ := Option.map_eq_some_iff.mp h
      refine ⟨?_, nofun⟩
      intro part hpart
      obtain ⟨chars, hchars, rfl⟩ := List.mem_map.mp hpart
      rw [String.toList_ofList]
      exact Wildcard.inert_of_captures? (by simp +decide [hroot, htext]) hparts chars hchars
  | arbitrary text hint =>
      simp only [captures?] at h
      split at h
      · cases h
        exact ⟨by simpa [Candidate.Value.text] using hvalue, Text.inertResult_some.mpr hvalue⟩
      · cases h

theorem exists_of_mem_mapM {Item Result : Type} {change : Item → Option Result}
    {items : List Item} {results : List Result} (h : items.mapM change = some results)
    {result : Result} (hresult : result ∈ results) :
    ∃ item ∈ items, change item = some result := by
  induction items generalizing results with
  | nil =>
      cases h
      cases hresult
  | cons item rest ih =>
      simp only [List.mapM_cons, Option.bind_eq_bind, Option.pure_def,
        Option.bind_eq_some_iff] at h
      obtain ⟨first, hfirst, later, hlater, heq⟩ := h
      cases heq
      rcases List.mem_cons.mp hresult with rfl | hlatter
      · exact ⟨item, List.mem_cons_self, hfirst⟩
      · obtain ⟨found, hfound, hchange⟩ := ih hlater hlatter
        exact ⟨found, List.mem_cons_of_mem item hfound, hchange⟩

theorem inertNodes_substituteAll? (htheme : theme.IsInert) {captures : Captures}
    (hcaptures : captures.IsInert) {declarations : List (String × String)}
    (h : AllInert (declarationTexts declarations)) :
    InertNodes (substituteAll? theme captures declarations) := by
  intro nodes hnodes
  rw [Sheet.Node.allInert_textsList]
  intro node hnode
  obtain ⟨entry, hentry, hnode⟩ := exists_of_mem_mapM hnodes hnode
  obtain ⟨value, hvalue, rfl⟩ := Option.map_eq_some_iff.mp hnode
  obtain ⟨chars, hchars, rfl⟩ := Option.map_eq_some_iff.mp hvalue
  have hwritten := List.forall_mem_flatMap.mp h entry hentry
  have hinert := inert_of_substituteFrom?
    (fun _ arguments hcapture =>
      inertResult_functionValue? htheme hcaptures.arbitrary hcapture arguments)
    hcaptures.texts (hwritten entry.2 (by simp)) hchars
  simp [Sheet.Node.declare, Sheet.Node.texts, hinert, hwritten entry.1]

theorem inertNodes_compileWildcard? (htheme : theme.IsInert) {definition : Definition}
    (hdefinition : AllInert definition.texts) {candidate : Candidate}
    (hcandidate : AllInert candidate.texts) :
    InertNodes (compileWildcard? definition candidate theme) := by
  obtain ⟨-, hbody⟩ := Text.allInert_cons.mp hdefinition
  obtain ⟨hown, hnested⟩ := Text.allInert_append.mp hbody
  obtain ⟨hreading, -⟩ := Text.allInert_append.mp hcandidate
  unfold compileWildcard?
  split
  · rename_i root value hcase
    rw [hcase, Candidate.Reading.texts, Text.allInert_cons] at hreading
    split
    · exact Sheet.Node.inertNodes_none
    · intro nodes hnodes
      simp only [Option.bind_eq_bind, Option.mem_def, Option.bind_eq_some_iff] at hnodes
      obtain ⟨captures, hcaptures, own, howned, nested, hnest, hnodes⟩ := hnodes
      cases hnodes
      have hinert := isInert_of_captures? hreading.1 (hreading.2 _ List.mem_cons_self) hcaptures
      rw [Sheet.Node.allInert_textsList]
      intro node hnode
      rcases List.mem_append.mp hnode with hmem | hmem
      · exact Sheet.Node.allInert_textsList.mp
          (inertNodes_substituteAll? htheme hinert hown own howned) node hmem
      · obtain ⟨rule, hrule, hmade⟩ := exists_of_mem_mapM hnest hmem
        obtain ⟨children, hchildren, rfl⟩ := Option.map_eq_some_iff.mp hmade
        obtain ⟨hselector, hinner⟩ :=
          Text.allInert_cons.mp (List.forall_mem_flatMap.mp hnested rule hrule)
        exact Text.allInert_cons.mpr
          ⟨hselector, inertNodes_substituteAll? htheme hinert hinner children hchildren⟩
  · exact Sheet.Node.inertNodes_none

theorem inertNodes_compileStatic? {definition : Definition}
    (hdefinition : AllInert definition.texts) (candidate : Candidate) (theme : Theme) :
    InertNodes (compileStatic? definition candidate theme) := by
  obtain ⟨-, hbody⟩ := Text.allInert_cons.mp hdefinition
  obtain ⟨hown, hnested⟩ := Text.allInert_append.mp hbody
  unfold compileStatic?
  split
  · split
    · intro nodes hnodes
      cases hnodes
      rw [Sheet.Node.allInert_textsList]
      intro node hnode
      rcases List.mem_append.mp hnode with hmem | hmem
      · exact Sheet.Node.allInert_textsList.mp (Sheet.Node.allInert_declareAll hown) node hmem
      · obtain ⟨rule, hrule, rfl⟩ := List.mem_map.mp hmem
        obtain ⟨hselector, hinner⟩ :=
          Text.allInert_cons.mp (List.forall_mem_flatMap.mp hnested rule hrule)
        exact Text.allInert_cons.mpr ⟨hselector, Sheet.Node.allInert_declareAll hinner⟩
    · exact Sheet.Node.inertNodes_none
  · exact Sheet.Node.inertNodes_none

end Custom

theorem keepsInert_ofDefinition {theme : Theme} (htheme : theme.IsInert) {definition : Definition}
    (hdefinition : AllInert definition.texts) {utility : Utility}
    (h : ofDefinition definition = .ok utility) : KeepsInert theme utility := by
  unfold ofDefinition at h
  split at h
  · cases h
  split at h
  · cases h
    exact fun candidate hcandidate =>
      Custom.inertNodes_compileWildcard? htheme hdefinition hcandidate
  · cases h
    exact fun candidate _ => Custom.inertNodes_compileStatic? hdefinition candidate theme

/-- What a registry of such utilities makes of an inert base is inert. -/
theorem Registry.allInert_of_resolve? {registry : Registry} {theme : Theme} {base : String}
    {resolved : Resolved} (hutilities : ∀ utility ∈ registry.utilities, KeepsInert theme utility)
    (hbase : Inert base.toList) (h : registry.resolve? theme base = some resolved) :
    AllInert (Sheet.Node.textsList resolved.nodes) := by
  obtain ⟨attempt, nodes, hpairing, -, rfl⟩ := exists_least_of_resolve? h
  have hcandidate := Candidate.allInert_of_mem_parse hbase (List.mem_of_getElem? hpairing.candidate)
  have hutility := hutilities attempt.utility (List.mem_of_getElem? hpairing.utility)
  exact Sheet.Node.allInert_marked
    (hutility attempt.candidate hcandidate nodes hpairing.compiled) attempt.candidate.important

end Utility

def Settings.texts (settings : Settings) : List String :=
  settings.theme.texts ++
    (settings.darkMode.texts ++ settings.definitions.flatMap Utility.Definition.texts)

def CompiledRule.texts (rule : CompiledRule) : List String :=
  rule.placement.texts ++ Sheet.Node.textsList rule.nodes

namespace Compiler

theorem mem_of_mem_foldl_insertLast {kept : Dictionary Utility.Definition}
    {definitions : List Utility.Definition} {definition : Utility.Definition}
    (h : definition ∈ (definitions.foldl (fun (kept : Dictionary Utility.Definition) definition =>
      kept.insertLast definition.pattern definition) kept).values) :
    definition ∈ kept.values ∨ definition ∈ definitions := by
  induction definitions generalizing kept with
  | nil => exact .inl h
  | cons first rest ih =>
      rcases ih h with hkept | hrest
      · rcases Dictionary.mem_values_insertLast hkept with rfl | hold
        · exact .inr List.mem_cons_self
        · exact .inl hold
      · exact .inr (List.mem_cons_of_mem first hrest)

theorem mem_of_mem_lastDefinitions {definitions : List Utility.Definition}
    {definition : Utility.Definition} (h : definition ∈ lastDefinitions definitions) :
    definition ∈ definitions :=
  (mem_of_mem_foldl_insertLast h).resolve_left nofun

theorem isInternalPrefix_of_validate {settings : Settings} (h : settings.validate = .ok ()) :
    Settings.isInternalPrefix settings.internalPrefix = true := by
  rw [Settings.validate] at h
  split at h
  · cases h
  split at h
  · cases h
  split at h
  · cases h
  · rename_i hvalid
    simpa using hvalid

theorem inert_internalPrefix_of_build {settings : Settings} {compiler : Compiler}
    (h : build settings = .ok compiler) : Inert settings.internalPrefix.toList := by
  have hvalid : settings.validate = .ok () := by
    cases hvalidate : settings.validate with
    | error error =>
        rw [build, hvalidate] at h
        cases h
    | ok _ => rfl
  exact Text.inert_of_all Settings.isPrefixChar (by decide)
    (Bool.and_eq_true_iff.mp (isInternalPrefix_of_validate hvalid)).2

theorem keepsInert_of_build {settings : Settings} {compiler : Compiler}
    (hsettings : AllInert settings.texts) (h : build settings = .ok compiler) :
    ∀ utility ∈ compiler.utilities.utilities, Utility.KeepsInert settings.theme utility := by
  obtain ⟨htheme, hrest⟩ := Text.allInert_append.mp hsettings
  obtain ⟨-, hdefinitions⟩ := Text.allInert_append.mp hrest
  intro utility hutility
  rcases mem_utilities_of_build h hutility with ⟨definition, hdefinition, hof⟩ | hbuiltin
  · have hinert := List.forall_mem_flatMap.mp hdefinitions definition
      (mem_of_mem_lastDefinitions hdefinition)
    exact Utility.keepsInert_ofDefinition htheme hinert hof
  · exact Utility.keepsInert_of_mem_catalogue htheme (inert_internalPrefix_of_build h) hbuiltin

/-- If the settings hold no character that opens, closes or ends a part of a stylesheet, then no
class of scannable characters brings one into its rule. -/
theorem scanned_classes_stay_in_their_rules {settings : Settings} {compiler : Compiler}
    {name : String} {rule : CompiledRule} (hsettings : AllInert settings.texts)
    (hbuild : build settings = .ok compiler)
    (hname : name.toList.all Extract.isAllowedChar = true)
    (hrule : compiler.compileClass? name = some rule) : AllInert rule.texts := by
  have hinert := Text.inert_of_isAllowedChar hname
  have hsegment {segment : List Char}
      (hsegment : segment ∈ ClassName.segments settings.separator name.toList) :
      Inert segment := hinert.pieces hsegment
  obtain ⟨htheme, hrest⟩ := Text.allInert_append.mp hsettings
  obtain ⟨hdark, -⟩ := Text.allInert_append.mp hrest
  apply Text.allInert_append.mpr
  constructor
  · refine (chain_of_compileClass? hbuild hrule).allInert ?_ ?_
    · intro token htoken change hchange
      obtain ⟨segment, hmem, rfl⟩ := List.mem_map.mp htoken
      have hwritten : Inert (String.ofList segment).toList := by
        rw [String.toList_ofList]
        exact hsegment (List.mem_of_mem_dropLast hmem)
      have hshape := Variant.allInert_classify hwritten
      exact Variant.allInert_of_makes htheme hdark (inert_internalPrefix_of_build hbuild) hshape
        hchange
    · have hescape := ClassName.inert_escape hinert
      simp +decide [Placement.texts, Placement.ofClass, Placement.ofSelector, Selector.ofClass,
        hescape]
  · rw [compileClass?_eq, (parts_of_build hbuild).1] at hrule
    obtain ⟨parts, hparts, rfl⟩ := Option.map_eq_some_iff.mp hrule
    obtain ⟨-, ⟨resolved, hresolved, hnodes, -⟩, -, -⟩ := parts?_eq_some hparts
    rw [(parts_of_build hbuild).1] at hresolved
    have hbase : Inert (Variant.tokenize settings.separator name).2.toList := by
      rw [Variant.tokenize, String.toList_ofList]
      cases hlast : (ClassName.segments settings.separator name.toList).getLast? with
      | none => exact Text.inert_nil
      | some segment => exact hsegment (List.mem_of_getLast? hlast)
    have hmade := Utility.Registry.allInert_of_resolve? (keepsInert_of_build hsettings hbuild) hbase
      hresolved
    rw [← hnodes] at hmade
    exact Sheet.Node.allInert_marked hmade settings.important

def tabDefinition : Utility.Definition where
  pattern := "tab-*"
  declarations := [("tab-size", "--value([*])")]
  nested := [⟨"& pre", [("color", "red")]⟩]

theorem scanned_classes_stay_in_their_rules_tab :
    ∃ (compiler : Compiler) (rule : CompiledRule),
      AllInert ({ theme := brandTheme, definitions := [tabDefinition] } : Settings).texts ∧
        build { theme := brandTheme, definitions := [tabDefinition] } = .ok compiler ∧
          "[@media_print]:dark:tab-[1+1]".toList.all Extract.isAllowedChar = true ∧
            compiler.compileClass? "[@media_print]:dark:tab-[1+1]" = some rule ∧
              rule.texts =
                [".\\[\\@media_print\\]\\:dark\\:tab-\\[1\\+1\\]:where(.dark, .dark *)", "media",
                  "print", "tab-size", "1+1", "& pre", "color", "red"] ∧
                AllInert rule.texts := by
  have hsettings :
      AllInert ({ theme := brandTheme, definitions := [tabDefinition] } : Settings).texts :=
    Text.allInert_of_bytes (by decide +kernel)
  obtain ⟨compiler, hbuild, htexts⟩ := exists_build
    { theme := brandTheme, definitions := [tabDefinition] }
    (fun compiler =>
      (compiler.compileClass? "[@media_print]:dark:tab-[1+1]").map CompiledRule.texts ==
        some [".\\[\\@media_print\\]\\:dark\\:tab-\\[1\\+1\\]:where(.dark, .dark *)", "media",
          "print", "tab-size", "1+1", "& pre", "color", "red"]) (by decide +kernel)
  obtain ⟨rule, hrule, htexts⟩ := Option.map_eq_some_iff.mp (beq_iff_eq.mp htexts)
  exact ⟨compiler, rule, hsettings, hbuild, by decide, hrule, htexts,
    scanned_classes_stay_in_their_rules hsettings hbuild (by decide) hrule⟩

/-- The prefix of the names of a theme is written as it is given, so that it has to be inert as
well. -/
theorem name_prefix_breaks_out_of_rules :
    ∃ (compiler : Compiler) (rule : CompiledRule),
      (∀ entry ∈ (brandTheme.withPrefix "a;b").entries,
        Inert entry.1.toList ∧ Inert entry.2.toList) ∧
        build { theme := brandTheme.withPrefix "a;b" } = .ok compiler ∧
          "bg-brand".toList.all Extract.isAllowedChar = true ∧
            compiler.compileClass? "bg-brand" = some rule ∧
              rule.texts = [".bg-brand", "background-color", "var(--a;b-color-brand)"] ∧
                ¬AllInert rule.texts := by
  obtain ⟨compiler, hbuild, htexts⟩ := exists_build { theme := brandTheme.withPrefix "a;b" }
    (fun compiler => (compiler.compileClass? "bg-brand").map CompiledRule.texts ==
      some [".bg-brand", "background-color", "var(--a;b-color-brand)"]) (by decide +kernel)
  obtain ⟨rule, hrule, htexts⟩ := Option.map_eq_some_iff.mp (beq_iff_eq.mp htexts)
  refine ⟨compiler, rule, by decide, hbuild, by decide, hrule, htexts, ?_⟩
  rw [htexts]
  decide

end Compiler

end AtomicCss
