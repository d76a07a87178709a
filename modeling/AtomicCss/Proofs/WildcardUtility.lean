import AtomicCss.Proofs.CandidateReadings
import AtomicCss.Proofs.Dispatch
import AtomicCss.Proofs.PatternGrammar
import AtomicCss.Proofs.WildcardMatching
import Mathlib.Data.List.Forall2

/-!
Wildcard utilities answer for the classes that their pattern matches as a whole. Looking up a root
and cutting the class at each dash neither loses nor adds a match.
-/

namespace AtomicCss

namespace ClassName

theorem Modified.eq_whole {text head : List Char} {modifier : Option (List Char)}
    (h : Modified text head modifier) (hslash : '/' ∉ text) : head = text ∧ modifier = none := by
  cases h with
  | cut hcut =>
      rw [hcut.eq] at hslash
      simp at hslash
  | whole => exact ⟨rfl, rfl⟩

end ClassName

namespace Candidate

/-- The characters by which a base says more than a name. -/
def marks : List Char :=
  ['/', '[', ']', '(', ')', '!']

theorem splitSpan?_eq_none {opening closing : Char} {head : List Char} (h : opening ∉ head) :
    splitSpan? (ClassName.inside? opening closing) head = none := by
  rw [splitSpan?, List.findSome?_eq_none_iff]
  intro parts hparts
  cases hinside : ClassName.inside? opening closing parts.2 with
  | none => rfl
  | some inner =>
      rw [Text.mem_cutsAt.mp hparts, (ClassName.eq_of_inside? hinside).1] at h
      simp at h

theorem arbitraryValue?_eq_none {head : List Char} (hsquare : '[' ∉ head) (hround : '(' ∉ head) :
    arbitraryValue? head = none := by
  have hsquare' : splitSpan? ClassName.insideSquare? head = none := splitSpan?_eq_none hsquare
  have hround' : splitSpan? ClassName.insideRound? head = none := splitSpan?_eq_none hround
  simp [arbitraryValue?, hsquare', hround']

theorem Marked.eq_unmarked {base body : List Char} {important : Bool}
    (h : Marked base body important) (hmark : '!' ∉ base) : body = base ∧ important = false := by
  cases h with
  | atEnd => simp at hmark
  | atStart => simp at hmark
  | unmarked => exact ⟨rfl, rfl⟩

theorem Signed.suffix {body unsigned : List Char} {negative : Bool}
    (h : Signed body unsigned negative) : unsigned <:+ body := by
  cases h with
  | negative => exact List.suffix_cons '-' unsigned
  | plain => exact List.suffix_rfl

theorem Signed.eq_of_not_negative {body unsigned : List Char} {negative : Bool}
    (h : Signed body unsigned negative) (hnegative : negative = false) : unsigned = body := by
  cases h with
  | negative => cases hnegative
  | plain => rfl

theorem Signed.not_negative {c : Char} {rest unsigned : List Char} {negative : Bool}
    (h : Signed (c :: rest) unsigned negative) (hc : c ≠ '-') : negative = false := by
  cases h with
  | negative => exact (hc rfl).elim
  | plain => rfl

/-- A base without marks is its own body and has no modifier. -/
theorem Parts.Describes.of_marks {parts : Parts} {base : List Char} (h : parts.Describes base)
    (hbase : ∀ mark ∈ marks, mark ∉ base) :
    parts.body = base ∧ parts.important = false ∧ parts.modifier = none ∧
      Signed base parts.head parts.negative := by
  obtain ⟨hmarked, unsigned, hsigned, hmodified⟩ := h
  have hmark : '!' ∉ base := hbase '!' (by decide)
  have hslash : '/' ∉ base := hbase '/' (by decide)
  obtain ⟨hbody, himportant⟩ := hmarked.eq_unmarked hmark
  rw [hbody] at hsigned
  have hslash' : '/' ∉ unsigned := fun hmem => hslash (hsigned.suffix.subset hmem)
  obtain ⟨hhead, hmodifier⟩ := hmodified.eq_whole hslash'
  exact ⟨hbody, himportant, hmodifier, hhead ▸ hsigned⟩

theorem Parts.Describes.mem_parse_iff_of_marks {parts : Parts} {base : String}
    (h : parts.Describes base.toList) (hbase : ∀ mark ∈ marks, mark ∉ base.toList)
    (hnonempty : base.toList ≠ []) {roots : Roots} {candidate : Candidate} :
    candidate ∈ parse roots base ↔ Possible roots parts candidate := by
  obtain ⟨hbody, -, -, hsigned⟩ := h.of_marks hbase
  have hhead {mark : Char} (hmark : mark ∈ marks) : mark ∉ parts.head :=
    fun hmem => hbase mark hmark (hsigned.suffix.subset hmem)
  apply mem_parse_iff h
  · rwa [hbody]
  · rw [hbody]
    intro hfirst
    exact hbase '[' (by decide) (List.mem_of_head? hfirst)
  · exact arbitraryValue?_eq_none (hhead (by decide)) (hhead (by decide))

end Candidate

namespace Utility

open Wildcard (Fits FitsGreedily)

namespace Wildcard

theorem fits_append_of_not_mem {lead : List Char} (h : '*' ∉ lead) {pattern subject : List Char}
    {texts : List (List Char)} :
    Fits (lead ++ pattern) texts subject ↔
      ∃ rest, subject = lead ++ rest ∧ Fits pattern texts rest := by
  induction lead generalizing subject with
  | nil => simp
  | cons c lead ih =>
      have hc : c ≠ '*' := fun hc => h (hc ▸ List.mem_cons_self)
      have hlead : '*' ∉ lead := fun hmem => h (List.mem_cons_of_mem c hmem)
      rw [List.cons_append, fits_cons_of_ne hc]
      constructor
      · intro hgiven
        obtain ⟨later, hsubject, hfits⟩ := hgiven
        obtain ⟨rest, hlater, hfits⟩ := (ih hlead).mp hfits
        exact ⟨rest, by rw [hsubject, hlater]; rfl, hfits⟩
      · intro hgiven
        obtain ⟨rest, hsubject, hfits⟩ := hgiven
        exact ⟨lead ++ rest, hsubject, (ih hlead).mpr ⟨rest, rfl, hfits⟩⟩

theorem exists_value_of_fits {root tail subject : List Char} {texts : List (List Char)}
    (hroot : '*' ∉ root) (h : Fits (root ++ '-' :: '*' :: tail) texts subject) :
    ∃ value, subject = root ++ '-' :: value ∧ value ≠ [] := by
  obtain ⟨rest, hsubject, hfits⟩ := (fits_append_of_not_mem hroot).mp h
  obtain ⟨value, hrest, hfits⟩ := (fits_cons_of_ne (by decide)).mp hfits
  obtain ⟨text, after, later, -, hvalue, hnonempty, -⟩ := fits_cons_star.mp hfits
  refine ⟨value, by rw [hsubject, hrest], ?_⟩
  rw [hvalue]
  exact List.append_ne_nil_of_left_ne_nil hnonempty after

end Wildcard

namespace Definition

structure IsRooted (definition : Definition) (root tail : List Char) : Prop where
  pattern_eq : definition.pattern.toList = root ++ '-' :: '*' :: tail
  no_star : '*' ∉ root
  starts : ∃ c rest, root = c :: rest ∧ c.isLower = true
  root_eq : definition.root = String.ofList root

theorem exists_isRooted {definition : Definition} (hvalid : definition.validate = .ok ())
    (hwildcard : definition.isWildcard = true) : ∃ root tail, definition.IsRooted root tail := by
  have hderives := Pattern.isWellFormed_iff.mp (of_validate hvalid).1
  obtain ⟨root, tail, hpattern, hstar, hroot⟩ :=
    hderives.exists_root (List.contains_iff_mem.mp hwildcard)
  exact ⟨root, tail, hpattern, hstar, hroot.exists_letter, root_eq hpattern hstar⟩

end Definition

namespace Custom

theorem mapM_eq_some_iff {Item Result : Type} {change : Item → Option Result} {items : List Item}
    {results : List Result} :
    items.mapM change = some results ↔
      List.Forall₂ (fun item result => change item = some result) items results := by
  induction items generalizing results with
  | nil => simp [eq_comm]
  | cons item rest ih =>
      simp only [List.mapM_cons, Option.bind_eq_bind, Option.pure_def, Option.bind_eq_some_iff, ih]
      constructor
      · intro hgiven
        obtain ⟨result, hresult, later, hlater, heq⟩ := hgiven
        cases heq
        exact .cons hresult hlater
      · intro h
        cases h with
        | cons hresult hlater => exact ⟨_, hresult, _, hlater, rfl⟩

theorem exists_forall₂_iff {Item Result : Type} {related : Item → Result → Prop}
    {items : List Item} :
    (∃ results, List.Forall₂ related items results) ↔
      ∀ item ∈ items, ∃ result, related item result := by
  induction items with
  | nil => simp
  | cons item rest ih =>
      rw [List.forall_mem_cons, ← ih]
      constructor
      · intro hgiven
        obtain ⟨results, h⟩ := hgiven
        cases h with
        | cons hresult hlater => exact ⟨⟨_, hresult⟩, _, hlater⟩
      · intro hgiven
        obtain ⟨⟨result, hresult⟩, results, hlater⟩ := hgiven
        exact ⟨result :: results, .cons hresult hlater⟩

/-- A node for each declaration, in order, with the texts put into its value. -/
def Substituted (theme : Theme) (texts : List String) (declarations : List (String × String))
    (nodes : List Sheet.Node) : Prop :=
  List.Forall₂ (fun entry node => ∃ value, substitute? theme ⟨texts, none⟩ entry.2 = some value ∧
    Sheet.Node.declare entry.1 value = node) declarations nodes

def SubstitutedRule (theme : Theme) (texts : List String) (rule : NestedRule)
    (node : Sheet.Node) : Prop :=
  ∃ children, Substituted theme texts rule.declarations children ∧
    Sheet.Node.rule rule.selector children = node

/-- The declarations of a definition with the texts put in, then a rule for each nested block. -/
def Instantiated (theme : Theme) (texts : List String) (definition : Definition)
    (nodes : List Sheet.Node) : Prop :=
  ∃ own nested, Substituted theme texts definition.declarations own ∧
    List.Forall₂ (SubstitutedRule theme texts) definition.nested nested ∧ nodes = own ++ nested

theorem substituteAll?_eq_some_iff {theme : Theme} {texts : List String}
    {declarations : List (String × String)} {nodes : List Sheet.Node} :
    substituteAll? theme ⟨texts, none⟩ declarations = some nodes ↔
      Substituted theme texts declarations nodes := by
  simp only [substituteAll?, mapM_eq_some_iff, Substituted, Option.map_eq_some_iff]

theorem mapM_rule_eq_some_iff {theme : Theme} {texts : List String} {rules : List NestedRule}
    {nodes : List Sheet.Node} :
    (rules.mapM fun rule =>
      (substituteAll? theme ⟨texts, none⟩ rule.declarations).map fun children =>
        Sheet.Node.rule rule.selector children) = some nodes ↔
        List.Forall₂ (SubstitutedRule theme texts) rules nodes := by
  simp only [mapM_eq_some_iff, Option.map_eq_some_iff, substituteAll?_eq_some_iff]
  rfl

theorem captures?_named_eq_some_iff {definition : Definition} {root text : String}
    {fraction : Option String} {captures : Captures} :
    captures? definition root (.named text fraction) = some captures ↔
      ∃ texts : List String, captures = ⟨texts, none⟩ ∧
        FitsGreedily definition.pattern.toList (texts.map String.toList)
          (root ++ "-" ++ text).toList := by
  rw [captures?, Option.map_eq_some_iff]
  constructor
  · intro h
    obtain ⟨parts, hparts, hcaptures⟩ := h
    have hmap : (parts.map String.ofList).map String.toList = parts := by simp
    exact ⟨_, hcaptures.symm, hmap.symm ▸ Wildcard.captures?_eq_some_iff.mp hparts⟩
  · intro h
    obtain ⟨texts, hcaptures, hfits⟩ := h
    exact ⟨_, Wildcard.captures?_eq_some_iff.mpr hfits, by simp [hcaptures]⟩

theorem compileWildcard?_eq_some_iff {definition : Definition} {candidate : Candidate}
    {theme : Theme} {root text : String} {fraction : Option String} {nodes : List Sheet.Node}
    (hreading : candidate.reading = .functional root (some (.named text fraction))) :
    compileWildcard? definition candidate theme = some nodes ↔
      candidate.negative = false ∧ candidate.modifier = none ∧
        ∃ texts : List String,
          FitsGreedily definition.pattern.toList (texts.map String.toList)
            (root ++ "-" ++ text).toList ∧
          Instantiated theme texts definition nodes := by
  simp only [compileWildcard?, hreading]
  split
  · rename_i hrefused
    refine iff_of_false (by simp) ?_
    intro hgiven
    obtain ⟨hnegative, hmodifier, -⟩ := hgiven
    simp [hnegative, hmodifier] at hrefused
  · rename_i haccepted
    simp only [Bool.or_eq_true, not_or, Bool.not_eq_true, Option.isSome_eq_false_iff,
      Option.isNone_iff_eq_none] at haccepted
    simp only [haccepted, true_and, Option.bind_eq_bind, Option.bind_eq_some_iff,
      captures?_named_eq_some_iff]
    constructor
    · intro hgiven
      obtain ⟨captures, ⟨texts, hcaptures, hfits⟩, own, hown, nested, hnested, hnodes⟩ := hgiven
      subst hcaptures
      exact ⟨texts, hfits, own, nested, substituteAll?_eq_some_iff.mp hown,
        mapM_rule_eq_some_iff.mp hnested, (Option.some.inj hnodes).symm⟩
    · intro hgiven
      obtain ⟨texts, hfits, own, nested, hown, hnested, hnodes⟩ := hgiven
      exact ⟨_, ⟨texts, rfl, hfits⟩, own, substituteAll?_eq_some_iff.mpr hown, nested,
        mapM_rule_eq_some_iff.mpr hnested, congrArg some hnodes.symm⟩

theorem exists_substituted_iff {theme : Theme} {texts : List String}
    {declarations : List (String × String)} :
    (∃ nodes, Substituted theme texts declarations nodes) ↔
      ∀ entry ∈ declarations, (substitute? theme ⟨texts, none⟩ entry.2).isSome = true := by
  simp [Substituted, exists_forall₂_iff, Option.isSome_iff_exists]

theorem exists_instantiated_iff {theme : Theme} {texts : List String} {definition : Definition} :
    (∃ nodes, Instantiated theme texts definition nodes) ↔
      (∀ entry ∈ definition.declarations,
        (substitute? theme ⟨texts, none⟩ entry.2).isSome = true) ∧
      ∀ rule ∈ definition.nested, ∀ entry ∈ rule.declarations,
        (substitute? theme ⟨texts, none⟩ entry.2).isSome = true := by
  simp only [← exists_substituted_iff]
  constructor
  · intro hgiven
    obtain ⟨nodes, own, nested, hown, hnested, -⟩ := hgiven
    refine ⟨⟨own, hown⟩, ?_⟩
    intro rule hrule
    obtain ⟨node, children, hchildren, -⟩ := exists_forall₂_iff.mp ⟨nested, hnested⟩ rule hrule
    exact ⟨children, hchildren⟩
  · intro hgiven
    obtain ⟨⟨own, hown⟩, hrules⟩ := hgiven
    have hnested : ∀ rule ∈ definition.nested, ∃ node, SubstitutedRule theme texts rule node := by
      intro rule hrule
      obtain ⟨children, hchildren⟩ := hrules rule hrule
      exact ⟨_, children, hchildren, rfl⟩
    obtain ⟨nested, hnested⟩ := exists_forall₂_iff.mpr hnested
    exact ⟨own ++ nested, own, nested, hown, hnested, rfl⟩

theorem Instantiated.ne_nil {theme : Theme} {texts : List String} {definition : Definition}
    {nodes : List Sheet.Node} (h : Instantiated theme texts definition nodes)
    (hdeclarations : definition.hasDeclarations = true) : nodes ≠ [] := by
  obtain ⟨own, nested, hown, hnested, hnodes⟩ := h
  intro hnil
  obtain ⟨hown', hnested'⟩ := List.append_eq_nil_iff.mp (hnodes.symm.trans hnil)
  rw [hown', Substituted, List.forall₂_nil_right_iff] at hown
  rw [hnested', List.forall₂_nil_right_iff] at hnested
  simp [Definition.hasDeclarations, hown, hnested] at hdeclarations

end Custom

/-- What a valid definition with a wildcard becomes when it is registered alone. -/
structure StandsAlone (definition : Definition) (utility : Utility) (registry : Registry) :
    Prop where
  functionalRoots : utility.functionalRoots = [definition.root]
  compile : utility.compile = Custom.compileWildcard? definition
  utilities : registry.utilities = [utility]

theorem exists_standsAlone {definition : Definition} (hvalid : definition.validate = .ok ())
    (hwildcard : definition.isWildcard = true) :
    ∃ utility registry, ofDefinition definition = .ok utility ∧
      Registry.empty.register utility = .ok registry ∧ StandsAlone definition utility registry := by
  rw [ofDefinition, hvalid]
  simp only [hwildcard, if_true]
  exact ⟨_, _, rfl, rfl, rfl, rfl, rfl⟩

section Alone

variable {definition : Definition} {utility : Utility} {registry : Registry} {theme : Theme}
  {base : String}

/-- Gluing the root and the value of a reading together gives the whole base back. -/
theorem StandsAlone.instantiated_of_pairing (h : StandsAlone definition utility registry)
    (hbase : ∀ mark ∈ Candidate.marks, mark ∉ base.toList) {attempt : Attempt}
    {nodes : List Sheet.Node} (hpairing : registry.Pairing theme base attempt nodes) :
    attempt.candidate.important = false ∧ ∃ texts : List String,
      FitsGreedily definition.pattern.toList (texts.map String.toList) base.toList ∧
        Custom.Instantiated theme texts definition nodes := by
  have hutility : attempt.utility = utility := by
    have hmem := List.mem_of_getElem? hpairing.utility
    rw [h.utilities] at hmem
    exact List.mem_singleton.mp hmem
  have hcompiled := hpairing.compiled
  rw [hutility, h.compile] at hcompiled
  have hcandidate := List.mem_of_getElem? hpairing.candidate
  have hnonempty : base.toList ≠ [] := by
    intro hempty
    rw [Registry.candidates, String.toList_eq_nil_iff.mp hempty] at hcandidate
    cases hcandidate
  obtain ⟨parts, hparts⟩ := Candidate.Parts.exists_describes base.toList
  obtain ⟨hbody, himportant, hmodifier, hsigned⟩ := hparts.of_marks hbase
  have hpossible := (hparts.mem_parse_iff_of_marks hbase hnonempty).mp hcandidate
  generalize attempt.candidate = candidate at hpossible hcompiled ⊢
  cases hpossible with
  | static => cases hcompiled
  | bare => cases hcompiled
  | split _ hhead _ _ _ _ =>
      obtain ⟨hnegative, -, texts, hfits, hnodes⟩ :=
        (Custom.compileWildcard?_eq_some_iff rfl).mp hcompiled
      refine ⟨himportant, texts, ?_, hnodes⟩
      have hwhole : parts.head = base.toList := hsigned.eq_of_not_negative hnegative
      rw [← hwhole, hhead]
      simpa using hfits

theorem StandsAlone.exists_pairing (h : StandsAlone definition utility registry)
    (hvalid : definition.validate = .ok ()) (hwildcard : definition.isWildcard = true)
    (hbase : ∀ mark ∈ Candidate.marks, mark ∉ base.toList) {texts : List String}
    {nodes : List Sheet.Node}
    (hfits : FitsGreedily definition.pattern.toList (texts.map String.toList) base.toList)
    (hnodes : Custom.Instantiated theme texts definition nodes) :
    ∃ attempt, registry.Pairing theme base attempt nodes := by
  obtain ⟨root, tail, hrooted⟩ := Definition.exists_isRooted hvalid hwildcard
  obtain ⟨value, hvalue, hnonempty⟩ :=
    Wildcard.exists_value_of_fits hrooted.no_star (hrooted.pattern_eq ▸ hfits.fits)
  obtain ⟨c, rest, hroot, hlower⟩ := hrooted.starts
  obtain ⟨parts, hparts⟩ := Candidate.Parts.exists_describes base.toList
  obtain ⟨hbody, himportant, hmodifier, hsigned⟩ := hparts.of_marks hbase
  have hc : c ≠ '-' := by
    intro hc
    rw [hc] at hlower
    cases hlower
  have hnegative : parts.negative = false := by
    rw [hvalue, hroot] at hsigned
    exact hsigned.not_negative hc
  have hwhole : parts.head = root ++ '-' :: value :=
    (hsigned.eq_of_not_negative hnegative).trans hvalue
  have hknown : registry.roots.isFunctional (String.ofList root) = true := by
    rw [Registry.isFunctional_roots_iff, h.utilities]
    exact ⟨utility, List.mem_cons_self, by simp [h.functionalRoots, hrooted.root_eq]⟩
  have hpossible : Candidate.Possible registry.roots parts
      (parts.candidate (.functional (String.ofList root)
        (some (.named (String.ofList value) none))) none parts.negative) := by
    refine .split ?_ hwhole ?_ hnonempty hknown ?_
    · rw [hmodifier]
      exact .absent
    · rw [hroot]
      exact List.cons_ne_nil c rest
    · exact Candidate.isFraction_iff.mpr rfl
  have hcandidate := (hparts.mem_parse_iff_of_marks hbase (by simp [hvalue])).mpr hpossible
  obtain ⟨position, hposition⟩ := List.mem_iff_getElem?.mp hcandidate
  refine ⟨⟨utility, 0, _, position⟩, ?_, hposition, ?_, ?_, ?_⟩
  · rw [h.utilities]
    rfl
  · simp [answersFor, h.functionalRoots, hrooted.root_eq]
  · rw [h.compile, Custom.compileWildcard?_eq_some_iff rfl]
    refine ⟨hnegative, rfl, texts, ?_, hnodes⟩
    rw [hvalue] at hfits
    simpa using hfits
  · exact hnodes.ne_nil (Definition.of_validate hvalid).2

end Alone

/-- A wildcard definition that is registered alone resolves exactly the classes that its pattern
matches as a whole and whose captures all declarations take, and makes of them the declarations with
the captures put in and a rule for each nested block. -/
theorem wildcard_resolves_whole_matches {definition : Definition}
    (hvalid : definition.validate = .ok ()) (hwildcard : definition.isWildcard = true) :
    ∃ utility registry, ofDefinition definition = .ok utility ∧
      Registry.empty.register utility = .ok registry ∧
      ∀ theme (base : String), (∀ mark ∈ Candidate.marks, mark ∉ base.toList) →
        ((∃ resolved, registry.resolve? theme base = some resolved) ↔
          ∃ texts : List String,
            FitsGreedily definition.pattern.toList (texts.map String.toList) base.toList ∧
            (∀ entry ∈ definition.declarations,
              (Custom.substitute? theme ⟨texts, none⟩ entry.2).isSome = true) ∧
            ∀ rule ∈ definition.nested, ∀ entry ∈ rule.declarations,
              (Custom.substitute? theme ⟨texts, none⟩ entry.2).isSome = true) ∧
        ∀ resolved, registry.resolve? theme base = some resolved →
          ∃ texts : List String,
            FitsGreedily definition.pattern.toList (texts.map String.toList) base.toList ∧
            Custom.Instantiated theme texts definition resolved.nodes := by
  obtain ⟨utility, registry, hutility, hregister, halone⟩ := exists_standsAlone hvalid hwildcard
  refine ⟨utility, registry, hutility, hregister, ?_⟩
  intro theme base hbase
  have hresolved (resolved : Resolved) (h : registry.resolve? theme base = some resolved) :
      ∃ texts : List String,
        FitsGreedily definition.pattern.toList (texts.map String.toList) base.toList ∧
        Custom.Instantiated theme texts definition resolved.nodes := by
    obtain ⟨attempt, nodes, hpairing, -, rfl⟩ := Registry.exists_least_of_resolve? h
    obtain ⟨himportant, texts, hfits, hnodes⟩ := halone.instantiated_of_pairing hbase hpairing
    refine ⟨texts, hfits, ?_⟩
    rwa [Attempt.result, himportant]
  refine ⟨?_, hresolved⟩
  constructor
  · intro ⟨resolved, h⟩
    obtain ⟨texts, hfits, hnodes⟩ := hresolved resolved h
    exact ⟨texts, hfits, Custom.exists_instantiated_iff.mp ⟨_, hnodes⟩⟩
  · intro ⟨texts, hfits, hsubstitutes⟩
    obtain ⟨nodes, hnodes⟩ := Custom.exists_instantiated_iff.mpr hsubstitutes
    obtain ⟨attempt, hpairing⟩ := halone.exists_pairing hvalid hwildcard hbase hfits hnodes
    cases hresolve : registry.resolve? theme base with
    | some resolved => exact ⟨resolved, rfl⟩
    | none => exact (Registry.resolve?_eq_none_iff.mp hresolve attempt nodes hpairing).elim

theorem wildcard_resolves_whole_matches_area :
    let definition : Definition :=
      ⟨"area-*-*", [("grid-area", "* / --value(integer)")], [⟨"&:hover", [("order", "*")]⟩]⟩
    definition.validate = .ok () ∧ definition.isWildcard = true ∧
      (∀ mark ∈ Candidate.marks, mark ∉ "area-a-b-4".toList) ∧
      ∃ utility registry, ofDefinition definition = .ok utility ∧
        Registry.empty.register utility = .ok registry ∧
        ∃ resolved, registry.resolve? .empty "area-a-b-4" = some resolved ∧
          ∃ texts : List String,
            FitsGreedily definition.pattern.toList (texts.map String.toList)
              "area-a-b-4".toList ∧
            Custom.Instantiated .empty texts definition resolved.nodes := by
  intro definition
  have hvalid : definition.validate = .ok () := by decide +kernel
  have hwildcard : definition.isWildcard = true := by decide +kernel
  have hmarks : ∀ mark ∈ Candidate.marks, mark ∉ "area-a-b-4".toList := by
    simp [Candidate.marks]
  have hfits : FitsGreedily definition.pattern.toList
      (["a-b", "4"].map String.toList) "area-a-b-4".toList :=
    Wildcard.captures?_eq_some_iff.mp (by decide +kernel)
  obtain ⟨utility, registry, hutility, hregister, hmatches⟩ :=
    wildcard_resolves_whole_matches hvalid hwildcard
  obtain ⟨hiff, hnodes⟩ := hmatches .empty "area-a-b-4" hmarks
  obtain ⟨resolved, hresolved⟩ :=
    hiff.mpr ⟨["a-b", "4"], hfits, by decide +kernel, by decide +kernel⟩
  exact ⟨hvalid, hwildcard, hmarks, utility, registry, hutility, hregister, resolved, hresolved,
    hnodes resolved hresolved⟩

end Utility

end AtomicCss
