import AtomicCss.Proofs.VariantClosed

/-!
Where the class of a rule stands in its selector. Variants append to every member of a selector list
and put ancestors in front of it. An ancestor that is a list itself is not distributed: its members
but the last become members of the selector in their own right, and only the last one of the
selector is sure to hold the class.
-/

namespace AtomicCss

namespace Text

/-- A text that neither starts nor ends with a blank. -/
structure Solid (text : List Char) : Prop where
  head : ∃ c, text.head? = some c ∧ isBlank c = false
  last : ∃ c, text.getLast? = some c ∧ isBlank c = false

theorem Solid.trim_around {text : List Char} (h : Solid text) (before after : List Char) :
    trim (before ++ text ++ after) = trimStart before ++ text ++ trimEnd after := by
  obtain ⟨first, hfirst, hfirstBlank⟩ := h.head
  obtain ⟨last, hlast, hlastBlank⟩ := h.last
  have hhead : (text ++ after).head? = some first := by
    rw [List.head?_append, hfirst]
    rfl
  rw [trim, List.append_assoc, trimStart_append hhead hfirstBlank, ← List.append_assoc]
  refine trimEnd_append ?_ hlastBlank after
  rw [List.getLast?_append, hlast]
  rfl

end Text

namespace Selector

open Css (WellBracketed IsWhole splitTopLevel)

/-- A closed selector list whose last member holds a text, behind a number of other members. -/
structure Holds (text : List Char) (others : Nat) (selector : List Char) : Prop where
  closed : WellBracketed selector
  members : ∃ leading before after,
    splitTopLevel ',' selector = leading ++ [before ++ text ++ after] ∧ leading.length = others

theorem holds_of_isWhole {text : List Char} (h : IsWhole text) : Holds text 0 text :=
  ⟨h.wellBracketed, [], [], [], by simp [Css.splitTopLevel_of_isWhole h], rfl⟩

theorem wellBracketed_join {parts : List (List Char)} (h : ∀ part ∈ parts, WellBracketed part) :
    WellBracketed (Text.join [',', ' '] parts) := by
  have hcomma : WellBracketed [',', ' '] := by decide
  induction parts with
  | nil => decide
  | cons part rest ih =>
      obtain ⟨hpart, hrest⟩ := List.forall_mem_cons.mp h
      cases rest with
      | nil => exact hpart
      | cons next rest => exact (hpart.append hcomma).append (ih hrest)

/-- Joining members puts a blank in front of all but the first. -/
theorem exists_splitTopLevel_join {leading : List (List Char)} {final : List Char}
    (hleading : ∀ member ∈ leading, IsWhole member) (hfinal : IsWhole final) :
    ∃ others lead, splitTopLevel ',' (Text.join [',', ' '] (leading ++ [final])) =
      others ++ [lead ++ final] ∧ others.length = leading.length := by
  cases leading with
  | nil => exact ⟨[], [], Css.splitTopLevel_of_isWhole hfinal, rfl⟩
  | cons first rest =>
      obtain ⟨hfirst, hrest⟩ := List.forall_mem_cons.mp hleading
      refine ⟨first :: rest.map (' ' :: ·), [' '], ?_, by simp⟩
      rw [List.cons_append, Css.splitTopLevel_join hfirst]
      · simp
      · intro other hother
        rcases List.mem_append.mp hother with hother | hother
        · exact hrest other hother
        · exact List.mem_singleton.mp hother ▸ hfinal

theorem toList_withSuffix (selector : Selector) (suffix : String) :
    (selector.withSuffix suffix).text.toList =
      Text.join [',', ' '] ((splitTopLevel ',' selector.text.toList).map fun member =>
        Text.trim member ++ suffix.toList) := by
  rw [withSuffix, Text.toList_intercalate, members, List.map_map, List.map_map]
  simp [Function.comp_def]

variable {text : List Char} {others : Nat} {selector : Selector}

theorem Holds.withSuffix (htext : Text.Solid text) (h : Holds text others selector.text.toList)
    {suffix : String} (hsuffix : IsWhole suffix.toList) :
    Holds text others (selector.withSuffix suffix).text.toList := by
  obtain ⟨leading, before, after, hmembers, hlength⟩ := h.members
  have hwhole : ∀ member ∈ splitTopLevel ',' selector.text.toList,
      IsWhole (Text.trim member ++ suffix.toList) := fun member hmember =>
    (Css.isWhole_of_mem_splitTopLevel h.closed hmember).trim.append hsuffix
  rw [toList_withSuffix]
  constructor
  · apply wellBracketed_join
    intro part hpart
    obtain ⟨member, hmember, rfl⟩ := List.mem_map.mp hpart
    exact (hwhole member hmember).wellBracketed
  · rw [hmembers] at hwhole ⊢
    obtain ⟨hleading, hfinal⟩ := List.forall_mem_append.mp hwhole
    obtain ⟨others', lead, hsplit, hothers⟩ :=
      exists_splitTopLevel_join (List.forall_mem_map.mpr hleading)
        (hfinal _ (List.mem_singleton_self _))
    rw [htext.trim_around] at hsplit
    refine ⟨others', lead ++ Text.trimStart before, Text.trimEnd after ++ suffix.toList, ?_, ?_⟩
    · rw [List.map_append, List.map_singleton, htext.trim_around, hsplit]
      simp
    · rw [hothers, List.length_map, hlength]

/-- An ancestor stands in front of the first member only. -/
theorem Holds.descendantOf {ancestor : String} (h : Holds text others selector.text.toList)
    (hancestor : WellBracketed ancestor.toList) :
    Holds text ((splitTopLevel ',' (Text.trim ancestor.toList)).dropLast.length + others)
      (selector.descendantOf ancestor).text.toList := by
  have hblank : WellBracketed [' '] := by decide
  have htext : (selector.descendantOf ancestor).text.toList =
      Text.trim ancestor.toList ++ ([' '] ++ selector.text.toList) := by
    simp [Selector.descendantOf]
  have hspace : splitTopLevel ',' [' '] = [[' ']] := rfl
  have hne : splitTopLevel ',' (Text.trim ancestor.toList) ≠ [] := Text.pieces_ne_nil _ _
  obtain ⟨leading, before, after, hmembers, hlength⟩ := h.members
  rw [htext]
  refine ⟨hancestor.trim.append (hblank.append h.closed), ?_⟩
  rw [Css.splitTopLevel_append hancestor.trim, Css.splitTopLevel_append hblank, hmembers, hspace]
  generalize splitTopLevel ',' (Text.trim ancestor.toList) = parts at hne ⊢
  cases leading with
  | nil =>
      refine ⟨parts.dropLast, parts.getLast hne ++ ' ' :: before, after, ?_, by simp [← hlength]⟩
      simp [Text.glue, Text.dropLast_glue hne]
  | cons first rest =>
      refine ⟨parts.dropLast ++ (parts.getLast hne ++ ' ' :: first) :: rest, before, after, ?_,
        by simp [← hlength]⟩
      simp [Text.glue, Text.dropLast_glue hne]

end Selector

namespace Variant

open Css (splitTopLevel)

/-- The members that a change puts in front of a selector list. -/
def Change.strays : Change → List (List Char)
  | .suffix _ => []
  | .wrapper _ => []
  | .pattern text => (splitTopLevel ',' (Text.trim text.toList)).dropLast

/-- The members of a bracketed selector list but the last. A bracketed at-rule is no selector. -/
def Token.strays (token : Token) : List (List Char) :=
  match token.shape with
  | .arbitrary content =>
      if Text.startsWith ['@'] (decoded content).toList then []
      else (splitTopLevel ',' (Text.trim (decoded content).toList)).dropLast
  | _ => []

theorem Token.strays_eq_nil {token : Token} (h : ∀ content, token.shape ≠ .arbitrary content) :
    token.strays = [] := by
  unfold strays
  split
  · rename_i content hshape
    exact (h content hshape).elim
  · rfl

theorem strays_of_makes {theme : Theme} {darkMode : DarkMode} {internalPrefix : String}
    {token : Token} {change : Change} (h : Makes theme darkMode internalPrefix token change) :
    change.strays = token.strays := by
  cases h with
  | condition hshape _ => exact (Token.strays_eq_nil hshape).symm
  | marker hshape _ => simp [Change.strays, Token.strays, hshape]
  | markerPattern hshape _ => simp [Change.strays, Token.strays, hshape]
  | atRule hshape h => simp [Change.strays, Token.strays, hshape, h, Text.startsWith]
  | @pattern content hshape h =>
      have hat : Text.startsWith ['@'] (decoded content).toList = false := by
        cases htext : (decoded content).toList with
        | nil => rfl
        | cons c rest =>
            have hc : ('@' == c) = false := by
              rw [beq_eq_false_iff_ne]
              rintro rfl
              exact h rest htext
            simp [Text.startsWith, List.isPrefixOf, hc]
      simp [Change.strays, Token.strays, hshape, hat]
  | prose h =>
      refine (Token.strays_eq_nil fun content hshape => ?_).symm
      simp [proseElement?, hshape] at h
  | darkMarker _ hdark =>
      refine (Token.strays_eq_nil fun content hshape => ?_).symm
      simp [isDark, hshape] at hdark
  | darkMedia _ hdark =>
      refine (Token.strays_eq_nil fun content hshape => ?_).symm
      simp [isDark, hshape] at hdark
  | media h =>
      refine (Token.strays_eq_nil fun content hshape => ?_).symm
      simp [mediaQuery?, hshape] at h
  | supports hshape _ => simp [Change.strays, Token.strays, hshape]
  | responsive htest _ =>
      refine (Token.strays_eq_nil fun content hshape => ?_).symm
      simp [responsiveTest?, hshape] at htest
  | container hshape _ => simp [Change.strays, Token.strays, hshape]

def Token.mentionsParent (token : Token) : Bool :=
  match token.shape with
  | .arbitrary content => Selector.mentionsParent content
  | _ => false

def Change.mentionsParent : Change → Bool
  | .suffix _ => false
  | .wrapper _ => false
  | .pattern text => Selector.mentionsParent text

section Holds

variable {text : List Char} {others : Nat}

theorem holds_apply (htext : Text.Solid text) {change : Change} (htidy : change.IsTidy)
    (hparent : change.mentionsParent = false) {placement : Placement}
    (h : Selector.Holds text others placement.selector.text.toList) :
    Selector.Holds text (change.strays.length + others)
      (change.apply placement).selector.text.toList := by
  cases change with
  | suffix suffix =>
      rw [Change.strays, List.length_nil, Nat.zero_add]
      exact h.withSuffix htext htidy
  | wrapper head =>
      rw [Change.strays, List.length_nil, Nat.zero_add]
      exact h
  | pattern pattern =>
      rw [Change.mentionsParent] at hparent
      simp only [Change.apply, Selector.relativize, hparent, Bool.false_eq_true, if_false]
      exact h.descendantOf htidy

/-- The members in front of the one with the text come from the bracketed lists in the chain. -/
theorem holds_of_chain (htext : Text.Solid text) {makes : Token → Change → Prop}
    {placement final : Placement} {tokens : List Token}
    (hchain : Registry.Chain makes placement tokens final)
    (hmakes : ∀ token ∈ tokens, ∀ change, makes token change →
      change.IsTidy ∧ change.mentionsParent = false ∧ change.strays = token.strays)
    (h : Selector.Holds text others placement.selector.text.toList) :
    Selector.Holds text ((tokens.flatMap Token.strays).length + others)
      final.selector.text.toList := by
  induction hchain generalizing others with
  | nil => simpa using h
  | @cons token change placement final rest hmade _ ih =>
      obtain ⟨hown, hrest⟩ := List.forall_mem_cons.mp hmakes
      obtain ⟨htidy, hparent, hstrays⟩ := hown change hmade
      have hnext := ih hrest (holds_apply htext htidy hparent h)
      rw [hstrays, ← Nat.add_assoc] at hnext
      rwa [List.flatMap_cons, List.length_append, Nat.add_comm token.strays.length]

end Holds

end Variant

namespace Extract

open ClassName (escapeList)

theorem isBlank_eq_false_of_isAllowedChar {c : Char} (h : isAllowedChar c = true) :
    Text.isBlank c = false := by
  have hmarks : "-_/:.%#[]()!&>+*=@,\x27\"\\".toList.all (!Text.isBlank ·) = true := by decide
  rcases Bool.or_eq_true_iff.mp h with halphanum | hmark
  · exact Theme.isBlank_eq_false_of_isNameChar (by simp [Css.isNameChar, halphanum])
  · simpa using List.all_eq_true.mp hmarks c (List.contains_iff_mem.mp hmark)

theorem isDigit_eq_false_of_isAlpha {c : Char} (h : c.isAlpha = true) : c.isDigit = false := by
  by_contra hdigit
  rw [Bool.not_eq_false] at hdigit
  change (decide (c.val ≥ 65 ∧ c.val ≤ 90) || (c.val ≥ 97 && c.val ≤ 122)) = true at h
  change (decide (c.val ≥ 48) && decide (c.val ≤ 57)) = true at hdigit
  simp only [Bool.or_eq_true, Bool.and_eq_true, decide_eq_true_eq, ge_iff_le,
    UInt32.le_iff_toNat_le] at h hdigit
  have hupper : (57 : UInt32).toNat < (65 : UInt32).toNat := by decide
  have hlower : (57 : UInt32).toNat < (97 : UInt32).toNat := by decide
  omega

/-- Blanks at the end of a selector could be lost, but a candidate never ends with one. -/
theorem solid_of_isCandidate {name : List Char} (h : isCandidate name = true)
    (hwhole : Css.IsWhole name) : Text.Solid ('.' :: escapeList name) := by
  simp only [isCandidate, Bool.and_eq_true] at h
  obtain ⟨⟨⟨-, hallowed⟩, hletter⟩, -⟩ := h
  obtain ⟨c, hc, hmark⟩ := List.any_eq_true.mp hletter
  obtain ⟨last, hlast⟩ : ∃ last, name.getLast? = some last :=
    Option.isSome_iff_exists.mp (by simpa using List.ne_nil_of_mem hc)
  have hcomma : last ≠ ',' := fun heq => hwhole.getLast?_ne_comma (heq ▸ hlast)
  have hplain : c ≠ '-' ∧ c.isDigit = false := by
    rcases Bool.or_eq_true_iff.mp hmark with halpha | hbracket
    · refine ⟨?_, isDigit_eq_false_of_isAlpha halpha⟩
      rintro rfl
      cases halpha
    · rw [beq_iff_eq.mp hbracket]
      decide
  refine ⟨⟨'.', rfl, by decide⟩, last, ?_, ?_⟩
  · rw [List.getLast?_cons, ClassName.getLast?_escapeList hlast hcomma ⟨c, hc, hplain⟩]
    rfl
  · exact isBlank_eq_false_of_isAllowedChar
      (List.all_eq_true.mp hallowed last (List.mem_of_getLast? hlast))

end Extract

namespace Variant

/-- A class name whose brackets and quotes are the same to all that read it. -/
structure Unambiguous (separator : Char) (name : String) : Prop where
  /-- No backslash stands in front of a bracket or a quote. -/
  shown : name.toList.IsChain fun c next => c = '\\' → Css.Nesting.isMark next = false
  /-- The quotes of variants hold no brackets, and their labels neither brackets nor quotes. -/
  bare : ∀ token ∈ (tokenize separator name).1,
    Css.Quoting.isBare .outside token.raw.toList = true
  labels : ∀ token ∈ (tokenize separator name).1,
    token.shape.markerLabel.filter Css.Nesting.isMark = []

theorem Unambiguous.legible {separator : Char} {name : String} (h : Unambiguous separator name)
    (hcandidate : Extract.isCandidate name.toList = true) : Extract.Legible none name.toList := by
  simp only [Extract.isCandidate, Bool.and_eq_true] at hcandidate
  obtain ⟨⟨⟨-, hallowed⟩, -⟩, -⟩ := hcandidate
  exact ⟨List.all_eq_true.mp hallowed, h.shown⟩

theorem Unambiguous.isWhole {separator : Char} {name : String} (h : Unambiguous separator name)
    (hcandidate : Extract.isCandidate name.toList = true) : Css.IsWhole name.toList :=
  Extract.through?_of_isWellFormedFrom (Bool.and_eq_true_iff.mp hcandidate).2
    (Css.Quoting.fits_outside none) (h.legible hcandidate)

theorem Unambiguous.run {separator : Char} {name : String} (h : Unambiguous separator name)
    (hcandidate : Extract.isCandidate name.toList = true) {token : Token}
    (htoken : token ∈ (tokenize separator name).1) :
    token = classify token.raw ∧ ClassName.Open.Run .nothing token.raw.toList .nothing := by
  have hbare := h.bare
  simp only [tokenize, List.mem_map] at htoken hbare
  obtain ⟨segment, hsegment, rfl⟩ := htoken
  refine ⟨rfl, ?_⟩
  rw [classify, String.toList_ofList]
  refine ClassName.Open.run_of_mem_segments (Bool.and_eq_true_iff.mp hcandidate).2
    (h.legible hcandidate) (fun other hother => ?_) hsegment
  simpa [classify] using hbare _ ⟨other, hother, rfl⟩

theorem mentionsParent_decoded {content : String} (h : Selector.mentionsParent content = false) :
    Selector.mentionsParent (decoded content) = false := by
  simp only [Selector.mentionsParent, List.contains_eq_mem, decide_eq_false_iff_not] at h ⊢
  intro hmem
  apply h
  rw [decoded, String.toList_ofList] at hmem
  have hdecoded := (Text.trim_infix _).subset hmem
  have hkept : '&' ∈ (Css.decodeUnderscores content.toList).filter (· == '&') :=
    List.mem_filter.mpr ⟨hdecoded, rfl⟩
  rw [Css.filter_decodeUnderscores (by decide) (by decide) (by decide)] at hkept
  exact (List.mem_filter.mp hkept).1

theorem mentionsParent_of_makes {theme : Theme} {darkMode : DarkMode} {internalPrefix : String}
    {token : Token} {change : Change} (h : Makes theme darkMode internalPrefix token change)
    (hparent : token.mentionsParent = false) : change.mentionsParent = false := by
  cases h with
  | pattern hshape _ =>
      rw [Token.mentionsParent, hshape] at hparent
      rw [Change.mentionsParent, mentionsParent_decoded hparent]
  | _ => rfl

theorem Unambiguous.changes {theme : Theme} {darkMode : DarkMode} {internalPrefix : String}
    {separator : Char} {name : String} (h : Unambiguous separator name)
    (hcandidate : Extract.isCandidate name.toList = true)
    (hdark : ∀ selector, darkMode = .marker selector → Css.WellBracketed selector.toList)
    (hparent : ∀ token ∈ (tokenize separator name).1, token.mentionsParent = false) :
    ∀ token ∈ (tokenize separator name).1, ∀ change,
      Makes theme darkMode internalPrefix token change →
        change.IsTidy ∧ change.mentionsParent = false ∧ change.strays = token.strays := by
  intro token htoken change hmakes
  obtain ⟨hraw, hrun⟩ := h.run hcandidate htoken
  have hlabel := h.labels token htoken
  refine ⟨?_, mentionsParent_of_makes hmakes (hparent token htoken), strays_of_makes hmakes⟩
  rw [hraw] at hmakes hlabel
  exact isTidy_of_makes hmakes hdark hrun hlabel

end Variant

namespace Compiler

open Css (WellBracketed splitTopLevel)

/-- The last member of the selector of a rule holds the class that the rule was compiled from. In
front of it stand as many other members as the bracketed lists of its variants have besides their
last ones; if they have none, every member holds the class. -/
theorem selectors_hold_their_class {settings : Settings} {compiler : Compiler} {name : String}
    {rule : CompiledRule} (hbuild : build settings = .ok compiler)
    (hdark : ∀ selector, settings.darkMode = .marker selector → WellBracketed selector.toList)
    (hcandidate : Extract.isCandidate name.toList = true)
    (hname : Variant.Unambiguous settings.separator name)
    (hparent : ∀ token ∈ (Variant.tokenize settings.separator name).1,
      token.mentionsParent = false)
    (h : compiler.compileClass? name = some rule) :
    (∃ leading before after,
      splitTopLevel ',' rule.placement.selector.text.toList =
        leading ++ [before ++ ("." ++ ClassName.escape name).toList ++ after] ∧
      leading.length =
        ((Variant.tokenize settings.separator name).1.flatMap Variant.Token.strays).length) ∧
    ((∀ token ∈ (Variant.tokenize settings.separator name).1, token.strays = []) →
      ∀ member ∈ splitTopLevel ',' rule.placement.selector.text.toList,
        ("." ++ ClassName.escape name).toList <:+: member) := by
  have hwhole := hname.isWhole hcandidate
  have hclass : ("." ++ ClassName.escape name).toList =
      '.' :: ClassName.escapeList name.toList := by
    rw [String.toList_append, ClassName.toList_escape]
    rfl
  have hsolid : Text.Solid ("." ++ ClassName.escape name).toList :=
    hclass ▸ Extract.solid_of_isCandidate hcandidate hwhole
  have hstart : Selector.Holds ("." ++ ClassName.escape name).toList 0
      ("." ++ ClassName.escape name).toList := by
    rw [hclass]
    exact Selector.holds_of_isWhole (ClassName.isWhole_escapeList hwhole.wellBracketed)
  have hholds := Variant.holds_of_chain hsolid (chain_of_compileClass? hbuild h)
    (hname.changes hcandidate hdark hparent) hstart
  obtain ⟨leading, before, after, hmembers, hlength⟩ := hholds.members
  refine ⟨⟨leading, before, after, hmembers, hlength⟩, fun hstrays member hmember => ?_⟩
  have hnone : leading = [] := by
    rw [← List.length_eq_zero_iff, hlength, Nat.add_zero, List.length_eq_zero_iff]
    exact List.flatMap_eq_nil_iff.mpr hstrays
  rw [hmembers, hnone] at hmember
  rw [List.mem_singleton.mp hmember]
  exact ⟨before, after, rfl⟩

def groupedClass : String := "[.a_.b]:dark:group-has-[p,'q']/card:flex"

theorem selectors_hold_their_class_group :
    ∃ (compiler : Compiler) (rule : CompiledRule),
      build { theme := .empty } = .ok compiler ∧ Extract.isCandidate groupedClass.toList = true ∧
        compiler.compileClass? groupedClass = some rule ∧
          rule.placement.selector.text =
            ".a .b ." ++ ClassName.escape groupedClass ++
              ":where(.dark, .dark *):is(:where(.group\\/card):has(p,'q') *)" ∧
            ∀ member ∈ splitTopLevel ',' rule.placement.selector.text.toList,
              ("." ++ ClassName.escape groupedClass).toList <:+: member := by
  obtain ⟨compiler, hbuild, htext⟩ := exists_build { theme := .empty }
    (fun compiler =>
      (compiler.compileClass? groupedClass).map (fun rule => rule.placement.selector.text) ==
        some (".a .b ." ++ ClassName.escape groupedClass ++
          ":where(.dark, .dark *):is(:where(.group\\/card):has(p,'q') *)")) (by decide +kernel)
  obtain ⟨rule, hrule, htext⟩ := Option.map_eq_some_iff.mp (beq_iff_eq.mp htext)
  have hcandidate : Extract.isCandidate groupedClass.toList = true := by decide
  have hdark : ∀ selector, Variant.DarkMode.standard = .marker selector →
      WellBracketed selector.toList := by
    rintro _ ⟨⟩
    decide
  have hname : Variant.Unambiguous ':' groupedClass :=
    ⟨by decide, by decide +kernel, by decide +kernel⟩
  have hholds := selectors_hold_their_class hbuild hdark hcandidate hname (by decide +kernel) hrule
  exact ⟨compiler, rule, hbuild, hcandidate, hrule, htext, hholds.2 (by decide +kernel)⟩

/-- A bracketed selector list, and brackets in quotes, behind a backslash and in a label. -/
def leakingClasses : List String :=
  ["[.a,.b]:flex", "supports-['x]:has-[),y']:flex", "supports-[\\(a]:has-[b\\),c]:flex",
    "group/x(-[),&]:flex"]

/-- Candidates that name no parent have rules with members outside of their class. -/
theorem selectors_leak_outside_their_class :
    ∃ compiler, build { theme := .empty } = .ok compiler ∧
      ∀ name ∈ leakingClasses, Extract.isCandidate name.toList = true ∧
        (∀ token ∈ (Variant.tokenize ':' name).1, token.mentionsParent = false) ∧
          ∃ rule, compiler.compileClass? name = some rule ∧
            ∃ member ∈ splitTopLevel ',' rule.placement.selector.text.toList,
              ¬ ("." ++ ClassName.escape name).toList <:+: member := by
  have hnames : ∀ name ∈ leakingClasses, Extract.isCandidate name.toList = true ∧
      ∀ token ∈ (Variant.tokenize ':' name).1, token.mentionsParent = false := by
    decide +kernel
  -- A member that is shorter than the class cannot hold it.
  obtain ⟨compiler, hbuild, hleaks⟩ := exists_build { theme := .empty }
    (fun compiler => leakingClasses.all fun name => (compiler.compileClass? name).any fun rule =>
      (splitTopLevel ',' rule.placement.selector.text.toList).any fun member =>
        member.length < ("." ++ ClassName.escape name).toList.length) (by decide +kernel)
  refine ⟨compiler, hbuild, fun name hname => ?_⟩
  have hleak := List.all_eq_true.mp hleaks name hname
  obtain ⟨rule, hrule, hmember⟩ := (Option.any_eq_true _ _).mp hleak
  obtain ⟨member, hmember, hshort⟩ := List.any_eq_true.mp hmember
  exact ⟨(hnames name hname).1, (hnames name hname).2, rule, hrule, member, hmember,
    fun hholds => Nat.not_lt.mpr hholds.length_le (of_decide_eq_true hshort)⟩

end Compiler

end AtomicCss
