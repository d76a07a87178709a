import AtomicCss.Proofs.NameScanning
import AtomicCss.Proofs.SourceText
import AtomicCss.Proofs.VariantFactors

/-!
Variants on a selector list. A suffix goes to every member of the list, so that a list is changed as
its members are. A bracketed selector takes the list as one text instead: the pattern stands around
the list, and an ancestor in front of its first member only.
-/

namespace AtomicCss

namespace Text

def dense (text : List Char) : List Char :=
  text.filter fun c => !isBlank c

theorem dense_append (first second : List Char) :
    dense (first ++ second) = dense first ++ dense second :=
  List.filter_append ..

theorem dense_trim (text : List Char) : dense (trim text) = dense text :=
  filter_trim (by simp) text

theorem dense_join (parts : List (List Char)) :
    dense (join [','] parts) = join [','] (parts.map dense) := by
  induction parts with
  | nil => rfl
  | cons part rest ih =>
      cases rest with
      | nil => rfl
      | cons next rest =>
          rw [join_cons_of_ne_nil _ _ (List.cons_ne_nil _ _), dense_append, dense_append, ih]
          rfl

theorem join_append (separator : List Char) {first second : List (List Char)} (hfirst : first ≠ [])
    (hsecond : second ≠ []) :
    join separator (first ++ second) =
      join separator first ++ separator ++ join separator second := by
  induction first with
  | nil => exact (hfirst rfl).elim
  | cons part rest ih =>
      cases rest with
      | nil => exact join_cons_of_ne_nil separator part hsecond
      | cons next rest =>
          have hlater : next :: rest ++ second ≠ [] := List.cons_ne_nil _ _
          rw [List.cons_append, join_cons_of_ne_nil _ _ hlater, ih (List.cons_ne_nil _ _),
            join_cons_of_ne_nil _ _ (List.cons_ne_nil _ _)]
          simp

theorem solid_trim {text : List Char} (h : trim text ≠ []) : Solid (trim text) := by
  constructor
  · obtain ⟨c, rest, htrim⟩ := List.exists_cons_of_ne_nil h
    have hlead : trim text <+: trimStart text := trimEnd_prefix _
    obtain ⟨later, hlater⟩ := hlead
    have hhead := List.head?_dropWhile_not isBlank text
    rw [← trimStart, ← hlater, htrim] at hhead
    exact ⟨c, by rw [htrim]; rfl, by simpa using hhead⟩
  · have hlast := List.getLast?_eq_some_getLast h
    exact ⟨_, hlast, isBlank_getLast?_trimEnd hlast⟩

theorem Solid.eq_of_dense {text : List Char} {c : Char} (h : Solid text)
    (hdense : dense text = [c]) : text = [c] := by
  obtain ⟨first, hfirst, hfirstBlank⟩ := h.head
  obtain ⟨last, hlast, hlastBlank⟩ := h.last
  obtain ⟨rest, rfl⟩ := List.head?_eq_some_iff.mp hfirst
  simp only [dense, List.filter_cons, hfirstBlank, Bool.not_false, if_true,
    List.cons.injEq] at hdense
  obtain ⟨rfl, hrest⟩ := hdense
  cases rest with
  | nil => rfl
  | cons d rest =>
      rw [List.getLast?_cons_cons] at hlast
      have := List.filter_eq_nil_iff.mp hrest last (List.mem_of_getLast? hlast)
      simp [hlastBlank] at this

theorem Solid.dense_ne_nil {text : List Char} (h : Solid text) : dense text ≠ [] := by
  obtain ⟨first, hfirst, hfirstBlank⟩ := h.head
  obtain ⟨rest, rfl⟩ := List.head?_eq_some_iff.mp hfirst
  simp [dense, hfirstBlank]

section ReplaceChar

variable {target : Char} {replacement text : List Char}

theorem replaceChar_append (first second : List Char) :
    replaceChar target replacement (first ++ second) =
      replaceChar target replacement first ++ replaceChar target replacement second :=
  List.flatMap_append ..

theorem replaceChar_eq_self (h : target ∉ text) : replaceChar target replacement text = text := by
  induction text with
  | nil => rfl
  | cons c rest ih =>
      obtain ⟨hc, hrest⟩ := List.ne_and_not_mem_of_not_mem_cons h
      rw [replaceChar, List.flatMap_cons, if_neg (Ne.symm hc), ← replaceChar, ih hrest]
      rfl

theorem dense_replaceChar (htarget : isBlank target = false) (replacement text : List Char) :
    dense (replaceChar target replacement text) =
      replaceChar target (dense replacement) (dense text) := by
  induction text with
  | nil => rfl
  | cons c rest ih =>
      rw [replaceChar, List.flatMap_cons, ← replaceChar, dense_append, ih]
      by_cases hc : c = target
      · simp [replaceChar, dense, hc, htarget]
      · cases hblank : isBlank c <;> simp [replaceChar, dense, hc, hblank]

theorem replaceChar_eq_nil (hreplacement : replacement ≠ [])
    (h : replaceChar target replacement text = []) : text = [] := by
  cases text with
  | nil => rfl
  | cons c rest =>
      rw [replaceChar, List.flatMap_cons, List.append_eq_nil_iff] at h
      split at h
      · exact (hreplacement h.1).elim
      · cases h.1

theorem eq_singleton_of_replaceChar (hmem : target ∈ text)
    (h : ∀ n, replaceChar target ('a' :: ',' :: List.replicate n 'a') text =
      replaceChar target ['a'] text ++
        ',' :: replaceChar target (List.replicate n 'a') text) : text = [target] := by
  obtain ⟨before, after, rfl, hbefore⟩ := List.eq_append_cons_of_mem hmem
  have hat (replacement : List Char) : replaceChar target replacement (before ++ target :: after) =
      before ++ (replacement ++ replaceChar target replacement after) := by
    rw [replaceChar_append, replaceChar_eq_self hbefore, replaceChar, List.flatMap_cons,
      if_pos rfl]
    rfl
  -- Cut at the comma, the text would have to stand around both members. The second one is longer
  -- than what stands behind the first, so that the comma can only be the one between them.
  have hsplit := h ((replaceChar target ['a'] after).length + 1)
  simp only [hat, List.cons_append, List.nil_append, List.append_assoc, List.append_cancel_left_eq,
    List.cons.injEq, true_and] at hsplit
  cases hafter : replaceChar target ['a'] after with
  | nil =>
      obtain rfl := replaceChar_eq_nil (List.cons_ne_nil _ _) hafter
      have hlength := congrArg List.length hsplit
      simp [replaceChar] at hlength
      simp [hlength]
  | cons d rest =>
      rw [hafter] at hsplit
      have hchar := congrArg (·[rest.length + 1]?) hsplit
      simp only [List.cons_append, List.getElem?_cons_succ, List.getElem?_append_right le_rfl,
        Nat.sub_self, List.getElem?_cons_zero] at hchar
      have hlong : rest.length < (d :: rest).length + 1 := by
        rw [List.length_cons]
        omega
      rw [List.getElem?_append_left (by rwa [List.length_replicate]), List.getElem?_replicate,
        if_pos hlong] at hchar
      exact absurd (Option.some.inj hchar) (by decide)

end ReplaceChar

end Text

namespace Selector

open Css (IsWhole splitTopLevel)

def ofParts (parts : List String) : Selector :=
  ⟨", ".intercalate parts⟩

/-- The change makes of a list the list of what it makes of the members, up to blanks around the
commas. -/
def Distributes (change : Selector → Selector) : Prop :=
  ∀ parts, parts ≠ [] → (∀ part ∈ parts, IsWhole part.toList) →
    (change (ofParts parts)).members = parts.flatMap fun part => (change ⟨part⟩).members

theorem toList_ofParts (parts : List String) :
    (ofParts parts).text.toList = Text.join [',', ' '] (parts.map String.toList) :=
  Text.toList_intercalate ", " parts

theorem members_of_isWhole {part : String} (h : IsWhole part.toList) :
    members ⟨part⟩ = [Text.trim part.toList] := by
  rw [members, Css.splitTopLevel_of_isWhole h]
  rfl

theorem members_ofParts {parts : List String} (hempty : parts ≠ [])
    (h : ∀ part ∈ parts, IsWhole part.toList) :
    (ofParts parts).members = parts.map fun part => Text.trim part.toList := by
  obtain ⟨first, rest, rfl⟩ := List.exists_cons_of_ne_nil hempty
  obtain ⟨hfirst, hrest⟩ := List.forall_mem_cons.mp h
  rw [members, toList_ofParts, List.map_cons,
    Css.splitTopLevel_join hfirst (List.forall_mem_map.mpr hrest)]
  simp [Text.trim_cons_of_isBlank (show Text.isBlank ' ' = true from rfl)]

/-- The change makes of a list the list of what it makes of the members, and they stay whole. -/
structure Maps (change : Selector → Selector) : Prop where
  parts {parts : List String} (hempty : parts ≠ []) (h : ∀ part ∈ parts, IsWhole part.toList) :
    change (ofParts parts) = ofParts (parts.map fun part => (change ⟨part⟩).text)
  whole {part : String} (h : IsWhole part.toList) : IsWhole (change ⟨part⟩).text.toList

theorem Maps.forall_whole {change : Selector → Selector} (h : Maps change) {parts : List String}
    (hparts : ∀ part ∈ parts, IsWhole part.toList) :
    ∀ part ∈ parts.map fun part => (change ⟨part⟩).text, IsWhole part.toList :=
  List.forall_mem_map.mpr fun part hpart => h.whole (hparts part hpart)

theorem maps_id : Maps id :=
  ⟨fun _ _ => by simp, fun h => h⟩

theorem Maps.comp {first second : Selector → Selector} (hsecond : Maps second)
    (hfirst : Maps first) : Maps (second ∘ first) where
  parts hempty h := by
    rw [Function.comp_apply, hfirst.parts hempty h,
      hsecond.parts (by simpa using hempty) (hfirst.forall_whole h), List.map_map]
    rfl
  whole h := hsecond.whole (hfirst.whole h)

theorem withSuffix_of_isWhole {part : String} (h : IsWhole part.toList) (suffix : String) :
    withSuffix ⟨part⟩ suffix = ⟨Text.trimmed part ++ suffix⟩ := by
  rw [withSuffix, members_of_isWhole h]
  simp [Text.trimmed]

theorem maps_withSuffix {suffix : String} (hsuffix : IsWhole suffix.toList) :
    Maps (withSuffix · suffix) where
  parts hempty h := by
    rw [withSuffix, members_ofParts hempty h, List.map_map, ofParts]
    congr 2
    apply List.map_congr_left
    intro part hpart
    rw [withSuffix_of_isWhole (h part hpart)]
    rfl
  whole h := by
    rw [withSuffix_of_isWhole h, String.toList_append, Text.toList_trimmed]
    exact h.trim.append hsuffix

theorem Maps.distributes {change : Selector → Selector} (h : Maps change) : Distributes change := by
  intro parts hempty hparts
  rw [h.parts hempty hparts, members_ofParts (by simpa using hempty) (h.forall_whole hparts),
    List.map_map, List.map_eq_flatMap]
  apply List.flatMap_congr
  intro part hpart
  exact (members_of_isWhole (h.whole (hparts part hpart))).symm

theorem join_members (selector : Selector) :
    Text.join [','] (selector.members.map Text.dense) = Text.dense selector.text.toList := by
  have htrim : Text.dense ∘ Text.trim = Text.dense := funext Text.dense_trim
  rw [members, List.map_map, htrim, ← Text.dense_join, Css.join_splitTopLevel]

theorem members_ne_nil (selector : Selector) : selector.members ≠ [] := by
  rw [members, ne_eq, List.map_eq_nil_iff]
  exact Text.pieces_ne_nil _ _

theorem Distributes.dense {change : Selector → Selector} (h : Distributes change)
    {first second : String} (hfirst : IsWhole first.toList) (hsecond : IsWhole second.toList) :
    Text.dense (change (ofParts [first, second])).text.toList =
      Text.dense (change ⟨first⟩).text.toList ++
        ',' :: Text.dense (change ⟨second⟩).text.toList := by
  have hmembers := h [first, second] (List.cons_ne_nil _ _) (by simp [hfirst, hsecond])
  simp only [List.flatMap_cons, List.flatMap_nil, List.append_nil] at hmembers
  have hfirstEmpty : (change ⟨first⟩).members.map Text.dense ≠ [] := by simp [members_ne_nil]
  have hsecondEmpty : (change ⟨second⟩).members.map Text.dense ≠ [] := by simp [members_ne_nil]
  rw [← join_members, hmembers, List.map_append, Text.join_append [','] hfirstEmpty hsecondEmpty,
    join_members, join_members]
  simp

/-- The pattern with a `&` for the selector where an ancestor has none. -/
def frame (pattern : String) : String :=
  if mentionsParent pattern then pattern else Text.trimmed pattern ++ " &"

theorem relativize_eq_substitute (selector : Selector) (pattern : String) :
    selector.relativize pattern = ⟨substitute selector.text (frame pattern)⟩ := by
  rw [relativize, frame]
  split
  · rfl
  · rename_i hparent
    have hmem : '&' ∉ Text.trim pattern.toList := fun hmem => by
      simp [mentionsParent, (Text.trim_infix _).subset hmem] at hparent
    rw [descendantOf, substitute, String.toList_append, Text.toList_trimmed,
      Text.replaceChar_append, Text.replaceChar_eq_self hmem]
    simp [Text.replaceChar, Text.trimmed, String.append_assoc]

theorem dense_relativize (selector : Selector) (pattern : String) :
    Text.dense (selector.relativize pattern).text.toList =
      Text.replaceChar '&' (Text.dense selector.text.toList)
        (Text.dense (frame pattern).toList) := by
  rw [relativize_eq_substitute, substitute, String.toList_ofList, Text.dense_replaceChar rfl]

theorem mem_dense_frame (pattern : String) : '&' ∈ Text.dense (frame pattern).toList := by
  rw [frame]
  split
  · rename_i hparent
    exact List.mem_filter.mpr ⟨by simpa [mentionsParent] using hparent, rfl⟩
  · simp [Text.dense, show Text.isBlank '&' = false from rfl]

def letters (n : Nat) : String :=
  String.ofList (List.replicate n 'a')

theorem isWhole_letters (n : Nat) : IsWhole (letters n).toList := by
  rw [letters, String.toList_ofList]
  refine Css.isWhole_of_not_mem (by simp) (Variant.wellBracketed_of_filter_isMark ?_)
  rw [List.filter_eq_nil_iff]
  intro c hc
  rw [List.eq_of_mem_replicate hc]
  decide

theorem dense_letters (n : Nat) : Text.dense (letters n).toList = List.replicate n 'a' := by
  rw [letters, String.toList_ofList, Text.dense, List.filter_replicate_of_pos rfl]

theorem dense_ofParts_letters (n : Nat) :
    Text.dense (ofParts [letters 1, letters n]).text.toList =
      'a' :: ',' :: List.replicate n 'a' := by
  rw [toList_ofParts, List.map_cons, List.map_cons, List.map_nil,
    Text.join_cons_of_ne_nil _ _ (List.cons_ne_nil _ _), Text.dense_append, Text.dense_append,
    dense_letters]
  exact congrArg (fun text => 'a' :: ',' :: text) (dense_letters n)

/-- A pattern around a list stands around its members only if it adds nothing but blanks. -/
theorem dense_frame_of_distributes {pattern : String} (h : Distributes (relativize · pattern)) :
    Text.dense (frame pattern).toList = ['&'] := by
  apply Text.eq_singleton_of_replaceChar (mem_dense_frame pattern)
  intro n
  have hdense := h.dense (isWhole_letters 1) (isWhole_letters n)
  simp only [dense_relativize, dense_ofParts_letters, dense_letters] at hdense
  exact hdense

/-- Among the patterns only `&` does to each member of a list what it does to the list. -/
theorem eq_parent_of_distributes {pattern : String} (hsolid : Text.Solid pattern.toList)
    (h : Distributes (relativize · pattern)) : pattern = "&" := by
  have hframe := dense_frame_of_distributes h
  rw [frame] at hframe
  split at hframe
  · exact String.toList_inj.mp (hsolid.eq_of_dense hframe)
  · rw [String.toList_append, Text.dense_append, Text.toList_trimmed, Text.dense_trim] at hframe
    have hnone : Text.dense pattern.toList = [] := List.append_left_eq_self.mp hframe
    exact (hsolid.dense_ne_nil hnone).elim

theorem relativize_parent (selector : Selector) : selector.relativize "&" = selector := by
  rw [relativize, if_pos (by decide), substitute]
  simp [Text.replaceChar]

end Selector

namespace Variant

open Css (IsWhole)

/-- Whether a token is a bracketed selector, and not only `&`. -/
def Token.isPattern (token : Token) : Bool :=
  match token.shape with
  | .arbitrary content =>
      !(decoded content == "" || decoded content == "&" ||
        Text.startsWith ['@'] (decoded content).toList)
  | _ => false

/-- What a family does to the selector of a placement, if it takes the token. -/
def Family.Appends (family : Family) (token : Token) (suffix? : Option String) : Prop :=
  ∀ placement next, family.place? placement token = some next →
    next.selector = suffix?.elim placement.selector placement.selector.withSuffix

namespace Family

variable {family : Family} {token : Token}

theorem appends_of_suffix {suffix? : Option String}
    (h : ∀ placement, family.place? placement token = suffix?.map placement.withSuffix) :
    family.Appends token suffix? := by
  intro placement next hplace
  rw [h] at hplace
  obtain ⟨suffix, rfl, rfl⟩ := Option.map_eq_some_iff.mp hplace
  rfl

theorem exists_appends_markerFamily (token : Token) :
    ∃ suffix?, markerFamily.Appends token suffix? := by
  cases hshape : token.shape with
  | compound marker inner label => exact ⟨_, appends_of_suffix (place?_markerFamily hshape)⟩
  | _ => exact ⟨none, fun placement next hplace => by simp [markerFamily, hshape] at hplace⟩

theorem appends_arbitraryFamily (hpattern : token.isPattern = false)
    (hkind : arbitraryFamily.wraps token = false) : arbitraryFamily.Appends token none := by
  intro placement next hplace
  cases hshape : token.shape with
  | arbitrary content =>
      simp only [arbitraryFamily, hshape] at hplace
      have hat : Text.startsWith ['@'] (decoded content).toList = false := by
        simpa only [wraps, arbitraryFamily, Token.isBracketedAtRule, hshape] using hkind
      simp only [Token.isPattern, hshape, hat, Bool.or_false, Bool.not_eq_false', Bool.or_eq_true,
        beq_iff_eq] at hpattern
      -- nothing is declined, and `&` is the selector itself
      rcases hpattern with hempty | hparent
      · simp [placeArbitrary?, hempty] at hplace
      · have hand : "&".toList = ['&'] := rfl
        rw [hparent, placeArbitrary?_of_cons hand (by decide)] at hplace
        cases hplace
        exact Selector.relativize_parent placement.selector
  | _ => simp [arbitraryFamily, hshape] at hplace

theorem exists_appends {theme : Theme} {darkMode : DarkMode} {internalPrefix : String}
    (h : family ∈ standardFamilies theme darkMode internalPrefix)
    (hpattern : token.isPattern = false) (hkind : family.wraps token = false) :
    ∃ suffix?, family.Appends token suffix? := by
  simp only [standardFamilies, List.mem_cons, List.not_mem_nil, or_false] at h
  rcases h with rfl | rfl | rfl | rfl | rfl | rfl | rfl | rfl | rfl | rfl | rfl | rfl
  · exact ⟨token.condition?, appends_of_suffix fun _ => rfl⟩
  · exact ⟨token.condition?, appends_of_suffix fun _ => rfl⟩
  · exact ⟨token.condition?, appends_of_suffix fun _ => rfl⟩
  · exact ⟨token.condition?, appends_of_suffix fun _ => rfl⟩
  · exact exists_appends_markerFamily token
  · exact ⟨none, appends_arbitraryFamily hpattern hkind⟩
  · exact ⟨_, appends_of_suffix fun placement => place?_proseFamily placement token⟩
  · cases darkMode with
    | marker selector =>
        exact ⟨some (":where(" ++ selector ++ ", " ++ selector ++ " *)"),
          appends_of_suffix fun _ => rfl⟩
    | media => cases hkind
  · cases hkind
  · cases hkind
  · cases hkind
  · cases hkind

end Family

namespace Registry

def restyle (registry : Registry) (tokens : List Token) (selector : Selector) : Selector :=
  (registry.run (.ofSelector selector) tokens).placement.selector

/-- What a token appends to the members of a selector list, if it is no pattern. -/
def contribution (registry : Registry) (token : Token) : String :=
  (registry.restyle [token] ⟨""⟩).text

section Acts

variable {registry : Registry} {token : Token}

theorem restyle_cons (hacts : ∀ token, registry.Acts token) (token : Token) (rest : List Token) :
    registry.restyle (token :: rest) = registry.restyle rest ∘ registry.restyle [token] := by
  funext selector
  simp only [restyle, Function.comp_apply]
  cases hacts token with
  | skips hstep =>
      rw [run_cons_of_skip (hstep _), run_cons_of_skip (hstep _)]
      rfl
  | adds wrapper weight _ hstep =>
      rw [run_cons_of_step (hstep _), run_cons_of_step (hstep _)]
      exact selector_run_congr hacts rfl
  | changes change weight _ hstep =>
      rw [run_cons_of_step (hstep _), run_cons_of_step (hstep _)]
      exact selector_run_congr hacts rfl

theorem restyle_of_step {selector : Selector} {next : Placement} {weight : Nat}
    (h : registry.step? (.ofSelector selector) token = some (next, weight)) :
    registry.restyle [token] selector = next.selector := by
  rw [restyle, run_cons_of_step h]
  rfl

theorem exists_restyle_singleton (hacts : registry.Acts token)
    (happends : ∀ family ∈ registry.families, family.wraps token = false →
      ∃ suffix?, family.Appends token suffix?) :
    ∃ suffix? : Option String, ∀ selector,
      registry.restyle [token] selector = suffix?.elim selector selector.withSuffix := by
  cases hacts with
  | skips hstep =>
      refine ⟨none, fun selector => ?_⟩
      rw [restyle, run_cons_of_skip (hstep _)]
      rfl
  | adds wrapper weight _ hstep => exact ⟨none, fun selector => restyle_of_step (hstep _)⟩
  | changes change weight hkind hstep =>
      cases hfind : registry.find? token with
      | none =>
          have hnone := hstep (.ofSelector ⟨""⟩)
          rw [step?, hfind] at hnone
          cases hnone
      | some family =>
          have hwraps : family.wraps token = false := by simpa [isAtRule, hfind] using hkind
          obtain ⟨suffix?, hsuffix⟩ := happends family (List.mem_of_find?_eq_some hfind) hwraps
          refine ⟨suffix?, fun selector => ?_⟩
          have hplace := hstep (.ofSelector selector)
          rw [restyle_of_step hplace]
          rw [step?, hfind] at hplace
          obtain ⟨next, hnext, heq⟩ := Option.map_eq_some_iff.mp hplace
          cases heq
          exact hsuffix _ _ (Option.filter_eq_some_iff.mp hnext).1

theorem maps_restyle_singleton (hacts : registry.Acts token)
    (happends : ∀ family ∈ registry.families, family.wraps token = false →
      ∃ suffix?, family.Appends token suffix?)
    (hwhole : IsWhole (registry.contribution token).toList) :
    Selector.Maps (registry.restyle [token]) := by
  obtain ⟨suffix?, hrestyle⟩ := exists_restyle_singleton hacts happends
  rw [contribution, hrestyle] at hwhole
  rw [funext hrestyle]
  cases suffix? with
  | none => exact Selector.maps_id
  | some suffix =>
      have hempty : IsWhole "".toList := by decide
      have htext : Text.trimmed "" ++ suffix = suffix := by simp [Text.trimmed]
      rw [Option.elim_some, Selector.withSuffix_of_isWhole hempty, htext] at hwhole
      exact Selector.maps_withSuffix hwhole

theorem maps_restyle (hacts : ∀ token, registry.Acts token) {tokens : List Token}
    (h : ∀ token ∈ tokens, Selector.Maps (registry.restyle [token])) :
    Selector.Maps (registry.restyle tokens) := by
  induction tokens with
  | nil => exact Selector.maps_id
  | cons token rest ih =>
      obtain ⟨htoken, hrest⟩ := List.forall_mem_cons.mp h
      rw [restyle_cons hacts]
      exact (ih hrest).comp htoken

end Acts

section Standard

variable {theme : Theme} {darkMode : DarkMode} {internalPrefix : String} {token : Token}

theorem step?_pattern {content : String} (hshape : token.shape = .arbitrary content) {c : Char}
    {rest : List Char} (htext : (decoded content).toList = c :: rest) (hat : c ≠ '@')
    (placement : Placement) :
    step? ⟨standardFamilies theme darkMode internalPrefix⟩ placement token =
      some ({ placement with selector := placement.selector.relativize (decoded content) },
        170) := by
  have hfind : find? ⟨standardFamilies theme darkMode internalPrefix⟩ token =
      some arbitraryFamily := by
    simp [find?, standardFamilies, pseudoFamily, nthFamily, attributeFamily,
      selectorFunctionFamily, functionFamily, markerFamily, arbitraryFamily, hshape]
  have hplace : arbitraryFamily.place? placement token =
      some { placement with selector := placement.selector.relativize (decoded content) } := by
    simp only [arbitraryFamily, hshape]
    exact Family.placeArbitrary?_of_cons htext hat
  rw [step?, hfind]
  simp only [hplace]
  rfl

theorem not_distributes_of_isPattern (h : token.isPattern = true) :
    ¬Selector.Distributes
      (restyle ⟨standardFamilies theme darkMode internalPrefix⟩ [token]) := by
  cases hshape : token.shape with
  | arbitrary content =>
      simp only [Token.isPattern, hshape, Bool.not_eq_true', Bool.or_eq_false_iff,
        beq_eq_false_iff_ne] at h
      obtain ⟨⟨hempty, hparent⟩, hat⟩ := h
      obtain ⟨c, rest, htext⟩ : ∃ c rest, (decoded content).toList = c :: rest :=
        List.exists_cons_of_ne_nil (by simpa using hempty)
      have hc : c ≠ '@' := by
        rintro rfl
        simp [htext, Text.startsWith] at hat
      have hsolid : Text.Solid (decoded content).toList := by
        rw [decoded, String.toList_ofList, Css.decodeBracketed] at htext ⊢
        exact Text.solid_trim (by simp [htext])
      have hrestyle : restyle ⟨standardFamilies theme darkMode internalPrefix⟩ [token] =
          (Selector.relativize · (decoded content)) := by
        funext selector
        have hstep := @step?_pattern theme darkMode internalPrefix _ _ hshape _ _ htext hc
          (.ofSelector selector)
        rw [restyle_of_step hstep, Placement.ofSelector]
      rw [hrestyle]
      exact fun hdistributes => hparent (Selector.eq_parent_of_distributes hsolid hdistributes)
  | _ => simp [Token.isPattern, hshape] at h

end Standard

/-- Chains of variants change every member of a selector list alike if no variant of theirs is a
bracketed selector, and only then. -/
theorem standard_distributes_iff (theme : Theme) (darkMode : DarkMode) (internalPrefix : String) :
    ∃ registry, standard theme darkMode internalPrefix = .ok registry ∧
      ∀ tokens : List Token,
        (∀ token ∈ tokens, token.isPattern = false →
          IsWhole (registry.contribution token).toList) →
        ((∀ chain ⊆ tokens, Selector.Distributes (registry.restyle chain)) ↔
          ∀ token ∈ tokens, token.isPattern = false) := by
  refine ⟨_, standard_eq theme darkMode internalPrefix, fun tokens hwhole => ?_⟩
  have hacts (token : Token) : Acts ⟨standardFamilies theme darkMode internalPrefix⟩ token :=
    acts_of_families fun family hfamily => Family.acts_of_mem_standardFamilies hfamily token
  constructor
  · intro h token htoken
    rw [Bool.eq_false_iff]
    exact fun hpattern => not_distributes_of_isPattern hpattern (h [token] (by simpa using htoken))
  · intro h chain hchain
    apply Selector.Maps.distributes
    apply maps_restyle hacts
    intro token htoken
    have hpattern := h token (hchain htoken)
    exact maps_restyle_singleton (hacts token)
      (fun family hfamily hkind => Family.exists_appends hfamily hpattern hkind)
      (hwhole token (hchain htoken) hpattern)

theorem standard_distributes_grouped :
    ∃ registry, standard .empty .standard "monorail" = .ok registry ∧
      Selector.Distributes
        (registry.restyle [classify "hover", classify "group-has-[p,q]", classify "print"]) ∧
      (registry.restyle [classify "hover", classify "group-has-[p,q]", classify "print"]
        (Selector.ofParts [".a", "p .b"])).text =
          ".a:hover:is(:where(.group):has(p,q) *), p .b:hover:is(:where(.group):has(p,q) *)" := by
  obtain ⟨registry, hstandard, hiff⟩ := standard_distributes_iff .empty .standard "monorail"
  have hregistry : registry = ⟨standardFamilies .empty .standard "monorail"⟩ :=
    (Except.ok.inj ((standard_eq .empty .standard "monorail").symm.trans hstandard)).symm
  have hwhole : ∀ token ∈ [classify "hover", classify "group-has-[p,q]", classify "print"],
      token.isPattern = false → IsWhole (registry.contribution token).toList := by
    rw [hregistry]
    decide +kernel
  refine ⟨registry, hstandard, (hiff _ hwhole).mpr (by decide +kernel) _ (List.Subset.refl _), ?_⟩
  rw [hregistry]
  decide +kernel

/-- A pattern goes to the last member of a list, and an ancestor to the first. -/
theorem bracketed_selectors_take_lists_as_text :
    ∃ registry, standard .empty .standard "monorail" = .ok registry ∧
      (registry.restyle [classify "[&>*]"] (Selector.ofParts [".a", ".b"])).text = ".a, .b>*" ∧
      (registry.restyle [classify "[.t]"] (Selector.ofParts [".a", ".b"])).text = ".t .a, .b" ∧
      ¬Selector.Distributes (registry.restyle [classify "[&>*]"]) ∧
      ¬Selector.Distributes (registry.restyle [classify "[.t]"]) := by
  refine ⟨_, standard_eq .empty .standard "monorail", by decide +kernel, by decide +kernel, ?_, ?_⟩
  · exact not_distributes_of_isPattern (by decide +kernel)
  · exact not_distributes_of_isPattern (by decide +kernel)

end Registry

end Variant

end AtomicCss
