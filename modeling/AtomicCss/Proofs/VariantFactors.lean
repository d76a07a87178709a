import AtomicCss.Proofs.Construction
import AtomicCss.Proofs.RuleOrder
import Mathlib.Data.List.Forall2
import Mathlib.Data.List.Perm.Basic

/-!
A chain of variants comes apart into what it does to the selector and what it puts around the rule.
Each family acts on one of the two, and whether it takes a token does not depend on where the token
stands.
-/

namespace AtomicCss.Variant

def Token.isBracketedAtRule (token : Token) : Bool :=
  match token.shape with
  | .arbitrary content => Text.startsWith ['@'] (decoded content).toList
  | _ => false

namespace Family

/-- Whether a family makes an at-rule of a token, if it takes it. -/
def wraps (family : Family) (token : Token) : Bool :=
  match family.capability with
  | .styleRule => false
  | .atRule => true
  | .both => token.isBracketedAtRule

/-- What a family does with a token, the same at every placement. -/
inductive Acts (family : Family) (token : Token) : Prop where
  | declines (h : ∀ placement, family.place? placement token = none)
  | adds (wrapper : Sheet.AtRule) (hkind : family.wraps token = true)
      (h : ∀ placement, family.place? placement token = some (placement.withWrapper wrapper))
  | changes (change : Selector → Selector) (hkind : family.wraps token = false)
      (h : ∀ placement, family.place? placement token =
        some { placement with selector := change placement.selector })

variable {family : Family} {token : Token}

theorem allows_withWrapper (h : family.wraps token = true) (placement : Placement)
    (wrapper : Sheet.AtRule) :
    family.capability.allows placement (placement.withWrapper wrapper) = true := by
  unfold wraps at h
  cases hcapability : family.capability with
  | styleRule => simp [hcapability] at h
  | atRule => simp [Capability.allows, Placement.withWrapper]
  | both => rfl

theorem allows_selector (h : family.wraps token = false) (placement : Placement)
    (selector : Selector) :
    family.capability.allows placement { placement with selector } = true := by
  unfold wraps at h
  cases hcapability : family.capability with
  | styleRule => simp [Capability.allows]
  | atRule => simp [hcapability] at h
  | both => rfl

theorem acts_of_suffix {suffix? : Option String} (hkind : family.wraps token = false)
    (h : ∀ placement, family.place? placement token = suffix?.map placement.withSuffix) :
    family.Acts token := by
  cases suffix? with
  | none => exact .declines h
  | some suffix => exact .changes (Selector.withSuffix · suffix) hkind h

theorem acts_of_wrapper {wrapper? : Option Sheet.AtRule} (hkind : family.wraps token = true)
    (h : ∀ placement, family.place? placement token = wrapper?.map placement.withWrapper) :
    family.Acts token := by
  cases wrapper? with
  | none => exact .declines h
  | some wrapper => exact .adds wrapper hkind h

theorem place?_markerFamily {marker : Marker} {inner : String} {label : Option String}
    (hshape : token.shape = .compound marker inner label) (placement : Placement) :
    markerFamily.place? placement token =
      ((markerCondition? (marker.selector label) (classify inner)).map fun condition =>
        ":is(" ++ condition ++ marker.relation ++ ")").map placement.withSuffix := by
  simp only [markerFamily, hshape, Option.map_map]
  rfl

theorem acts_markerFamily (token : Token) : markerFamily.Acts token := by
  cases hshape : token.shape with
  | compound marker inner label => exact acts_of_suffix rfl (place?_markerFamily hshape)
  | _ => exact .declines fun placement => by simp only [markerFamily, hshape]

theorem placeArbitrary?_of_cons {placement : Placement} {content : String} {c : Char}
    {rest : List Char} (htext : content.toList = c :: rest) (hat : c ≠ '@') :
    placeArbitrary? placement content =
      some { placement with selector := placement.selector.relativize content } := by
  unfold placeArbitrary?
  rw [htext]
  split
  · contradiction
  · rename_i heq
    exact (hat (List.cons.inj heq).1).elim
  · rfl

theorem acts_arbitraryFamily (token : Token) : arbitraryFamily.Acts token := by
  cases hshape : token.shape with
  | arbitrary content =>
      have hplace (placement : Placement) : arbitraryFamily.place? placement token =
          placeArbitrary? placement (decoded content) := by
        simp only [arbitraryFamily, hshape]
      have hwraps : arbitraryFamily.wraps token =
          Text.startsWith ['@'] (decoded content).toList := by
        simp only [wraps, arbitraryFamily, Token.isBracketedAtRule, hshape]
      cases htext : (decoded content).toList with
      | nil => exact .declines fun placement => by simp only [hplace, placeArbitrary?, htext]
      | cons c rest =>
          by_cases hat : c = '@'
          · subst hat
            by_cases hname : (rest.takeWhile isAtNameChar).isEmpty = true
            · exact .declines fun placement => by
                simp only [hplace, placeArbitrary?, htext, hname, if_true]
            · refine .adds ⟨Sheet.AtRuleKind.ofName (String.ofList (rest.takeWhile isAtNameChar)),
                String.ofList (Text.trim (rest.dropWhile isAtNameChar))⟩ ?_ fun placement => ?_
              · rw [hwraps, htext]
                rfl
              · simp only [hplace, placeArbitrary?, htext, hname, Bool.false_eq_true, if_false]
          · refine .changes (Selector.relativize · (decoded content)) ?_ fun placement => ?_
            · rw [hwraps, htext]
              simp [Text.startsWith, List.isPrefixOf_cons_cons, Ne.symm hat]
            · rw [hplace, placeArbitrary?_of_cons htext hat]
  | _ => exact .declines fun placement => by simp only [arbitraryFamily, hshape]

theorem acts_darkFamily (mode : DarkMode) (token : Token) : (darkFamily mode).Acts token := by
  cases mode with
  | marker selector =>
      exact .changes (Selector.withSuffix · (":where(" ++ selector ++ ", " ++ selector ++ " *)"))
        rfl fun _ => rfl
  | media => exact .adds ⟨.media, "(prefers-color-scheme: dark)"⟩ rfl fun _ => rfl

theorem place?_proseFamily (placement : Placement) (token : Token) :
    proseFamily.place? placement token =
      ((proseElement? token).map fun element => " :where(" ++ element ++
        "):not(:where([class~=\"not-prose\"], [class~=\"not-prose\"] *))").map
          placement.withSuffix := by
  simp only [proseFamily, Option.map_map]
  rfl

theorem acts_proseFamily (token : Token) : proseFamily.Acts token :=
  acts_of_suffix rfl fun placement => place?_proseFamily placement token

theorem acts_mediaFamily (token : Token) : mediaFamily.Acts token := by
  have hplace (placement : Placement) : mediaFamily.place? placement token =
      ((mediaQuery? token).map fun query => ⟨.media, query⟩).map placement.withWrapper := by
    simp only [mediaFamily, Option.map_map]
    rfl
  exact acts_of_wrapper rfl hplace

theorem acts_supportsFamily (internalPrefix : String) (token : Token) :
    (supportsFamily internalPrefix).Acts token := by
  by_cases hsupports : ∃ value, token.shape = .function .supports value
  · obtain ⟨value, hshape⟩ := hsupports
    have hplace (placement : Placement) : (supportsFamily internalPrefix).place? placement token =
        ((Supports.query? internalPrefix value).map fun query => ⟨.supports, query⟩).map
          placement.withWrapper := by
      simp only [supportsFamily, hshape, Option.map_map]
      rfl
    exact acts_of_wrapper rfl hplace
  · refine .declines fun placement => ?_
    simp only [supportsFamily]
    split
    · rename_i value hshape
      exact (hsupports ⟨value, hshape⟩).elim
    · rfl

theorem acts_responsiveFamily (theme : Theme) (token : Token) :
    (responsiveFamily theme).Acts token := by
  have hplace (placement : Placement) : (responsiveFamily theme).place? placement token =
      ((responsiveTest? theme token).bind fun test =>
        (width? theme "--breakpoint" test.2).map fun width =>
          ⟨.media, widthQuery test.1 width⟩).map placement.withWrapper := by
    simp only [responsiveFamily, Option.bind_eq_bind]
    cases responsiveTest? theme token with
    | none => rfl
    | some test =>
        rw [Option.bind_some, Option.bind_some]
        cases width? theme "--breakpoint" test.2 <;> rfl
  exact acts_of_wrapper rfl hplace

theorem acts_containerFamily (theme : Theme) (token : Token) :
    (containerFamily theme).Acts token := by
  cases hshape : token.shape with
  | container bound value label =>
      cases value with
      | none => exact .declines fun placement => by simp only [containerFamily, hshape]
      | some value =>
          have hplace (placement : Placement) : (containerFamily theme).place? placement token =
              ((width? theme "--container" value).map fun width =>
                ⟨.container, (label.map fun label =>
                  label ++ " " ++ widthQuery bound.comparison width).getD
                    (widthQuery bound.comparison width)⟩).map placement.withWrapper := by
            simp only [containerFamily, hshape, Option.map_map]
            rfl
          exact acts_of_wrapper rfl hplace
  | _ => exact .declines fun placement => by simp only [containerFamily, hshape]

/-- Every built-in family acts on one part of the placement, and does so wherever the token
stands. -/
theorem acts_of_mem_standardFamilies {theme : Theme} {darkMode : DarkMode} {internalPrefix : String}
    {family : Family} (h : family ∈ standardFamilies theme darkMode internalPrefix)
    (token : Token) : family.Acts token := by
  simp only [standardFamilies, List.mem_cons, List.not_mem_nil, or_false] at h
  rcases h with rfl | rfl | rfl | rfl | rfl | rfl | rfl | rfl | rfl | rfl | rfl | rfl
  · exact acts_of_suffix rfl fun _ => rfl
  · exact acts_of_suffix rfl fun _ => rfl
  · exact acts_of_suffix rfl fun _ => rfl
  · exact acts_of_suffix rfl fun _ => rfl
  · exact acts_markerFamily token
  · exact acts_arbitraryFamily token
  · exact acts_proseFamily token
  · exact acts_darkFamily darkMode token
  · exact acts_mediaFamily token
  · exact acts_supportsFamily internalPrefix token
  · exact acts_responsiveFamily theme token
  · exact acts_containerFamily theme token

end Family

namespace Registry

def isAtRule (registry : Registry) (token : Token) : Bool :=
  (registry.find? token).any fun family => family.wraps token

/-- What a registry does with a token, the same at every placement. -/
inductive Acts (registry : Registry) (token : Token) : Prop where
  | skips (h : ∀ placement, registry.step? placement token = none)
  | adds (wrapper : Sheet.AtRule) (weight : Nat) (hkind : registry.isAtRule token = true)
      (h : ∀ placement, registry.step? placement token =
        some (placement.withWrapper wrapper, weight))
  | changes (change : Selector → Selector) (weight : Nat)
      (hkind : registry.isAtRule token = false)
      (h : ∀ placement, registry.step? placement token =
        some ({ placement with selector := change placement.selector }, weight))

theorem acts_of_families {registry : Registry} {token : Token}
    (h : ∀ family ∈ registry.families, family.Acts token) : registry.Acts token := by
  cases hfind : registry.find? token with
  | none => exact .skips fun placement => by rw [step?, hfind]
  | some family =>
      have hkind : registry.isAtRule token = family.wraps token := by
        rw [isAtRule, hfind]
        rfl
      have hstep (placement : Placement) : registry.step? placement token =
          ((family.place? placement token).filter (family.capability.allows placement)).map
            fun after => (after, family.tokenWeight token) := by
        rw [step?, hfind]
      cases h family (List.mem_of_find?_eq_some hfind) with
      | declines hplace => exact .skips fun placement => by rw [hstep, hplace]; rfl
      | adds wrapper hwraps hplace =>
          refine .adds wrapper (family.tokenWeight token) (hkind.trans hwraps) fun placement => ?_
          rw [hstep, hplace, Option.filter_some_pos (Family.allows_withWrapper hwraps _ _)]
          rfl
      | changes change hwraps hplace =>
          refine .changes change (family.tokenWeight token) (hkind.trans hwraps) fun placement => ?_
          rw [hstep, hplace, Option.filter_some_pos (Family.allows_selector hwraps _ _)]
          rfl

theorem foldl_advance (registry : Registry) (outcome : Outcome) (tokens : List Token) :
    tokens.foldl registry.advance outcome =
      { placement := (registry.run outcome.placement tokens).placement
        weights := outcome.weights ++ (registry.run outcome.placement tokens).weights
        unmatched := outcome.unmatched ++ (registry.run outcome.placement tokens).unmatched } := by
  induction tokens generalizing outcome with
  | nil => simp [run]
  | cons token rest ih =>
      rw [run, List.foldl_cons, List.foldl_cons, ih, ih (registry.advance _ token)]
      cases hstep : registry.step? outcome.placement token with
      | none => simp [advance, hstep]
      | some stepped => simp [advance, hstep]

theorem run_cons_of_skip {registry : Registry} {placement : Placement} {token : Token}
    (h : registry.step? placement token = none) (rest : List Token) :
    registry.run placement (token :: rest) =
      { registry.run placement rest with
        unmatched := token :: (registry.run placement rest).unmatched } := by
  rw [run, List.foldl_cons, foldl_advance, advance, h]
  rfl

theorem run_cons_of_step {registry : Registry} {placement next : Placement} {token : Token}
    {weight : Nat} (h : registry.step? placement token = some (next, weight)) (rest : List Token) :
    registry.run placement (token :: rest) =
      { registry.run next rest with weights := weight :: (registry.run next rest).weights } := by
  rw [run, List.foldl_cons, foldl_advance, advance, h]
  rfl

def takes (registry : Registry) (alone : Placement) (token : Token) : Bool :=
  (registry.run alone [token]).isComplete

/-- The tokens that match and stand for at-rules. -/
def addsAtRule (registry : Registry) (alone : Placement) (token : Token) : Bool :=
  registry.isAtRule token && registry.takes alone token

/-- The tokens that match and are about the selector. -/
def changesSelector (registry : Registry) (alone : Placement) (token : Token) : Bool :=
  !registry.isAtRule token && registry.takes alone token

/-- What a chain of tokens makes of a placement, by what each of them makes of a placement `alone`
when it is the only one. -/
structure Factors (registry : Registry) (alone start : Placement) (tokens : List Token) : Prop where
  unmatched : (registry.run start tokens).unmatched =
    tokens.filter fun token => !registry.takes alone token
  selector : (registry.run start tokens).placement.selector =
    (registry.run start (tokens.filter (registry.changesSelector alone))).placement.selector
  wrappers : ∃ added,
    (registry.run start tokens).placement.wrappers = start.wrappers ++ added ∧
      List.Forall₂ (fun token wrapper =>
        (registry.run alone [token]).placement = alone.withWrapper wrapper)
          (tokens.filter (registry.addsAtRule alone)) added
  weights : List.Forall₂ (fun token weight => (registry.run alone [token]).weights = [weight])
    (tokens.filter (registry.takes alone)) (registry.run start tokens).weights

section Acts

variable {registry : Registry} {alone start : Placement} {tokens : List Token}

theorem selector_run_congr (hacts : ∀ token, registry.Acts token) {other : Placement}
    (h : start.selector = other.selector) :
    (registry.run start tokens).placement.selector =
      (registry.run other tokens).placement.selector := by
  induction tokens generalizing start other with
  | nil => exact h
  | cons token rest ih =>
      cases hacts token with
      | skips hstep =>
          rw [run_cons_of_skip (hstep start), run_cons_of_skip (hstep other)]
          exact ih h
      | adds wrapper weight _ hstep =>
          rw [run_cons_of_step (hstep start), run_cons_of_step (hstep other)]
          exact ih h
      | changes change weight _ hstep =>
          rw [run_cons_of_step (hstep start), run_cons_of_step (hstep other)]
          exact ih (congrArg change h)

theorem takes_of_skip {token : Token} (h : registry.step? alone token = none) :
    registry.takes alone token = false := by
  rw [takes, run_cons_of_skip h]
  rfl

theorem takes_of_step {token : Token} {stepped : Placement × Nat}
    (h : registry.step? alone token = some stepped) : registry.takes alone token = true := by
  rw [takes, run_cons_of_step h]
  rfl

theorem Factors.skip {token : Token} (hstep : ∀ placement, registry.step? placement token = none)
    (h : registry.Factors alone start tokens) : registry.Factors alone start (token :: tokens) := by
  have htakes := takes_of_skip (hstep alone)
  constructor
  · rw [run_cons_of_skip (hstep start), List.filter_cons_of_pos (by simp [htakes]), ← h.unmatched]
  · rw [run_cons_of_skip (hstep start),
      List.filter_cons_of_neg (by simp [changesSelector, htakes])]
    exact h.selector
  · rw [run_cons_of_skip (hstep start), List.filter_cons_of_neg (by simp [addsAtRule, htakes])]
    exact h.wrappers
  · rw [run_cons_of_skip (hstep start), List.filter_cons_of_neg (by simp [htakes])]
    exact h.weights

theorem Factors.add {token : Token} {wrapper : Sheet.AtRule} {weight : Nat}
    (hacts : ∀ token, registry.Acts token) (hkind : registry.isAtRule token = true)
    (hstep : ∀ placement, registry.step? placement token =
      some (placement.withWrapper wrapper, weight))
    (h : registry.Factors alone (start.withWrapper wrapper) tokens) :
    registry.Factors alone start (token :: tokens) := by
  have htakes := takes_of_step (hstep alone)
  constructor
  · rw [run_cons_of_step (hstep start), List.filter_cons_of_neg (by simp [htakes])]
    exact h.unmatched
  · rw [run_cons_of_step (hstep start), List.filter_cons_of_neg (by simp [changesSelector, hkind])]
    exact h.selector.trans (selector_run_congr hacts rfl)
  · obtain ⟨added, hadded, hall⟩ := h.wrappers
    refine ⟨wrapper :: added, ?_, ?_⟩
    · rw [run_cons_of_step (hstep start)]
      simpa [Placement.withWrapper] using hadded
    · rw [List.filter_cons_of_pos (by simp [addsAtRule, htakes, hkind])]
      refine .cons ?_ hall
      rw [run_cons_of_step (hstep alone)]
      rfl
  · rw [run_cons_of_step (hstep start), List.filter_cons_of_pos htakes]
    refine .cons ?_ h.weights
    rw [run_cons_of_step (hstep alone)]
    rfl

theorem Factors.change {token : Token} {change : Selector → Selector} {weight : Nat}
    (hkind : registry.isAtRule token = false)
    (hstep : ∀ placement, registry.step? placement token =
      some ({ placement with selector := change placement.selector }, weight))
    (h : registry.Factors alone { start with selector := change start.selector } tokens) :
    registry.Factors alone start (token :: tokens) := by
  have htakes := takes_of_step (hstep alone)
  constructor
  · rw [run_cons_of_step (hstep start), List.filter_cons_of_neg (by simp [htakes])]
    exact h.unmatched
  · rw [run_cons_of_step (hstep start),
      List.filter_cons_of_pos (by simp [changesSelector, htakes, hkind]),
      run_cons_of_step (hstep start)]
    exact h.selector
  · rw [run_cons_of_step (hstep start), List.filter_cons_of_neg (by simp [addsAtRule, hkind])]
    exact h.wrappers
  · rw [run_cons_of_step (hstep start), List.filter_cons_of_pos htakes]
    refine .cons ?_ h.weights
    rw [run_cons_of_step (hstep alone)]
    rfl

theorem factors_run (hacts : ∀ token, registry.Acts token) (alone start : Placement)
    (tokens : List Token) : registry.Factors alone start tokens := by
  induction tokens generalizing start with
  | nil => exact ⟨rfl, rfl, ⟨[], (List.append_nil _).symm, .nil⟩, .nil⟩
  | cons token rest ih =>
      cases hacts token with
      | skips hstep => exact (ih start).skip hstep
      | adds wrapper weight hkind hstep => exact (ih _).add hacts hkind hstep
      | changes change weight hkind hstep => exact (ih _).change hkind hstep

/-- Two chains that differ in how their tokens for at-rules and for the selector alternate come to
the same placement, with the same weights in some order. -/
theorem run_interleaved (hacts : ∀ token, registry.Acts token) {others : List Token}
    (hselector : others.filter (registry.changesSelector alone) =
      tokens.filter (registry.changesSelector alone))
    (hwrappers : others.filter (registry.addsAtRule alone) =
      tokens.filter (registry.addsAtRule alone)) :
    (registry.run start others).placement = (registry.run start tokens).placement ∧
      (registry.run start others).weights.Perm (registry.run start tokens).weights := by
  have hfirst := factors_run hacts alone start others
  have hsecond := factors_run hacts alone start tokens
  constructor
  · obtain ⟨added, hadded, hall⟩ := hfirst.wrappers
    obtain ⟨added', hadded', hall'⟩ := hsecond.wrappers
    have hunique : Relator.RightUnique fun (token : Token) (wrapper : Sheet.AtRule) =>
        (registry.run alone [token]).placement = alone.withWrapper wrapper := by
      intro token wrapper wrapper' hwrapper hwrapper'
      simpa [Placement.withWrapper] using hwrapper.symm.trans hwrapper'
    rw [hwrappers] at hall
    rw [hunique.forall₂ hall hall', ← hadded'] at hadded
    have hselectors := hfirst.selector
    rw [hselector, ← hsecond.selector] at hselectors
    exact congrArg₂ Placement.mk hselectors hadded
  · have hunique : Relator.RightUnique fun (token : Token) (weight : Nat) =>
        (registry.run alone [token]).weights = [weight] := by
      intro token weight weight' hweight hweight'
      simpa using hweight.symm.trans hweight'
    apply List.rel_perm_imp hunique hfirst.weights hsecond.weights
    have hsplit (list : List Token) :
        (list.filter (registry.addsAtRule alone) ++
          list.filter (registry.changesSelector alone)).Perm
            (list.filter (registry.takes alone)) := by
      have hperm := List.filter_append_perm registry.isAtRule (list.filter (registry.takes alone))
      rw [List.filter_filter, List.filter_filter] at hperm
      exact hperm
    have hothers := hsplit others
    rw [hselector, hwrappers] at hothers
    exact hothers.symm.trans (hsplit tokens)

end Acts

end Registry

end AtomicCss.Variant

namespace AtomicCss

theorem CompiledRule.signature_eq_of_perm {left right : CompiledRule}
    (h : left.weights.Perm right.weights) : left.signature = right.signature := by
  rw [signature_eq_insertionSort, signature_eq_insertionSort]
  have hsorted (weights : List Nat) :
      (weights.insertionSort fun left right => right ≤ left).Pairwise
        fun left right => right ≤ left :=
    List.pairwise_insertionSort _ weights
  apply List.Perm.eq_of_pairwise (fun _ _ _ _ hge hle => Nat.le_antisymm hle hge) (hsorted _)
    (hsorted _)
  exact (List.perm_insertionSort _ _).trans (h.trans (List.perm_insertionSort _ _).symm)

namespace Variant.Registry

/-- A chain of variants comes apart into the tokens for the selector and the tokens for at-rules:
how the two alternate changes neither the placement nor the order of the rule among others. -/
theorem standard_chain_factors (theme : Theme) (darkMode : DarkMode) (internalPrefix : String) :
    ∃ registry, standard theme darkMode internalPrefix = .ok registry ∧
      ∀ (alone start : Placement) (tokens : List Token),
        registry.Factors alone start tokens ∧
          ∀ others,
            others.filter (registry.changesSelector alone) =
                tokens.filter (registry.changesSelector alone) →
              others.filter (registry.addsAtRule alone) =
                tokens.filter (registry.addsAtRule alone) →
              (registry.run start others).placement = (registry.run start tokens).placement ∧
                ∀ rule : CompiledRule,
                  { rule with weights := (registry.run start others).weights }.signature =
                    { rule with weights := (registry.run start tokens).weights }.signature := by
  refine ⟨_, standard_eq theme darkMode internalPrefix, ?_⟩
  intro alone start tokens
  have hacts (token : Token) : Acts ⟨standardFamilies theme darkMode internalPrefix⟩ token :=
    acts_of_families fun family hfamily => Family.acts_of_mem_standardFamilies hfamily token
  refine ⟨factors_run hacts alone start tokens, fun others hselector hwrappers => ?_⟩
  obtain ⟨hplacement, hweights⟩ := run_interleaved hacts hselector hwrappers
  exact ⟨hplacement, fun rule => CompiledRule.signature_eq_of_perm hweights⟩

theorem standard_chain_factors_print :
    ∃ registry, standard .empty .standard "monorail" = .ok registry ∧
      registry.Factors (.ofClass "a") (.ofClass "b")
        [classify "hover", classify "bogus", classify "print", classify "[@layer_x]",
          classify "focus"] ∧
      (registry.run (.ofClass "b") [classify "print", classify "hover"]).placement =
        ⟨⟨".b:hover"⟩, [⟨.media, "print"⟩]⟩ ∧
      (registry.run (.ofClass "b") [classify "hover", classify "print"]).placement =
        (registry.run (.ofClass "b") [classify "print", classify "hover"]).placement ∧
      ∀ rule : CompiledRule,
        { rule with weights := (registry.run (.ofClass "b")
            [classify "hover", classify "print"]).weights }.signature =
          { rule with weights := (registry.run (.ofClass "b")
            [classify "print", classify "hover"]).weights }.signature := by
  obtain ⟨registry, hstandard, hfactors⟩ := standard_chain_factors .empty .standard "monorail"
  have hregistry : registry = ⟨standardFamilies .empty .standard "monorail"⟩ :=
    (Except.ok.inj ((standard_eq .empty .standard "monorail").symm.trans hstandard)).symm
  have hselector : [classify "hover", classify "print"].filter
      (registry.changesSelector (.ofClass "a")) =
        [classify "print", classify "hover"].filter (registry.changesSelector (.ofClass "a")) := by
    rw [hregistry]
    decide +kernel
  have hwrappers : [classify "hover", classify "print"].filter
      (registry.addsAtRule (.ofClass "a")) =
        [classify "print", classify "hover"].filter (registry.addsAtRule (.ofClass "a")) := by
    rw [hregistry]
    decide +kernel
  refine ⟨registry, hstandard, (hfactors _ _ _).1, ?_,
    (hfactors _ _ _).2 _ hselector hwrappers⟩
  rw [hregistry]
  decide +kernel

end Variant.Registry

end AtomicCss
