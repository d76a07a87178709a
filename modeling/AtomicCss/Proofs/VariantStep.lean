import AtomicCss.Proofs.PrefixedRules

/-!
What one variant token can do to a placement, and what a chain of tokens that all match comes to.
-/

namespace AtomicCss.Variant

def Shape.texts : Shape → List String
  | .plain name => [name]
  | .function _ value => [value.text]
  | .container _ value label => (value.map Value.text).toList ++ label.toList
  | .compound _ inner label => inner :: label.toList
  | .arbitrary content => [content]

/-- How a segment is read, with what its parts are in it. -/
inductive Reads (segment : List Char) : Shape → Prop where
  | arbitrary {content : List Char} (h : ClassName.insideSquare? segment = some content) :
      Reads segment (.arbitrary (String.ofList content))
  | function {function : Function} {rest : List Char}
      (h : segment = function.name.toList ++ ['-'] ++ rest) :
      Reads segment (.function function (.ofText rest))
  | labelFirst {marker : Marker} {label inner : List Char}
      (h : segment = marker.name.toList ++ '/' :: (label ++ '-' :: inner)) :
      Reads segment (.compound marker (String.ofList inner) (some (String.ofList label)))
  | labelLast {marker : Marker} {body inner label : List Char}
      (h : segment = marker.name.toList ++ '-' :: body)
      (hsplit : ClassName.splitModifier body = (inner, some label)) :
      Reads segment (.compound marker (String.ofList inner) (some (String.ofList label)))
  | unlabelled {marker : Marker} {inner : List Char}
      (h : segment = marker.name.toList ++ '-' :: inner) :
      Reads segment (.compound marker (String.ofList inner) none)
  | container {bound : Bound} {size : List Char} {value : Option Value} {label : Option String}
      (hsize : size <:+: segment) (hvalue : value = none ∨ value = some (.ofText size))
      (hlabel : ∀ text ∈ label, text.toList <:+: segment) :
      Reads segment (.container bound value label)
  | plain : Reads segment (.plain (String.ofList segment))

theorem eq_of_nonEmpty? {text result : List Char} (h : nonEmpty? text = some result) :
    result = text := by
  unfold nonEmpty? at h
  split at h
  · cases h
  · exact (Option.some.inj h).symm

theorem reads_of_compoundShape? {marker : Marker} {rest : List Char} {shape : Shape}
    (h : compoundShape? marker rest = some shape) :
    Reads (marker.name.toList ++ rest) shape := by
  unfold compoundShape? at h
  split at h
  · split at h
    · rename_i hcut
      split at h
      · cases h
      · cases h
        exact .labelFirst (by rw [Text.eq_append_of_cut? hcut])
    · cases h
  · rename_i body
    have hplain {shape : Shape} (h : ((nonEmpty? body).map fun inner =>
        Shape.compound marker (String.ofList inner) none) = some shape) :
        Reads (marker.name.toList ++ '-' :: body) shape := by
      obtain ⟨inner, hinner, rfl⟩ := Option.map_eq_some_iff.mp h
      rw [eq_of_nonEmpty? hinner]
      exact .unlabelled rfl
    simp only at h
    split at h
    · rename_i hsplit
      split at h
      · exact hplain h
      · cases h
        exact .labelLast rfl hsplit
    · exact hplain h
  · cases h

theorem reads_containerShape (rest : List Char) : Reads ('@' :: rest) (containerShape rest) := by
  obtain ⟨hbody, hmodifier⟩ := ClassName.infix_splitModifier rest
  have hlabel : ∀ text ∈ ((ClassName.splitModifier rest).2.bind nonEmpty?).map String.ofList,
      text.toList <:+: '@' :: rest := by
    intro text htext
    obtain ⟨label, hlabel, rfl⟩ := Option.map_eq_some_iff.mp htext
    obtain ⟨written, hwritten, hlabel⟩ := Option.bind_eq_some_iff.mp hlabel
    rw [String.toList_ofList, eq_of_nonEmpty? hlabel]
    exact (hmodifier written hwritten).trans (List.suffix_cons _ _).isInfix
  have hsized {bound : Bound} {size : List Char}
      (hsize : size <:+: (ClassName.splitModifier rest).1) :
      Reads ('@' :: rest) (.container bound ((nonEmpty? size).map Value.ofText)
        (((ClassName.splitModifier rest).2.bind nonEmpty?).map String.ofList)) := by
    refine .container ((hsize.trans hbody).trans (List.suffix_cons _ _).isInfix) ?_ hlabel
    unfold nonEmpty?
    split
    · exact .inl rfl
    · exact .inr rfl
  unfold containerShape
  simp only
  split
  · rename_i hafter
    exact hsized (by rw [Text.eq_append_of_after? hafter]; exact (List.suffix_append _ _).isInfix)
  · rename_i hafter
    exact hsized (by rw [Text.eq_append_of_after? hafter]; exact (List.suffix_append _ _).isInfix)
  · exact hsized List.infix_rfl

theorem reads_shapeOf (segment : List Char) : Reads segment (shapeOf segment) := by
  unfold shapeOf
  split
  · rename_i hinside
    exact .arbitrary hinside
  split
  · rename_i hmarker
    obtain ⟨marker, -, hmarker⟩ := List.exists_of_findSome?_eq_some hmarker
    obtain ⟨rest, hafter, hshape⟩ := Option.bind_eq_some_iff.mp hmarker
    rw [Text.eq_append_of_after? hafter]
    exact reads_of_compoundShape? hshape
  split
  · rename_i hfunction
    simp only [functionShape?, Option.bind_eq_bind, Option.bind_eq_some_iff] at hfunction
    obtain ⟨⟨function, rest⟩, hfind, text, htext, hshape⟩ := hfunction
    obtain ⟨found, -, hfound⟩ := List.exists_of_findSome?_eq_some hfind
    obtain ⟨after, hafter, heq⟩ := Option.map_eq_some_iff.mp hfound
    cases heq
    cases hshape
    rw [eq_of_nonEmpty? htext]
    exact .function (Text.eq_append_of_after? hafter)
  split
  · exact reads_containerShape _
  · exact .plain

def frames : List (String × String) :=
  [("[data-", "]"), ("[aria-", "]"), ("[aria-", "=\"true\"]"), (":nth-child(", ")"),
    (":nth-last-child(", ")"), (":nth-of-type(", ")"), (":nth-last-of-type(", ")"), (":has(", ")"),
    (":not(", ")"), (":is(", ")"), (":where(", ")")]

/-- The conditions that tokens put on an element, by their shapes. -/
inductive Condition : Shape → String → Prop where
  | pseudo {name text : String} (h : pseudo? name = some text) : Condition (.plain name) text
  | framed {frame : String × String} {function : Function} {value : Value}
      (hframe : frame ∈ frames) :
      Condition (.function function value) (frame.1 ++ value.content ++ frame.2)
  | nested {frame : String × String} {function : Function} {name inner : String}
      (hframe : frame ∈ frames) (hinner : Condition (classify name).shape inner) :
      Condition (.function function (.named name)) (frame.1 ++ inner ++ frame.2)
  | bracketed {content : String} (h : Selector.mentionsParent (decoded content) = false) :
      Condition (.arbitrary content) (decoded content)

theorem eq_of_nonEmptyText? {text result : String} (h : nonEmptyText? text = some result) :
    result = text := by
  unfold nonEmptyText? at h
  split at h
  · cases h
  · exact (Option.some.inj h).symm

theorem condition_of_nthCondition? {function : Function} {value : Value} {pseudoClass text : String}
    (hframe : (":" ++ pseudoClass ++ "(", ")") ∈ frames)
    (h : nthCondition? pseudoClass value = some text) :
    Condition (.function function value) text := by
  obtain ⟨argument, hargument, rfl⟩ := Option.map_eq_some_iff.mp h
  obtain ⟨found, hfound, hargument⟩ := Option.bind_eq_some_iff.mp hargument
  have hcontent : found = value.content := by
    cases value with
    | named name =>
        simp only at hfound
        split at hfound
        · exact (Option.some.inj hfound).symm
        · cases hfound
    | arbitrary content => exact (Option.some.inj hfound).symm
  rw [eq_of_nonEmptyText? hargument, hcontent]
  exact .framed hframe

theorem condition_of_condition? {shape : Shape} {text : String}
    (h : shape.condition? = some text) : Condition shape text := by
  -- The value of a function is a segment again; such a chain ends because segments get shorter.
  induction hrank : shape.rank using Nat.strongRecOn generalizing shape text with
  | ind rank ih =>
      cases shape with
      | plain name =>
          rw [Shape.condition?] at h
          exact .pseudo h
      | container bound value label =>
          rw [Shape.condition?] at h
          cases h
      | compound marker inner label =>
          rw [Shape.condition?] at h
          cases h
      | arbitrary content =>
          rw [Shape.condition?] at h
          obtain ⟨hcontent, hown⟩ := Option.filter_eq_some_iff.mp h
          rw [eq_of_nonEmptyText? hcontent] at hown ⊢
          have hparent := (Bool.and_eq_true_iff.mp hown).1
          exact .bracketed (by simpa [Selector.mentionsParent] using hparent)
      | function function value =>
          have hnamed {lead name : String} (hframe : (lead, ")") ∈ frames)
              (hvalue : value = .named name)
              (h : ((classify name).shape.condition?.map fun argument => lead ++ argument ++ ")") =
                some text) : Condition (.function function value) text := by
            obtain ⟨argument, hargument, rfl⟩ := Option.map_eq_some_iff.mp h
            have hlt := rank_classify_lt function name
            rw [← hvalue, hrank] at hlt
            rw [hvalue]
            exact .nested hframe (ih _ hlt hargument rfl)
          have harbitrary {lead : String} (hframe : (lead, ")") ∈ frames)
              (h : ((nonEmptyText? value.content).map fun argument => lead ++ argument ++ ")") =
                some text) : Condition (.function function value) text := by
            obtain ⟨argument, hargument, rfl⟩ := Option.map_eq_some_iff.mp h
            rw [eq_of_nonEmptyText? hargument]
            exact .framed hframe
          unfold Shape.condition? at h
          cases function with
          | has =>
              cases value with
              | named name => exact hnamed (by decide) rfl h
              | arbitrary content => exact harbitrary (by decide) h
          | not =>
              cases value with
              | named name => exact hnamed (by decide) rfl h
              | arbitrary content => exact harbitrary (by decide) h
          | is =>
              cases value with
              | named name => exact hnamed (by decide) rfl h
              | arbitrary content => exact harbitrary (by decide) h
          | whereSelector =>
              cases value with
              | named name => exact hnamed (by decide) rfl h
              | arbitrary content => exact harbitrary (by decide) h
          | nth => exact condition_of_nthCondition? (by decide) h
          | nthLast => exact condition_of_nthCondition? (by decide) h
          | nthOfType => exact condition_of_nthCondition? (by decide) h
          | nthLastOfType => exact condition_of_nthCondition? (by decide) h
          | data =>
              obtain ⟨key, hkey, rfl⟩ := Option.map_eq_some_iff.mp h
              have hframe : ("[data-", "]") ∈ frames := by decide
              rw [eq_of_nonEmptyText? hkey]
              exact .framed hframe
          | aria =>
              obtain ⟨key, hkey, rfl⟩ := Option.map_eq_some_iff.mp h
              have hframe : ("[aria-", "]") ∈ frames := by decide
              have htrue : ("[aria-", "=\"true\"]") ∈ frames := by decide
              rw [eq_of_nonEmptyText? hkey]
              split
              · exact .framed hframe
              · exact .framed htrue
          | supports => cases h
          | max => cases h
          | min => cases h

theorem eq_of_markerCondition? {selector text : String} {inner : Token}
    (h : markerCondition? selector inner = some text) :
    (∃ condition, Condition inner.shape condition ∧
        text = ":where(" ++ selector ++ ")" ++ condition) ∨
      ∃ content, inner.shape = .arbitrary content ∧
        text = Selector.substitute selector (decoded content) := by
  have hconditioned (h : (inner.condition?.map fun condition =>
      ":where(" ++ selector ++ ")" ++ condition) = some text) :
      ∃ condition, Condition inner.shape condition ∧
        text = ":where(" ++ selector ++ ")" ++ condition := by
    obtain ⟨condition, hcondition, rfl⟩ := Option.map_eq_some_iff.mp h
    exact ⟨condition, condition_of_condition? hcondition, rfl⟩
  unfold markerCondition? at h
  simp only at h
  split at h
  · rename_i content hshape
    split at h
    · exact .inr ⟨content, hshape, (Option.some.inj h).symm⟩
    · exact .inl (hconditioned h)
  · exact .inl (hconditioned h)

inductive Change where
  | suffix (text : String)
  | wrapper (head : Sheet.AtRule)
  /-- The selector is put into a pattern, or behind an ancestor. -/
  | pattern (text : String)

def Change.apply : Change → Placement → Placement
  | .suffix text, placement => placement.withSuffix text
  | .wrapper head, placement => placement.withWrapper head
  | .pattern text, placement =>
      { placement with selector := placement.selector.relativize text }

/-- The changes that the built-in families make of a token. -/
inductive Makes (theme : Theme) (darkMode : DarkMode) (internalPrefix : String) (token : Token) :
    Change → Prop where
  | condition {text : String} (hshape : ∀ content, token.shape ≠ .arbitrary content)
      (h : Condition token.shape text) :
      Makes theme darkMode internalPrefix token (.suffix text)
  | marker {marker : Marker} {inner condition : String} {label : Option String}
      (hshape : token.shape = .compound marker inner label)
      (h : Condition (classify inner).shape condition) :
      Makes theme darkMode internalPrefix token
        (.suffix (":is(" ++ (":where(" ++ marker.selector label ++ ")" ++ condition) ++
          marker.relation ++ ")"))
  | markerPattern {marker : Marker} {inner content : String} {label : Option String}
      (hshape : token.shape = .compound marker inner label)
      (hinner : (classify inner).shape = .arbitrary content) :
      Makes theme darkMode internalPrefix token
        (.suffix (":is(" ++ Selector.substitute (marker.selector label) (decoded content) ++
          marker.relation ++ ")"))
  | atRule {content : String} {rest : List Char} (hshape : token.shape = .arbitrary content)
      (h : (decoded content).toList = '@' :: rest) :
      Makes theme darkMode internalPrefix token
        (.wrapper ⟨Sheet.AtRuleKind.ofName (String.ofList (rest.takeWhile isAtNameChar)),
          String.ofList (Text.trim (rest.dropWhile isAtNameChar))⟩)
  | pattern {content : String} (hshape : token.shape = .arbitrary content)
      (h : ∀ rest, (decoded content).toList ≠ '@' :: rest) :
      Makes theme darkMode internalPrefix token (.pattern (decoded content))
  | prose {element : String} (h : proseElement? token = some element) :
      Makes theme darkMode internalPrefix token
        (.suffix (" :where(" ++ element ++
          "):not(:where([class~=\"not-prose\"], [class~=\"not-prose\"] *))"))
  | darkMarker {selector : String} (hmode : darkMode = .marker selector)
      (hdark : isDark token = true) :
      Makes theme darkMode internalPrefix token
        (.suffix (":where(" ++ selector ++ ", " ++ selector ++ " *)"))
  | darkMedia (hmode : darkMode = .media) (hdark : isDark token = true) :
      Makes theme darkMode internalPrefix token
        (.wrapper ⟨.media, "(prefers-color-scheme: dark)"⟩)
  | media {query : String} (h : mediaQuery? token = some query) :
      Makes theme darkMode internalPrefix token (.wrapper ⟨.media, query⟩)
  | supports {value : Value} {query : String} (hshape : token.shape = .function .supports value)
      (h : Supports.query? internalPrefix value = some query) :
      Makes theme darkMode internalPrefix token (.wrapper ⟨.supports, query⟩)
  | responsive {comparison width : String} {value : Value}
      (htest : responsiveTest? theme token = some (comparison, value))
      (hwidth : width? theme "--breakpoint" value = some width) :
      Makes theme darkMode internalPrefix token
        (.wrapper ⟨.media, widthQuery comparison width⟩)
  | container {bound : Bound} {value : Value} {label : Option String} {width : String}
      (hshape : token.shape = .container bound (some value) label)
      (hwidth : width? theme "--container" value = some width) :
      Makes theme darkMode internalPrefix token
        (.wrapper ⟨.container,
          (label.map fun label => label ++ " " ++ widthQuery bound.comparison width).getD
            (widthQuery bound.comparison width)⟩)

section Families

variable {theme : Theme} {darkMode : DarkMode} {internalPrefix : String} {token : Token}
  {placement next : Placement}

theorem makes_of_appendCondition? (hshape : ∀ content, token.shape ≠ .arbitrary content)
    (h : appendCondition? placement token = some next) :
    ∃ change, Makes theme darkMode internalPrefix token change ∧ next = change.apply placement := by
  obtain ⟨text, htext, rfl⟩ := Option.map_eq_some_iff.mp h
  exact ⟨_, .condition hshape (condition_of_condition? htext), rfl⟩

theorem makes_of_pseudoFamily (hhandles : pseudoFamily.handles token = true)
    (h : pseudoFamily.place? placement token = some next) :
    ∃ change, Makes theme darkMode internalPrefix token change ∧ next = change.apply placement := by
  refine makes_of_appendCondition? (fun content hshape => ?_) h
  simp [pseudoFamily, hshape] at hhandles

theorem makes_of_functionFamily {name : String} {weight : Nat} {functions : List Function}
    (hhandles : (functionFamily name weight functions).handles token = true)
    (h : (functionFamily name weight functions).place? placement token = some next) :
    ∃ change, Makes theme darkMode internalPrefix token change ∧ next = change.apply placement := by
  refine makes_of_appendCondition? (fun content hshape => ?_) h
  simp [functionFamily, hshape] at hhandles

theorem makes_of_markerFamily (h : markerFamily.place? placement token = some next) :
    ∃ change, Makes theme darkMode internalPrefix token change ∧ next = change.apply placement := by
  simp only [markerFamily] at h
  split at h
  · rename_i hshape
    obtain ⟨text, htext, rfl⟩ := Option.map_eq_some_iff.mp h
    rcases eq_of_markerCondition? htext with ⟨condition, hcondition, rfl⟩ | ⟨content, hinner, rfl⟩
    · exact ⟨_, .marker hshape hcondition, rfl⟩
    · exact ⟨_, .markerPattern hshape hinner, rfl⟩
  · cases h

theorem makes_of_arbitraryFamily (h : arbitraryFamily.place? placement token = some next) :
    ∃ change, Makes theme darkMode internalPrefix token change ∧ next = change.apply placement := by
  simp only [arbitraryFamily] at h
  split at h
  · rename_i hshape
    unfold placeArbitrary? at h
    split at h
    · cases h
    · rename_i rest hcontent
      simp only at h
      split at h
      · cases h
      · exact ⟨_, .atRule hshape hcontent, (Option.some.inj h).symm⟩
    · rename_i hpattern
      exact ⟨_, .pattern hshape hpattern, (Option.some.inj h).symm⟩
  · cases h

theorem makes_of_darkFamily (hhandles : (darkFamily darkMode).handles token = true)
    (h : (darkFamily darkMode).place? placement token = some next) :
    ∃ change, Makes theme darkMode internalPrefix token change ∧ next = change.apply placement := by
  cases darkMode with
  | marker selector =>
      cases h
      exact ⟨_, .darkMarker rfl hhandles, rfl⟩
  | media =>
      cases h
      exact ⟨_, .darkMedia rfl hhandles, rfl⟩

theorem makes_of_supportsFamily
    (h : (supportsFamily internalPrefix).place? placement token = some next) :
    ∃ change, Makes theme darkMode internalPrefix token change ∧ next = change.apply placement := by
  simp only [supportsFamily] at h
  split at h
  · rename_i hshape
    obtain ⟨query, hquery, rfl⟩ := Option.map_eq_some_iff.mp h
    exact ⟨_, .supports hshape hquery, rfl⟩
  · cases h

theorem makes_of_responsiveFamily
    (h : (responsiveFamily theme).place? placement token = some next) :
    ∃ change, Makes theme darkMode internalPrefix token change ∧ next = change.apply placement := by
  simp only [responsiveFamily, Option.bind_eq_bind, Option.bind_eq_some_iff] at h
  obtain ⟨⟨comparison, value⟩, htest, width, hwidth, hnext⟩ := h
  cases hnext
  exact ⟨_, .responsive htest hwidth, rfl⟩

theorem makes_of_containerFamily (h : (containerFamily theme).place? placement token = some next) :
    ∃ change, Makes theme darkMode internalPrefix token change ∧ next = change.apply placement := by
  simp only [containerFamily] at h
  split at h
  · rename_i hshape
    obtain ⟨width, hwidth, rfl⟩ := Option.map_eq_some_iff.mp h
    exact ⟨_, .container hshape hwidth, rfl⟩
  · cases h

/-- All that a built-in family can do to a placement. -/
theorem makes_of_place? {family : Family}
    (hfamily : family ∈ standardFamilies theme darkMode internalPrefix)
    (hhandles : family.handles token = true)
    (h : family.place? placement token = some next) :
    ∃ change, Makes theme darkMode internalPrefix token change ∧ next = change.apply placement := by
  simp only [standardFamilies, List.mem_cons, List.not_mem_nil, or_false] at hfamily
  rcases hfamily with rfl | rfl | rfl | rfl | rfl | rfl | rfl | rfl | rfl | rfl | rfl | rfl
  · exact makes_of_pseudoFamily hhandles h
  · exact makes_of_functionFamily hhandles h
  · exact makes_of_functionFamily hhandles h
  · exact makes_of_functionFamily hhandles h
  · exact makes_of_markerFamily h
  · exact makes_of_arbitraryFamily h
  · obtain ⟨element, helement, rfl⟩ := Option.map_eq_some_iff.mp h
    exact ⟨_, .prose helement, rfl⟩
  · exact makes_of_darkFamily hhandles h
  · obtain ⟨query, hquery, rfl⟩ := Option.map_eq_some_iff.mp h
    exact ⟨_, .media hquery, rfl⟩
  · exact makes_of_supportsFamily h
  · exact makes_of_responsiveFamily h
  · exact makes_of_containerFamily h

end Families

namespace Registry

theorem mem_insertByWeight {family other : Family} {families : List Family}
    (h : other ∈ insertByWeight family families) : other = family ∨ other ∈ families := by
  induction families with
  | nil => exact .inl (List.mem_singleton.mp h)
  | cons first rest ih =>
      rw [insertByWeight] at h
      split at h
      · exact List.mem_cons.mp h
      · rcases List.mem_cons.mp h with rfl | h
        · exact .inr List.mem_cons_self
        · exact (ih h).imp_right (List.mem_cons_of_mem first)

theorem mem_of_mem_registerAll {registry result : Registry} {families : List Family}
    (h : registry.registerAll families = .ok result) {family : Family}
    (hfamily : family ∈ result.families) : family ∈ registry.families ∨ family ∈ families := by
  induction families generalizing registry with
  | nil =>
      cases h
      exact .inl hfamily
  | cons first rest ih =>
      rw [registerAll, List.foldlM_cons, register] at h
      split at h
      · cases h
      · rcases ih h with hold | hrest
        · rcases mem_insertByWeight hold with rfl | hold
          · exact .inr List.mem_cons_self
          · exact .inl hold
        · exact .inr (List.mem_cons_of_mem first hrest)

/-- A chain of tokens that all match, by the changes that they make. -/
inductive Chain (makes : Token → Change → Prop) : Placement → List Token → Placement → Prop where
  | nil (placement : Placement) : Chain makes placement [] placement
  | cons {token : Token} {change : Change} {placement last : Placement} {rest : List Token}
      (hmakes : makes token change) (hrest : Chain makes (change.apply placement) rest last) :
      Chain makes placement (token :: rest) last

theorem unmatched_foldl_advance (registry : Registry) (outcome : Outcome) (tokens : List Token) :
    outcome.unmatched <+: (tokens.foldl registry.advance outcome).unmatched := by
  induction tokens generalizing outcome with
  | nil => exact List.prefix_rfl
  | cons token rest ih =>
      refine List.IsPrefix.trans ?_ (ih (registry.advance outcome token))
      rw [advance]
      split
      · exact List.prefix_rfl
      · exact List.prefix_append ..

theorem place?_of_step? {registry : Registry} {placement next : Placement} {token : Token}
    {weight : Nat} (h : registry.step? placement token = some (next, weight)) :
    ∃ family ∈ registry.families,
      family.handles token = true ∧ family.place? placement token = some next := by
  rw [step?] at h
  split at h
  · cases h
  · rename_i family hfamily
    obtain ⟨after, hafter, heq⟩ := Option.map_eq_some_iff.mp h
    cases heq
    exact ⟨family, List.mem_of_find?_eq_some hfamily,
      List.find?_some (p := fun family : Family => family.handles token) hfamily,
      (Option.filter_eq_some_iff.mp hafter).1⟩

/-- If no token is left over, each one has made its change. -/
theorem chain_of_foldl_advance {registry : Registry} {makes : Token → Change → Prop}
    (hplace : ∀ family ∈ registry.families, ∀ placement token next,
      family.handles token = true → family.place? placement token = some next →
        ∃ change, makes token change ∧ next = change.apply placement)
    {outcome : Outcome} {tokens : List Token}
    (hcomplete : (tokens.foldl registry.advance outcome).unmatched = []) :
    Chain makes outcome.placement tokens (tokens.foldl registry.advance outcome).placement := by
  induction tokens generalizing outcome with
  | nil => exact .nil _
  | cons token rest ih =>
      rw [List.foldl_cons] at hcomplete ⊢
      have hrest := ih hcomplete
      cases hstep : registry.step? outcome.placement token with
      | none =>
          have hleft := unmatched_foldl_advance registry (registry.advance outcome token) rest
          rw [hcomplete, advance, hstep, List.prefix_nil] at hleft
          exact (List.append_ne_nil_of_right_ne_nil _ (List.cons_ne_nil _ _) hleft).elim
      | some stepped =>
          obtain ⟨family, hfamily, hhandles, hnext⟩ := place?_of_step? hstep
          obtain ⟨change, hmakes, happly⟩ := hplace family hfamily _ _ _ hhandles hnext
          have hadvance : (registry.advance outcome token).placement = stepped.1 := by
            rw [advance, hstep]
          rw [hadvance, happly] at hrest
          exact .cons hmakes hrest

end Registry

end AtomicCss.Variant

namespace AtomicCss.Compiler

theorem mem_standardFamilies_of_build {settings : Settings} {compiler : Compiler}
    (h : build settings = .ok compiler) {family : Variant.Family}
    (hfamily : family ∈ compiler.variants.families) :
    family ∈ Variant.standardFamilies settings.theme settings.darkMode settings.internalPrefix := by
  obtain ⟨-, -, hvariants⟩ := parts_of_build h
  rcases Variant.Registry.mem_of_mem_registerAll hvariants hfamily with hempty | hall
  · cases hempty
  · exact hall

/-- The place of a rule is what the variants of its class make of the class selector. -/
theorem chain_of_compileClass? {settings : Settings} {compiler : Compiler} {name : String}
    {rule : CompiledRule} (hbuild : build settings = .ok compiler)
    (h : compiler.compileClass? name = some rule) :
    Variant.Registry.Chain
      (Variant.Makes settings.theme settings.darkMode settings.internalPrefix)
      (Placement.ofClass name) (Variant.tokenize settings.separator name).1 rule.placement := by
  rw [compileClass?_eq, (parts_of_build hbuild).1] at h
  obtain ⟨parts, hparts, rfl⟩ := Option.map_eq_some_iff.mp h
  obtain ⟨-, -, hrun, hcomplete⟩ := parts?_eq_some hparts
  rw [hrun] at hcomplete
  rw [Parts.toRule, hrun]
  apply Variant.Registry.chain_of_foldl_advance _ hcomplete
  intro family hfamily placement token next hhandles hnext
  exact Variant.makes_of_place? (mem_standardFamilies_of_build hbuild hfamily) hhandles hnext

end AtomicCss.Compiler
