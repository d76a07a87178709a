import AtomicCss.Proofs.Inert
import AtomicCss.Proofs.VariantStep

/-!
What the variants of an inert class write into selectors and at-rules is inert.
-/

namespace AtomicCss

open Text (AllInert Inert InertResult)

theorem ClassName.inert_escape {name : String} (h : Inert name.toList) :
    Inert (ClassName.escape name).toList := by
  have hchar {c : Char} (hc : Text.isStructural c = false) : Inert (escapeChar c) := by
    unfold escapeChar
    split
    · decide
    · split <;> simp +decide [hc]
  have htail {text : List Char} (htext : Inert text) : Inert (text.flatMap escapeChar) := by
    intro c hc
    obtain ⟨d, hd, hc⟩ := List.mem_flatMap.mp hc
    exact hchar (htext d hd) c hc
  have hlead {text : List Char} (htext : Inert text) : Inert (escapeLead text) := by
    cases text with
    | nil => exact htext
    | cons c rest =>
        obtain ⟨hc, hrest⟩ := Text.inert_cons.mp htext
        rw [escapeLead, Text.inert_append]
        refine ⟨?_, htail hrest⟩
        split
        · simp +decide [escapeDigit, hc]
        · exact hchar hc
  rw [escape, String.toList_ofList]
  unfold escapeList
  split
  · rename_i hname
    rw [hname, Text.inert_cons] at h
    exact Text.inert_cons.mpr ⟨rfl, hlead h.2⟩
  · exact hlead h

theorem Selector.inert_substitute {parent pattern : String} (hparent : Inert parent.toList)
    (hpattern : Inert pattern.toList) : Inert (substitute parent pattern).toList := by
  rw [substitute, String.toList_ofList]
  exact Text.inert_replaceChar hparent hpattern

namespace Variant

theorem inert_ofText {text : List Char} (h : Inert text) :
    Inert (Value.ofText text).text.toList := by
  unfold Value.ofText
  split
  · rename_i hinside
    simpa [Value.text] using ClassName.inert_of_inside? h hinside
  · simpa [Value.text] using h

theorem allInert_of_reads {segment : List Char} {shape : Shape} (h : Inert segment)
    (hreads : Reads segment shape) : AllInert shape.texts := by
  cases hreads with
  | arbitrary hinside => simpa [Shape.texts] using ClassName.inert_of_inside? h hinside
  | function hsegment =>
      rw [hsegment, Text.inert_append] at h
      simpa [Shape.texts] using inert_ofText h.2
  | labelFirst hsegment =>
      rw [hsegment, Text.inert_append, Text.inert_cons, Text.inert_append, Text.inert_cons] at h
      simp [Shape.texts, h.2.2.1, h.2.2.2.2]
  | labelLast hsegment hsplit =>
      rw [hsegment, Text.inert_append, Text.inert_cons] at h
      have hparts := ClassName.inert_splitModifier h.2.2
      rw [hsplit] at hparts
      simp [Shape.texts, hparts.1, hparts.2]
  | unlabelled hsegment =>
      rw [hsegment, Text.inert_append, Text.inert_cons] at h
      simpa [Shape.texts] using h.2.2
  | @container bound size value label hsize hvalue hlabel =>
      refine Text.allInert_append.mpr ⟨?_, ?_⟩
      · rcases hvalue with rfl | rfl
        · exact Text.allInert_nil
        · simpa using inert_ofText (h.mono hsize.subset)
      · intro text htext
        exact h.mono (hlabel text (Option.mem_toList.mp htext)).subset
  | plain => simpa [Shape.texts] using h

theorem allInert_classify {segment : String} (h : Inert segment.toList) :
    AllInert (classify segment).shape.texts :=
  allInert_of_reads h (reads_shapeOf segment.toList)

theorem inert_decoded {content : String} (h : Inert content.toList) :
    Inert (decoded content).toList := by
  simpa [decoded] using Css.inert_decodeBracketed h

theorem inert_content {value : Value} (h : Inert value.text.toList) :
    Inert value.content.toList := by
  cases value with
  | named text => exact h
  | arbitrary text => exact inert_decoded h

theorem inert_of_condition {shape : Shape} {text : String} (h : AllInert shape.texts)
    (hcondition : Condition shape text) : Inert text.toList := by
  have hframes : ∀ frame ∈ frames, Inert frame.1.toList ∧ Inert frame.2.toList := by decide
  induction hcondition with
  | pseudo hpseudo =>
      exact Text.inertResult_lookup (Text.allInert_of_bytes (by decide +kernel)) _ _ hpseudo
  | framed hframe =>
      have hvalue : Inert _ := h _ List.mem_cons_self
      simp [hframes _ hframe, inert_content hvalue]
  | nested hframe _ ih =>
      have hname : Inert _ := h _ List.mem_cons_self
      simp [hframes _ hframe, ih (allInert_classify hname)]
  | bracketed _ => exact inert_decoded (h _ List.mem_cons_self)

theorem Supports.inert_out_step {query : List Char} (h : Inert query) {rewriting : Rewriting}
    (hout : Inert rewriting.out) (found : Match) :
    Inert (rewriting.step query found).out := by
  rw [Rewriting.step]
  split
  · have hoperators : ∀ operator ∈ operators, Inert operator := by decide
    have hcopied : Inert ((query.take found.start).drop rewriting.cursor) :=
      (h.mono (List.take_subset ..)).mono (List.drop_subset ..)
    simp +decide [hout, hcopied, hoperators _ found.isOperator]
  · exact hout

theorem Supports.inert_setOffOperators {query : List Char} (h : Inert query) :
    Inert (setOffOperators query) := by
  have hfold (found : List Match) (rewriting : Rewriting) (hout : Inert rewriting.out) :
      Inert (found.foldl (Rewriting.step query) rewriting).out := by
    induction found generalizing rewriting with
    | nil => exact hout
    | cons first found ih => exact ih _ (inert_out_step h hout first)
  exact Text.inert_append.mpr ⟨hfold _ _ Text.inert_nil, h.mono (List.drop_subset ..)⟩

theorem Supports.inert_normalize {query : List Char} (h : Inert query) :
    Inert (normalize query) := by
  apply Text.inert_join (by decide)
  intro word hword
  exact (inert_setOffOperators h).pieces (List.mem_filter.mp hword).1

theorem Supports.inertResult_query? {internalPrefix : String} {value : Value}
    (hinternal : Inert internalPrefix.toList) (h : Inert value.text.toList) :
    InertResult (query? internalPrefix value) := by
  have hproperty {property : String} (hproperty : Inert property.toList) :
      Inert (propertyQuery internalPrefix property).toList := by
    simp +decide [propertyQuery, hinternal, hproperty]
  cases value with
  | named property => exact Text.inertResult_some.mpr (hproperty h)
  | arbitrary text =>
      have hcontent : Inert (Css.decodeBracketed text.toList) := Css.inert_decodeBracketed h
      simp only [query?]
      split
      · exact Text.inertResult_none
      split
      · simpa using inert_normalize hcontent
      split
      · rename_i hcut
        obtain ⟨hproperty, hvalue⟩ := hcontent.cut? hcut
        simp +decide [hproperty.trim, hvalue.trim]
      · exact Text.inertResult_some.mpr (hproperty (by simpa using hcontent))

theorem inertResult_width? {theme : Theme} {space : String} {value : Value}
    (htheme : theme.IsInert) (h : Inert value.text.toList) :
    InertResult (width? theme space value) := by
  intro width hwidth
  cases value with
  | arbitrary text =>
      rw [eq_of_nonEmptyText? hwidth]
      exact inert_content h
  | named name =>
      obtain ⟨found, hfound, hwidth⟩ := Option.bind_eq_some_iff.mp hwidth
      rw [eq_of_nonEmptyText? hwidth]
      exact htheme.inline _ (htheme.resolveValue? _ _ _ hfound)

end Variant

namespace Sheet

def AtRule.texts (atRule : AtRule) : List String :=
  [atRule.kind.name, atRule.params]

theorem inert_name_ofName {name : String} (h : Inert name.toList) :
    Inert (AtRuleKind.ofName name).name.toList := by
  have hname : Inert (name.toList.dropWhile (· == '@')) :=
    h.mono (List.dropWhile_sublist _).subset
  unfold AtRuleKind.ofName
  simp only
  split
  · decide
  split
  · decide
  split
  · decide
  · simpa [AtRuleKind.name] using hname

end Sheet

def Placement.texts (placement : Placement) : List String :=
  placement.selector.text :: placement.wrappers.flatMap Sheet.AtRule.texts

namespace Variant

def Change.texts : Change → List String
  | .suffix text => [text]
  | .wrapper head => head.texts
  | .pattern text => [text]

theorem Change.allInert_apply {change : Change} {placement : Placement}
    (hchange : AllInert change.texts) (hplacement : AllInert placement.texts) :
    AllInert (change.apply placement).texts := by
  obtain ⟨hselector, hwrappers⟩ := Text.allInert_cons.mp hplacement
  cases change with
  | suffix text =>
      have htext : Inert text.toList := hchange _ List.mem_cons_self
      refine Text.allInert_cons.mpr ⟨Text.inert_intercalate (by decide) ?_, hwrappers⟩
      intro part hpart
      obtain ⟨member, hmember, rfl⟩ := List.mem_map.mp hpart
      obtain ⟨piece, hpiece, rfl⟩ := List.mem_map.mp hmember
      have hpiece := (hselector.pieces hpiece).trim
      simp [hpiece, htext]
  | wrapper head =>
      have hhead : AllInert head.texts := hchange
      simp only [apply, Placement.withWrapper, Placement.texts, List.flatMap_append]
      simp [hselector, hwrappers, hhead]
  | pattern text =>
      have htext : Inert text.toList := hchange _ List.mem_cons_self
      refine Text.allInert_cons.mpr ⟨?_, hwrappers⟩
      simp only [apply, Selector.relativize]
      split
      · exact Selector.inert_substitute hselector htext
      · simp +decide [Selector.descendantOf, htext.trim, hselector]

theorem inert_selector_marker (marker : Marker) {label : Option String}
    (h : AllInert label.toList) : Inert (marker.selector label).toList := by
  have hname : Inert marker.name.toList := by cases marker <;> decide
  cases label with
  | none => simp +decide [Marker.selector, hname]
  | some label =>
      have hlabel : Inert label.toList := h _ List.mem_cons_self
      have hescape : Inert (ClassName.escape (marker.name ++ "/" ++ label)).toList :=
        ClassName.inert_escape (by simp +decide [hname, hlabel])
      simp +decide [Marker.selector, hescape]

def DarkMode.texts : DarkMode → List String
  | .marker selector => [selector]
  | .media => []

theorem inert_of_proseElement? {token : Token} {element : String}
    (h : proseElement? token = some element) : Inert element.toList := by
  unfold proseElement? at h
  split at h
  · obtain ⟨name, -, hlookup⟩ := Option.bind_eq_some_iff.mp h
    exact Text.inertResult_lookup (Text.allInert_of_bytes (by decide +kernel)) _ _ hlookup
  · cases h

theorem inert_of_mediaQuery? {token : Token} {query : String}
    (h : mediaQuery? token = some query) : Inert query.toList := by
  unfold mediaQuery? at h
  split at h
  · exact Text.inertResult_lookup (Text.allInert_of_bytes (by decide +kernel)) _ _ h
  · cases h

theorem inert_of_responsiveTest? {theme : Theme} {token : Token} {comparison : String}
    {value : Value} (htoken : AllInert token.shape.texts)
    (h : responsiveTest? theme token = some (comparison, value)) :
    Inert comparison.toList ∧ Inert value.text.toList := by
  unfold responsiveTest? at h
  split at h
  · rename_i hshape
    split at h
    · cases h
      rw [hshape] at htoken
      exact ⟨by decide, htoken _ List.mem_cons_self⟩
    · cases h
  · rename_i hshape
    cases h
    rw [hshape] at htoken
    exact ⟨by decide, htoken _ List.mem_cons_self⟩
  · rename_i hshape
    cases h
    rw [hshape] at htoken
    exact ⟨by decide, htoken _ List.mem_cons_self⟩
  · cases h

theorem inert_widthQuery {comparison width : String} (hcomparison : Inert comparison.toList)
    (hwidth : Inert width.toList) : Inert (widthQuery comparison width).toList := by
  simp +decide [widthQuery, hcomparison, hwidth]

/-- What a variant of inert settings makes of an inert token is inert. -/
theorem allInert_of_makes {theme : Theme} {darkMode : DarkMode} {internalPrefix : String}
    {token : Token} {change : Change} (htheme : theme.IsInert) (hdark : AllInert darkMode.texts)
    (hinternal : Inert internalPrefix.toList) (htoken : AllInert token.shape.texts)
    (h : Makes theme darkMode internalPrefix token change) : AllInert change.texts := by
  have hrelation (marker : Marker) : Inert marker.relation.toList := by cases marker <;> decide
  cases h with
  | condition _ hcondition => simpa [Change.texts] using inert_of_condition htoken hcondition
  | marker hshape hcondition =>
      rw [hshape, Shape.texts, Text.allInert_cons] at htoken
      have hinner := inert_of_condition (allInert_classify htoken.1) hcondition
      simp +decide [Change.texts, hinner, inert_selector_marker _ htoken.2, hrelation]
  | @markerPattern marker inner content label hshape hinner =>
      rw [hshape, Shape.texts, Text.allInert_cons] at htoken
      have hcontent := allInert_classify htoken.1
      rw [hinner] at hcontent
      have hdecoded := inert_decoded (hcontent _ List.mem_cons_self)
      have hpattern := Selector.inert_substitute (inert_selector_marker marker htoken.2) hdecoded
      simp +decide [Change.texts, hpattern, hrelation]
  | @atRule content rest hshape hcontent =>
      rw [hshape] at htoken
      have hdecoded := inert_decoded (htoken _ List.mem_cons_self)
      rw [hcontent, Text.inert_cons] at hdecoded
      have hname : Inert (String.ofList (rest.takeWhile isAtNameChar)).toList := by
        rw [String.toList_ofList]
        exact hdecoded.2.mono (List.takeWhile_sublist isAtNameChar).subset
      have hparams := (hdecoded.2.mono (List.dropWhile_sublist isAtNameChar).subset).trim
      simp [Change.texts, Sheet.AtRule.texts, Sheet.inert_name_ofName hname, hparams]
  | pattern hshape _ =>
      rw [hshape] at htoken
      simpa [Change.texts] using inert_decoded (htoken _ List.mem_cons_self)
  | prose helement => simp +decide [Change.texts, inert_of_proseElement? helement]
  | darkMarker hmode _ =>
      rw [hmode] at hdark
      have hselector : Inert _ := hdark _ List.mem_cons_self
      simp +decide [Change.texts, hselector]
  | darkMedia _ _ => decide
  | media hquery =>
      simp +decide [Change.texts, Sheet.AtRule.texts, Sheet.AtRuleKind.name,
        inert_of_mediaQuery? hquery]
  | supports hshape hquery =>
      rw [hshape] at htoken
      have hvalue : Inert _ := htoken _ List.mem_cons_self
      have hparams := Supports.inertResult_query? hinternal hvalue _ hquery
      simp +decide [Change.texts, Sheet.AtRule.texts, Sheet.AtRuleKind.name, hparams]
  | responsive htest hwidth =>
      obtain ⟨hcomparison, hvalue⟩ := inert_of_responsiveTest? htoken htest
      have hquery := inert_widthQuery hcomparison (inertResult_width? htheme hvalue _ hwidth)
      simp +decide [Change.texts, Sheet.AtRule.texts, Sheet.AtRuleKind.name, hquery]
  | @container bound value label width hshape hwidth =>
      rw [hshape, Shape.texts, Text.allInert_append] at htoken
      obtain ⟨hvalue, hlabel⟩ := htoken
      have hcomparison : Inert bound.comparison.toList := by cases bound <;> decide
      have hquery := inert_widthQuery hcomparison
        (inertResult_width? htheme (hvalue _ List.mem_cons_self) _ hwidth)
      cases label with
      | none => simp +decide [Change.texts, Sheet.AtRule.texts, Sheet.AtRuleKind.name, hquery]
      | some label =>
          have hlabel : Inert label.toList := hlabel _ List.mem_cons_self
          simp +decide [Change.texts, Sheet.AtRule.texts, Sheet.AtRuleKind.name, hquery, hlabel]

theorem Registry.Chain.allInert {makes : Token → Change → Prop} {start last : Placement}
    {tokens : List Token} (h : Chain makes start tokens last)
    (hmakes : ∀ token ∈ tokens, ∀ change, makes token change → AllInert change.texts)
    (hstart : AllInert start.texts) : AllInert last.texts := by
  induction h with
  | nil placement => exact hstart
  | @cons token change placement last rest hchange _ ih =>
      apply ih fun other hother => hmakes other (List.mem_cons_of_mem token hother)
      exact Change.allInert_apply (hmakes token List.mem_cons_self change hchange) hstart

end Variant

end AtomicCss
