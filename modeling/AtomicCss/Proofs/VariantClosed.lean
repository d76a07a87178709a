import AtomicCss.Proofs.Brackets
import AtomicCss.Proofs.VariantStep

/-!
What variants append to a selector is closed, if their segments are: such text never takes part of
the selector out of its brackets, and is never cut at a comma itself.
-/

namespace AtomicCss

open ClassName (Open)
open Css (WellBracketed IsWhole)

theorem Selector.filter_isMark_substitute {parent : String} (pattern : String)
    (hparent : parent.toList.filter Css.Nesting.isMark = []) :
    (substitute parent pattern).toList.filter Css.Nesting.isMark =
      pattern.toList.filter Css.Nesting.isMark := by
  rw [substitute, String.toList_ofList, Text.replaceChar]
  induction pattern.toList with
  | nil => rfl
  | cons c rest ih =>
      rw [List.flatMap_cons, List.filter_append, ih]
      split
      · rename_i hc
        rw [hparent, hc, List.filter_cons_of_neg (by decide)]
        rfl
      · rw [← List.filter_append, List.singleton_append]

namespace Variant

theorem wellBracketed_decoded {content : String} (h : WellBracketed content.toList) :
    WellBracketed (decoded content).toList := by
  rw [decoded, String.toList_ofList]
  exact h.decodeBracketed

theorem wellBracketed_content_ofText {text : List Char} (h : Open.Run .nothing text .nothing) :
    WellBracketed (Value.ofText text).content.toList := by
  unfold Value.ofText
  split
  · rename_i hinside
    exact wellBracketed_decoded (by simpa using Open.wellBracketed_of_insideSquare? h hinside)
  · simpa [Value.content] using h.wellBracketed

theorem eq_of_reads_function {segment : List Char} {function : Function} {value : Value}
    (h : Reads segment (.function function value)) :
    ∃ rest, value = .ofText rest ∧ segment = function.name.toList ++ ['-'] ++ rest := by
  generalize hshape : Shape.function function value = shape at h
  cases h with
  | function h =>
      cases hshape
      exact ⟨_, rfl, h⟩
  | arbitrary => cases hshape
  | labelFirst => cases hshape
  | labelLast => cases hshape
  | unlabelled => cases hshape
  | container => cases hshape
  | plain => cases hshape

theorem wellBracketed_of_reads_arbitrary {segment : List Char} {content : String}
    (h : Reads segment (.arbitrary content)) (hrun : Open.Run .nothing segment .nothing) :
    WellBracketed content.toList := by
  cases h with
  | arbitrary hinside => simpa using Open.wellBracketed_of_insideSquare? hrun hinside

theorem filter_isMark_name (function : Function) :
    (function.name.toList ++ ['-']).filter Css.Nesting.isMark = [] := by
  cases function <;> decide

theorem run_of_reads_function {segment : List Char} {function : Function} {value : Value}
    (h : Reads segment (.function function value)) (hrun : Open.Run .nothing segment .nothing) :
    ∃ rest, value = .ofText rest ∧ Open.Run .nothing rest .nothing := by
  obtain ⟨rest, rfl, rfl⟩ := eq_of_reads_function h
  exact ⟨rest, rfl, hrun.drop _ (filter_isMark_name function)⟩

theorem isWhole_enclose {lead text tail : String}
    (hlead : Css.Nesting.through? .outside lead.toList = some ⟨1, none⟩)
    (htext : WellBracketed text.toList)
    (htail : Css.Nesting.through? ⟨1, none⟩ tail.toList = some .outside) :
    IsWhole (lead ++ text ++ tail).toList := by
  rw [String.toList_append, String.toList_append]
  exact htext.enclose hlead htail

theorem isWhole_of_mem_frames {frame : String × String} (h : frame ∈ frames) {text : String}
    (htext : WellBracketed text.toList) : IsWhole (frame.1 ++ text ++ frame.2).toList := by
  have hframes : ∀ frame ∈ frames, Css.Nesting.through? .outside frame.1.toList = some ⟨1, none⟩ ∧
      Css.Nesting.through? ⟨1, none⟩ frame.2.toList = some .outside := by
    decide
  exact isWhole_enclose (hframes frame h).1 htext (hframes frame h).2

theorem isWhole_of_pseudo? {name text : String} (h : pseudo? name = some text) :
    IsWhole text.toList := by
  have htable : ∀ entry ∈ pseudoTable, IsWhole entry.2.toList := by decide +kernel
  exact htable _ (Dictionary.mem_of_lookup h)

theorem eq_of_named_eq_ofText {name : String} {text : List Char}
    (h : .named name = Value.ofText text) : name.toList = text := by
  unfold Value.ofText at h
  split at h
  · cases h
  · cases h
    exact String.toList_ofList

theorem closed_of_condition {shape : Shape} {text : String} (h : Condition shape text)
    {segment : List Char} (hreads : Reads segment shape)
    (hrun : Open.Run .nothing segment .nothing) :
    WellBracketed text.toList ∧
      ((∀ content, shape ≠ .arbitrary content) → IsWhole text.toList) := by
  induction h generalizing segment with
  | pseudo h =>
      have hwhole := isWhole_of_pseudo? h
      exact ⟨hwhole.wellBracketed, fun _ => hwhole⟩
  | framed hframe =>
      obtain ⟨rest, rfl, hrest⟩ := run_of_reads_function hreads hrun
      have hwhole := isWhole_of_mem_frames hframe (wellBracketed_content_ofText hrest)
      exact ⟨hwhole.wellBracketed, fun _ => hwhole⟩
  | nested hframe hinner ih =>
      obtain ⟨rest, hvalue, hrest⟩ := run_of_reads_function hreads hrun
      rw [← eq_of_named_eq_ofText hvalue] at hrest
      obtain ⟨hinner, -⟩ := ih (reads_shapeOf _) hrest
      have hwhole := isWhole_of_mem_frames hframe hinner
      exact ⟨hwhole.wellBracketed, fun _ => hwhole⟩
  | bracketed _ =>
      exact ⟨wellBracketed_decoded (wellBracketed_of_reads_arbitrary hreads hrun),
        fun hshape => (hshape _ rfl).elim⟩

/-- The condition of a name whose brackets are closed. -/
theorem closed_of_condition_classify {name text : String}
    (h : Condition (classify name).shape text)
    (hrun : Open.Run .nothing name.toList .nothing) :
    WellBracketed text.toList ∧
      ((∀ content, (classify name).shape ≠ .arbitrary content) → IsWhole text.toList) :=
  closed_of_condition h (reads_shapeOf name.toList) hrun

def Shape.markerLabel : Shape → List Char
  | .compound _ _ (some label) => label.toList
  | _ => []

theorem run_of_reads_compound {segment : List Char} {marker : Marker} {inner : String}
    {label : Option String} (h : Reads segment (.compound marker inner label))
    (hrun : Open.Run .nothing segment .nothing)
    (hlabel : (Shape.compound marker inner label).markerLabel.filter Css.Nesting.isMark = []) :
    Open.Run .nothing inner.toList .nothing := by
  have hname : marker.name.toList.filter Css.Nesting.isMark = [] := by
    cases marker <;> decide
  cases h with
  | @labelFirst _ label inner h =>
      have hplain : label.filter Css.Nesting.isMark = [] := by
        simpa only [Shape.markerLabel, String.toList_ofList] using hlabel
      rw [h] at hrun
      have hnamed := (hrun.drop _ hname).drop ['/'] (by decide)
      rw [String.toList_ofList]
      exact (hnamed.drop label hplain).drop ['-'] (by decide)
  | @labelLast _ body inner label h hsplit =>
      have hplain : label.filter Css.Nesting.isMark = [] := by
        simpa only [Shape.markerLabel, String.toList_ofList] using hlabel
      rw [h, ClassName.eq_append_of_splitModifier hsplit] at hrun
      have hbody := (hrun.drop _ hname).drop ['-'] (by decide)
      rw [String.toList_ofList]
      exact hbody.dropTail ('/' :: label) (by rw [List.filter_cons_of_neg (by decide), hplain])
  | unlabelled h =>
      rw [h] at hrun
      rw [String.toList_ofList]
      exact (hrun.drop _ hname).drop ['-'] (by decide)

theorem filter_isMark_selector {marker : Marker} {inner : String} {label : Option String}
    (hlabel : (Shape.compound marker inner label).markerLabel.filter Css.Nesting.isMark = []) :
    (marker.selector label).toList.filter Css.Nesting.isMark = [] := by
  cases label with
  | none => cases marker <;> decide
  | some label =>
      have hplain : label.toList.filter Css.Nesting.isMark = [] := hlabel
      have hname : (marker.name ++ "/").toList.filter Css.Nesting.isMark = [] := by
        cases marker <;> decide
      rw [Marker.selector, String.toList_append, List.filter_append, ClassName.toList_escape,
        ClassName.filter_isMark_escapeList, String.toList_append, List.filter_append, hplain, hname]
      rfl

theorem wellBracketed_of_filter_isMark {text : List Char}
    (h : text.filter Css.Nesting.isMark = []) :
    WellBracketed text := by
  have hempty : WellBracketed [] := by decide
  exact (Css.wellBracketed_congr (h.trans List.filter_nil.symm)).mpr hempty

/-- What a change adds to a selector is closed, and text at the end of it is not cut. -/
def Change.IsTidy : Change → Prop
  | .suffix text => IsWhole text.toList
  | .wrapper _ => True
  | .pattern text => WellBracketed text.toList

theorem isWhole_is {condition : String} (marker : Marker) (h : WellBracketed condition.toList) :
    IsWhole (":is(" ++ condition ++ marker.relation ++ ")").toList := by
  have htail : Css.Nesting.through? ⟨1, none⟩ (marker.relation ++ ")").toList = some .outside := by
    cases marker <;> decide
  rw [String.append_assoc]
  exact isWhole_enclose (by decide) h htail

theorem wellBracketed_of_proseElement? {token : Token} {element : String}
    (h : proseElement? token = some element) : WellBracketed element.toList := by
  have htable : ∀ entry ∈ proseTable, WellBracketed entry.2.toList := by decide +kernel
  unfold proseElement? at h
  split at h
  · obtain ⟨name, -, hlookup⟩ := Option.bind_eq_some_iff.mp h
    exact htable _ (Dictionary.mem_of_lookup hlookup)
  · cases h

/-- The built-in families make tidy changes of a token whose segment is closed. -/
theorem isTidy_of_makes {theme : Theme} {darkMode : DarkMode} {internalPrefix segment : String}
    {change : Change} (h : Makes theme darkMode internalPrefix (classify segment) change)
    (hdark : ∀ selector, darkMode = .marker selector → WellBracketed selector.toList)
    (hrun : Open.Run .nothing segment.toList .nothing)
    (hlabel : (classify segment).shape.markerLabel.filter Css.Nesting.isMark = []) :
    change.IsTidy := by
  have hreads : Reads segment.toList (classify segment).shape := reads_shapeOf segment.toList
  cases h with
  | condition hshape h => exact (closed_of_condition_classify h hrun).2 hshape
  | @marker marker inner condition label hshape h =>
      rw [hshape] at hreads hlabel
      have hinner := run_of_reads_compound hreads hrun hlabel
      have hcondition := (closed_of_condition_classify h hinner).1
      have hselector := wellBracketed_of_filter_isMark (filter_isMark_selector hlabel)
      have hwhere : IsWhole (":where(" ++ marker.selector label ++ ")").toList :=
        isWhole_enclose (by decide) hselector (by decide)
      refine isWhole_is marker ?_
      rw [String.toList_append]
      exact hwhere.wellBracketed.append hcondition
  | @markerPattern marker inner content label hshape hinner =>
      rw [hshape] at hreads hlabel
      have hrun := run_of_reads_compound hreads hrun hlabel
      have hreads := reads_shapeOf inner.toList
      rw [show shapeOf inner.toList = .arbitrary content from hinner] at hreads
      have hcontent := wellBracketed_decoded (wellBracketed_of_reads_arbitrary hreads hrun)
      have hmarks := Selector.filter_isMark_substitute (decoded content)
        (filter_isMark_selector hlabel)
      exact isWhole_is marker ((Css.wellBracketed_congr hmarks).mpr hcontent)
  | atRule => trivial
  | pattern hshape _ =>
      rw [hshape] at hreads
      exact wellBracketed_decoded (wellBracketed_of_reads_arbitrary hreads hrun)
  | prose h =>
      exact isWhole_enclose (by decide) (wellBracketed_of_proseElement? h) (by decide)
  | @darkMarker selector hmode _ =>
      have hselector := hdark selector hmode
      have hcomma : WellBracketed ", ".toList := by decide
      have hlist : WellBracketed (selector ++ ", " ++ selector).toList := by
        rw [String.toList_append, String.toList_append]
        exact (hselector.append hcomma).append hselector
      have hwhere : IsWhole (":where(" ++ (selector ++ ", " ++ selector) ++ " *)").toList :=
        isWhole_enclose (by decide) hlist (by decide)
      simpa only [Change.IsTidy, String.append_assoc] using hwhere
  | darkMedia => trivial
  | media => trivial
  | supports => trivial
  | responsive => trivial
  | container => trivial

end Variant

end AtomicCss
