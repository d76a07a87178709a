import AtomicCss.Proofs.CandidateReadings
import AtomicCss.Variant.Condition

/-!
Selector functions in front of one another. The value of such a function is a segment again, so that
a chain of them is read by classifying what is left of the segment behind each name.
-/

namespace AtomicCss.Variant

namespace Function

def selectors : List Function :=
  [.has, .not, .is, .whereSelector]

def lead (function : Function) : List Char :=
  function.name.toList ++ ['-']

def around (function : Function) (condition : String) : String :=
  ":" ++ function.name ++ "(" ++ condition ++ ")"

variable {function : Function}

theorem mem_all_of_mem_selectors (h : function ∈ selectors) : function ∈ all := by
  revert function
  decide

theorem eq_of_prefix {other : Function} {text : List Char} (h : function ∈ selectors)
    (hother : other ∈ all) (hprefixed : function.lead <+: text) (hotherLead : other.lead <+: text) :
    other = function := by
  have htable : ∀ function ∈ selectors, ∀ other ∈ all,
      other.lead <+: function.lead ∨ function.lead <+: other.lead → other = function := by
    decide
  apply htable function h other hother
  exact List.prefix_or_prefix_of_prefix hotherLead hprefixed

end Function

section Classification

variable {function : Function}

theorem markerShape?_lead (h : function ∈ Function.selectors) (rest : List Char) :
    markerShape? (function.lead ++ rest) = none := by
  have htable : ∀ function ∈ Function.selectors, ∀ marker ∈ [Marker.group, Marker.peer],
      ¬marker.name.toList <+: function.lead ∧ ¬function.lead <+: marker.name.toList := by
    decide
  rw [markerShape?, List.findSome?_eq_none_iff]
  intro marker hmarker
  obtain ⟨hshorter, hlonger⟩ := htable function h marker hmarker
  have hmismatch : ¬marker.name.toList <+: function.lead ++ rest := by
    intro hmatch
    rcases List.prefix_or_prefix_of_prefix hmatch (List.prefix_append _ rest) with hmatch | hmatch
    · exact hshorter hmatch
    · exact hlonger hmatch
  rw [Text.after?_eq_none hmismatch, Option.bind_none]

theorem findSome?_lead (h : function ∈ Function.selectors) (rest : List Char) :
    (Function.all.findSome? fun other =>
      (Text.after? other.lead (function.lead ++ rest)).map fun rest => (other, rest)) =
        some (function, rest) := by
  cases hfound : Function.all.findSome? fun other =>
      (Text.after? other.lead (function.lead ++ rest)).map fun rest => (other, rest) with
  | none =>
      have hmissed := List.findSome?_eq_none_iff.mp hfound function
        (Function.mem_all_of_mem_selectors h)
      simp at hmissed
  | some found =>
      -- whichever name is found first, no two of them start the same text
      obtain ⟨other, hother, hmatch⟩ := List.exists_of_findSome?_eq_some hfound
      obtain ⟨tail, htail, hfound⟩ := Option.map_eq_some_iff.mp hmatch
      have htext := Text.eq_append_of_after? htail
      have heq : other = function := by
        apply Function.eq_of_prefix h hother (List.prefix_append _ rest)
        rw [htext]
        exact List.prefix_append _ tail
      rw [heq, List.append_cancel_left_eq] at htext
      rw [← hfound, heq, htext]

theorem insideSquare?_lead (h : function ∈ Function.selectors) (rest : List Char) :
    ClassName.insideSquare? (function.lead ++ rest) = none := by
  have htable : ∀ function ∈ Function.selectors, function.lead.head?.any (· != '[') = true := by
    decide
  have hhead := htable function h
  apply ClassName.inside?_eq_none_iff.mpr
  intro inner hspan
  cases hlead : function.lead with
  | nil =>
      rw [hlead] at hhead
      cases hhead
  | cons c later =>
      rw [hlead] at hhead
      have hc : c = '[' := by
        have heq := hspan.eq
        rw [hlead, List.cons_append, List.cons.injEq] at heq
        exact heq.1
      simp [hc] at hhead

theorem functionShape?_lead (h : function ∈ Function.selectors) (rest : List Char) :
    functionShape? (function.lead ++ rest) =
      (nonEmpty? rest).map fun rest => .function function (Value.ofText rest) := by
  have hfound := findSome?_lead h rest
  simp only [Function.lead] at hfound ⊢
  rw [functionShape?, hfound]
  cases hempty : nonEmpty? rest <;> simp [hempty]

theorem shapeOf_lead (h : function ∈ Function.selectors) {rest : List Char} (hrest : rest ≠ []) :
    shapeOf (function.lead ++ rest) = .function function (Value.ofText rest) := by
  have hfunction : functionShape? (function.lead ++ rest) =
      some (.function function (Value.ofText rest)) := by
    rw [functionShape?_lead h, nonEmpty?, List.isEmpty_eq_false_iff.mpr hrest]
    rfl
  unfold shapeOf
  simp only [insideSquare?_lead h, markerShape?_lead h, hfunction]

theorem condition?_lead (h : function ∈ Function.selectors) :
    (classify (function.name ++ "-")).condition? = none := by
  have htable : ∀ function ∈ Function.selectors,
      (classify (function.name ++ "-")).shape = .plain (function.name ++ "-") ∧
        pseudo? (function.name ++ "-") = none := by
    decide
  obtain ⟨hshape, hpseudo⟩ := htable function h
  rw [Token.condition?, hshape, Shape.condition?, hpseudo]

theorem condition?_function (h : function ∈ Function.selectors) (name : String) :
    (Shape.function function (.named name)).condition? =
      (classify name).condition?.map function.around := by
  simp only [Function.selectors, List.mem_cons, List.not_mem_nil, or_false] at h
  rcases h with rfl | rfl | rfl | rfl <;>
  · rw [Shape.condition?]
    rfl

/-- A segment behind a selector function is read as it would be alone. -/
theorem condition?_classify_append (h : function ∈ Function.selectors) {segment : String}
    (hsegment : ClassName.insideSquare? segment.toList = none) :
    (classify (function.name ++ "-" ++ segment)).condition? =
      (classify segment).condition?.map function.around := by
  by_cases hempty : segment = ""
  · have hnone : (classify "").condition? = none := by
      rw [Token.condition?, show (classify "").shape = .plain "" from rfl, Shape.condition?]
      rfl
    rw [hempty, String.append_empty, condition?_lead h, hnone, Option.map_none]
  · have hlist : (function.name ++ "-" ++ segment).toList = function.lead ++ segment.toList := by
      simp [Function.lead]
    have hshape : (classify (function.name ++ "-" ++ segment)).shape =
        .function function (.named segment) := by
      rw [classify, hlist, shapeOf_lead h (by simpa using hempty), Value.ofText, hsegment,
        String.ofList_toList]
    rw [Token.condition?, hshape, condition?_function h]

end Classification

/-- The names of the functions and the segment, with dashes between them. -/
def chained (functions : List Function) (segment : String) : String :=
  functions.foldr (fun function rest => function.name ++ "-" ++ rest) segment

def nested (functions : List Function) (condition : String) : String :=
  functions.foldr Function.around condition

theorem insideSquare?_chained {functions : List Function}
    (hfunctions : ∀ function ∈ functions, function ∈ Function.selectors) {segment : String}
    (hsegment : ClassName.insideSquare? segment.toList = none) :
    ClassName.insideSquare? (chained functions segment).toList = none := by
  cases functions with
  | nil => exact hsegment
  | cons function rest =>
      have hlist : (chained (function :: rest) segment).toList =
          function.lead ++ (chained rest segment).toList := by
        simp [chained, Function.lead]
      rw [hlist]
      exact insideSquare?_lead (hfunctions function List.mem_cons_self) _

theorem condition?_chained {functions : List Function}
    (hfunctions : ∀ function ∈ functions, function ∈ Function.selectors) {segment : String}
    (hsegment : ClassName.insideSquare? segment.toList = none) :
    (classify (chained functions segment)).condition? =
      (classify segment).condition?.map (nested functions) := by
  induction functions with
  | nil => exact Option.map_id'.symm
  | cons function rest ih =>
      obtain ⟨hfunction, hrest⟩ := List.forall_mem_cons.mp hfunctions
      calc (classify (chained (function :: rest) segment)).condition?
        _ = (classify (chained rest segment)).condition?.map function.around :=
          condition?_classify_append hfunction (insideSquare?_chained hrest hsegment)
        _ = ((classify segment).condition?.map (nested rest)).map function.around := by
          rw [ih hrest]
        _ = (classify segment).condition?.map (nested (function :: rest)) := by
          rw [Option.map_map]
          rfl

/-- To read the condition of `outer`, the text `inner` is classified in turn. -/
def Rereads (inner outer : String) : Prop :=
  ∃ function ∈ Function.selectors, (classify outer).shape = .function function (.named inner)

theorem Rereads.length_lt {inner outer : String} (h : Rereads inner outer) :
    inner.length < outer.length := by
  obtain ⟨function, -, hshape⟩ := h
  exact length_lt_of_classify hshape

theorem Rereads.condition?_eq {inner outer : String} (h : Rereads inner outer) :
    ∃ function ∈ Function.selectors,
      (classify outer).condition? = (classify inner).condition?.map function.around := by
  obtain ⟨function, hfunction, hshape⟩ := h
  refine ⟨function, hfunction, ?_⟩
  rw [Token.condition?, hshape, condition?_function hfunction]

theorem wellFounded_rereads : WellFounded Rereads :=
  Subrelation.wf Rereads.length_lt (measure String.length).wf

/-- Selector functions nest to any depth: a chain of them in front of a segment is the condition of
the segment, if it has one, inside the functions. Reading it ends, since what is classified in turn
is shorter each time. -/
theorem selector_functions_nest (functions : List Function)
    (hfunctions : ∀ function ∈ functions, function ∈ Function.selectors) (segment : String)
    (hsegment : ∀ inner, ¬ClassName.IsSpan '[' ']' segment.toList inner) :
    (classify (chained functions segment)).condition? =
        (classify segment).condition?.map (nested functions) ∧
      ((classify (chained functions segment)).condition? = none ↔
        (classify segment).condition? = none) ∧
      (∀ inner outer, Rereads inner outer → inner.length < outer.length ∧
        ∃ function ∈ Function.selectors,
          (classify outer).condition? = (classify inner).condition?.map function.around) ∧
      WellFounded Rereads := by
  have hchained := condition?_chained hfunctions (ClassName.inside?_eq_none_iff.mpr hsegment)
  refine ⟨hchained, ?_, ?_, wellFounded_rereads⟩
  · rw [hchained, Option.map_eq_none_iff]
  · intro inner outer hrereads
    exact ⟨hrereads.length_lt, hrereads.condition?_eq⟩

theorem selector_functions_nest_data :
    (classify "not-has-where-is-data-open").condition? =
      some ":not(:has(:where(:is([data-open]))))" := by
  have hspan : ∀ inner, ¬ClassName.IsSpan '[' ']' "data-open".toList inner :=
    ClassName.inside?_eq_none_iff.mp (by decide)
  have hdata : (classify "data-open").condition? = some "[data-open]" := by
    have hshape : (classify "data-open").shape = .function .data (.named "open") := rfl
    rw [Token.condition?, hshape, Shape.condition?]
    rfl
  have hnest := (selector_functions_nest [.not, .has, .whereSelector, .is] (by decide) "data-open"
    hspan).1
  rw [hdata] at hnest
  exact hnest

end AtomicCss.Variant
