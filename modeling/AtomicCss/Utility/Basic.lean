import AtomicCss.Candidate.Parse
import AtomicCss.Error
import AtomicCss.Sheet.Node
import AtomicCss.Theme.Basic

/-!
Utilities turn candidates into declarations. A registry holds utilities in the order of their
registration and picks for a base utility the first reading that some utility can compile.
-/

namespace AtomicCss

namespace Utility

/-- The tiers in which utilities are tried. -/
inductive Priority where
  | exactStatic
  | constrainedFunctional
  | negativeVariant
  | standardFunctional
  | namespaceHandler
  | arbitraryHandler
  | fallback
  deriving DecidableEq, Repr

namespace Priority

def all : List Priority :=
  [.exactStatic, .constrainedFunctional, .negativeVariant, .standardFunctional, .namespaceHandler,
    .arbitraryHandler, .fallback]

def rank (priority : Priority) : Nat :=
  all.idxOf priority

end Priority

end Utility

structure Utility where
  name : String
  priority : Utility.Priority
  /-- The class names that it compiles as a whole. -/
  staticRoots : List String := []
  /-- The roots that it compiles with a value. -/
  functionalRoots : List String := []
  /-- Whether it compiles `[property:value]`. -/
  takesProperties : Bool := false
  /-- The nodes of a candidate. `none` and no nodes both mean that it does not apply. -/
  compile : Candidate → Theme → Option (List Sheet.Node)

namespace Utility

def answersFor (utility : Utility) : Candidate.Reading → Bool
  | .static root => utility.staticRoots.contains root
  | .functional root _ => utility.functionalRoots.contains root
  | .property _ _ => utility.takesProperties

def declaresNothing (utility : Utility) : Bool :=
  utility.staticRoots.isEmpty && utility.functionalRoots.isEmpty && !utility.takesProperties

/-- For each kind of reading the places of the utilities that answer for it, in the order in which
they were entered. -/
structure Index where
  static : List (String × Nat)
  functional : List (String × Nat)
  properties : List Nat

namespace Index

def empty : Index := ⟨[], [], []⟩

def enter (index : Index) (utility : Utility) (place : Nat) : Index where
  static := index.static ++ utility.staticRoots.map fun root => (root, place)
  functional := index.functional ++ utility.functionalRoots.map fun root => (root, place)
  properties := index.properties ++ if utility.takesProperties then [place] else []

def placesOf (root : String) (entries : List (String × Nat)) : List Nat :=
  (entries.filter fun entry => entry.1 == root).map Prod.snd

def places (index : Index) : Candidate.Reading → List Nat
  | .static root => placesOf root index.static
  | .functional root _ => placesOf root index.functional
  | .property _ _ => index.properties

def hasStatic (index : Index) (root : String) : Bool :=
  index.static.any fun entry => entry.1 == root

def hasFunctional (index : Index) (root : String) : Bool :=
  index.functional.any fun entry => entry.1 == root

theorem mem_placesOf_append {root : String} {entries : List (String × Nat)} {roots : List String}
    {place other : Nat} :
    other ∈ placesOf root (entries ++ roots.map fun root => (root, place)) ↔
      other ∈ placesOf root entries ∨ roots.contains root = true ∧ other = place := by
  simp only [placesOf, List.filter_append, List.map_append, List.mem_append, List.mem_map,
    List.mem_filter, beq_iff_eq, List.contains_iff_mem]
  constructor
  · rintro (hold | ⟨entry, ⟨⟨entered, hentered, rfl⟩, rfl⟩, rfl⟩)
    · exact .inl hold
    · exact .inr ⟨hentered, rfl⟩
  · rintro (hold | ⟨hroot, rfl⟩)
    · exact .inl hold
    · exact .inr ⟨(root, other), ⟨⟨root, hroot, rfl⟩, rfl⟩, rfl⟩

theorem mem_places_enter {index : Index} {utility : Utility} {place other : Nat}
    {reading : Candidate.Reading} :
    other ∈ (index.enter utility place).places reading ↔
      other ∈ index.places reading ∨ utility.answersFor reading = true ∧ other = place := by
  cases reading with
  | static root => exact mem_placesOf_append
  | functional root value => exact mem_placesOf_append
  | property property value =>
      simp only [places, enter, answersFor, List.mem_append]
      cases utility.takesProperties <;> simp

/-- The index leads from each reading to the utilities that answer for it. -/
def LeadsTo (index : Index) (utilities : List Utility) : Prop :=
  ∀ reading place, place ∈ index.places reading ↔
    ∃ utility, utilities[place]? = some utility ∧ utility.answersFor reading = true

theorem leadsTo_empty : empty.LeadsTo [] := by
  intro reading place
  cases reading <;> simp [empty, places, placesOf]

theorem LeadsTo.enter {index : Index} {utilities : List Utility} (h : index.LeadsTo utilities)
    (utility : Utility) :
    (index.enter utility utilities.length).LeadsTo (utilities ++ [utility]) := by
  intro reading place
  rw [mem_places_enter, h]
  constructor
  · rintro (⟨earlier, hplace, hanswers⟩ | ⟨hanswers, rfl⟩)
    · have hlt := (List.getElem?_eq_some_iff.mp hplace).1
      exact ⟨earlier, (List.getElem?_append_left hlt).trans hplace, hanswers⟩
    · exact ⟨utility, List.getElem?_concat_length, hanswers⟩
  · rintro ⟨found, hplace, hanswers⟩
    rw [List.getElem?_append] at hplace
    split at hplace
    · exact .inl ⟨found, hplace, hanswers⟩
    · rw [List.getElem?_singleton] at hplace
      split at hplace
      · cases hplace
        exact .inr ⟨hanswers, by omega⟩
      · cases hplace

end Index

structure Registry where
  utilities : List Utility
  index : Index
  leadsTo : index.LeadsTo utilities

structure Attempt where
  utility : Utility
  /-- The place of the utility in its registry. -/
  index : Nat
  candidate : Candidate
  /-- The place of the candidate among the readings of its base. -/
  position : Nat

namespace Attempt

/-- Attempts are made by tier, then by registration, then by candidate. -/
def order (left right : Attempt) : Ordering :=
  (compare left.utility.priority.rank right.utility.priority.rank).then <|
    (compare left.index right.index).then (compare left.position right.position)

def insert (attempt : Attempt) : List Attempt → List Attempt
  | [] => [attempt]
  | other :: rest =>
      if (attempt.order other).isLE then attempt :: other :: rest else other :: insert attempt rest

def sort (attempts : List Attempt) : List Attempt :=
  attempts.foldr insert []

end Attempt

structure Resolved where
  nodes : List Sheet.Node
  candidate : Candidate
  priority : Priority
  index : Nat

def Attempt.run? (attempt : Attempt) (theme : Theme) : Option Resolved :=
  match attempt.utility.compile attempt.candidate theme with
  | none => none
  | some nodes =>
      if nodes.isEmpty then none
      else
        some
          { nodes :=
              if attempt.candidate.important then nodes.map Sheet.Node.markImportant else nodes
            candidate := attempt.candidate
            priority := attempt.utility.priority
            index := attempt.index }

namespace Registry

def empty : Registry := ⟨[], .empty, Index.leadsTo_empty⟩

def names (registry : Registry) : List String :=
  registry.utilities.map Utility.name

/-- Adds a utility. Its name must be new, and it must answer for something. -/
def register (registry : Registry) (utility : Utility) : Except ConstructionError Registry :=
  if registry.names.contains utility.name then .error (.duplicateUtility utility.name)
  else if utility.declaresNothing then .error (.rootlessUtility utility.name)
  else
    .ok
      { utilities := registry.utilities ++ [utility]
        index := registry.index.enter utility registry.utilities.length
        leadsTo := registry.leadsTo.enter utility }

def registerAll (registry : Registry) (utilities : List Utility) :
    Except ConstructionError Registry :=
  utilities.foldlM register registry

def roots (registry : Registry) : Candidate.Roots where
  isStatic := registry.index.hasStatic
  isFunctional := registry.index.hasFunctional

def candidates (registry : Registry) (base : String) : List Candidate :=
  Candidate.parse registry.roots base

def attemptsFor (registry : Registry) (candidate : Candidate) (position : Nat) : List Attempt :=
  (registry.index.places candidate.reading).filterMap fun index =>
    (registry.utilities[index]?).map fun utility => { utility, index, candidate, position }

def attempts (registry : Registry) (candidates : List Candidate) : List Attempt :=
  Attempt.sort (candidates.zipIdx.flatMap fun entry => registry.attemptsFor entry.1 entry.2)

/-- Compiles a base utility by the first attempt that gives nodes. -/
def resolve? (registry : Registry) (theme : Theme) (base : String) : Option Resolved :=
  (registry.attempts (registry.candidates base)).findSome? fun attempt => attempt.run? theme

end Registry

end Utility

end AtomicCss
