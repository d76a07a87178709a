import AtomicCss.Proofs.CandidateReadings
import AtomicCss.Proofs.Dispatch
import AtomicCss.Utility.Catalogue
import AtomicCss.Utility.Custom

/-!
Importance is settled apart from everything else: with its `!` a base is compiled by the same
utility, from the same reading and to the same nodes, and all their declarations are important.
-/

namespace AtomicCss

namespace Sheet.Node

mutual

inductive Emphasized : Node → Node → Prop
  | declaration (property value : String) (important : Bool) :
      Emphasized (.declaration ⟨property, value, important⟩) (.declaration ⟨property, value, true⟩)
  | rule (selector : String) {children marked : List Node}
      (hchildren : EmphasizedList children marked) :
      Emphasized (.rule selector children) (.rule selector marked)
  | atRule (head : AtRule) {children marked : List Node}
      (hchildren : EmphasizedList children marked) :
      Emphasized (.atRule head children) (.atRule head marked)

inductive EmphasizedList : List Node → List Node → Prop
  | nil : EmphasizedList [] []
  | cons {node marked : Node} {rest markedRest : List Node} (hnode : Emphasized node marked)
      (hrest : EmphasizedList rest markedRest) :
      EmphasizedList (node :: rest) (marked :: markedRest)

end

mutual

theorem emphasized_markImportant : (node : Node) → Emphasized node node.markImportant
  | .declaration content => .declaration content.property content.value content.important
  | .rule selector children => .rule selector (emphasizedList_markImportant children)
  | .atRule head children => .atRule head (emphasizedList_markImportant children)

theorem emphasizedList_markImportant : (nodes : List Node) →
    EmphasizedList nodes (mapDeclarationsList Declaration.markImportant nodes)
  | [] => .nil
  | node :: rest => .cons (emphasized_markImportant node) (emphasizedList_markImportant rest)

end

end Sheet.Node

namespace Candidate

def setImportant (important : Bool) (candidate : Candidate) : Candidate :=
  { candidate with important }

/-- The mark of a base goes into its candidates and nowhere else. -/
theorem parse_eq_map {base other : String} {body : List Char} {important important' : Bool}
    (hbase : Marked base.toList body important) (hother : Marked other.toList body important')
    (roots : Roots) : parse roots base = (parse roots other).map (setImportant important) := by
  simp only [parse, hbase.splitImportant_eq, hother.splitImportant_eq]
  split
  · rfl
  · split
    · split
      · rfl
      · rfl
    · split
      · rw [List.map_append, List.map_map, apply_ite (List.map _)]
        rfl
      · rw [apply_ite (List.map _)]
        rfl

theorem marked_start {base : List Char} (hend : base.getLast? ≠ some '!') :
    Marked ('!' :: base) base true := by
  cases base with
  | nil => exact .atEnd []
  | cons c rest =>
      apply Marked.atStart
      rwa [List.getLast?_cons_cons]

end Candidate

namespace Utility

/-- The utility makes the same nodes of a candidate whether it is important or not. -/
def IgnoresImportance (utility : Utility) : Prop :=
  ∀ candidate theme important,
    utility.compile (candidate.setImportant important) theme = utility.compile candidate theme

theorem ignoresImportance_of_mem_catalogue (internalPrefix : String) :
    ∀ utility ∈ Catalogue.all internalPrefix, IgnoresImportance utility := by
  have hstatic : IgnoresImportance static := fun _ _ _ => rfl
  have hproperty : IgnoresImportance property := fun _ _ _ => rfl
  have hfontSize : IgnoresImportance fontSize := fun _ _ _ => rfl
  have hfunctional (functional : Functional) :
      IgnoresImportance (functional.toUtility internalPrefix) := fun _ _ _ => rfl
  simp [Catalogue.all, hstatic, hproperty, hfontSize, hfunctional]

theorem ignoresImportance_ofDefinition {definition : Definition} {utility : Utility}
    (h : ofDefinition definition = .ok utility) : IgnoresImportance utility := by
  intro candidate theme important
  rw [ofDefinition] at h
  split at h
  · cases h
  · split at h
    · cases h
      rfl
    · cases h
      rfl

/-- The built-in utilities and those of definitions. -/
def IsStandard (utility : Utility) : Prop :=
  (∃ internalPrefix, utility ∈ Catalogue.all internalPrefix) ∨
    ∃ definition, ofDefinition definition = .ok utility

theorem IsStandard.ignoresImportance {utility : Utility} (h : utility.IsStandard) :
    IgnoresImportance utility := by
  rcases h with ⟨internalPrefix, hmem⟩ | ⟨definition, hutility⟩
  · exact ignoresImportance_of_mem_catalogue internalPrefix utility hmem
  · exact ignoresImportance_ofDefinition hutility

/-- The same result but for the mark of the candidate and of the declarations. -/
structure Resolved.Emphasizes (marked plain : Resolved) : Prop where
  index : marked.index = plain.index
  priority : marked.priority = plain.priority
  unmarked : plain.candidate.important = false
  candidate : marked.candidate = { plain.candidate with important := true }
  nodes : Sheet.Node.EmphasizedList plain.nodes marked.nodes

def Attempt.mark (attempt : Attempt) : Attempt :=
  { attempt with candidate := attempt.candidate.setImportant true }

theorem Attempt.result_mark_emphasizes {attempt : Attempt}
    (h : attempt.candidate.important = false) (nodes : List Sheet.Node) :
    (attempt.mark.result nodes).Emphasizes (attempt.result nodes) := by
  refine ⟨rfl, rfl, h, rfl, ?_⟩
  simp only [result, mark, Candidate.setImportant, h]
  have hnodes := Sheet.Node.emphasizedList_markImportant nodes
  rwa [Sheet.Node.mapDeclarationsList_eq_map] at hnodes

namespace Registry

variable {registry : Registry} {theme : Theme} {base marked : String}

section Marked

variable (hcandidates : registry.candidates marked =
    (registry.candidates base).map (Candidate.setImportant true))
  (hignores : ∀ utility ∈ registry.utilities, IgnoresImportance utility)

include hcandidates hignores

theorem Pairing.mark {attempt : Attempt} {nodes : List Sheet.Node}
    (h : registry.Pairing theme base attempt nodes) :
    registry.Pairing theme marked attempt.mark nodes where
  utility := h.utility
  candidate := by
    rw [hcandidates, List.getElem?_map]
    exact congrArg (Option.map _) h.candidate
  declared := h.declared
  compiled :=
    (hignores _ (List.mem_of_getElem? h.utility) _ _ _).trans h.compiled
  nonempty := h.nonempty

theorem Pairing.exists_mark {attempt : Attempt} {nodes : List Sheet.Node}
    (h : registry.Pairing theme marked attempt nodes) :
    ∃ plain, attempt = plain.mark ∧ registry.Pairing theme base plain nodes := by
  obtain ⟨utility, index, candidate, position⟩ := attempt
  have hcandidate := h.candidate
  rw [hcandidates, List.getElem?_map] at hcandidate
  obtain ⟨plain, hplain, rfl⟩ := Option.map_eq_some_iff.mp hcandidate
  refine ⟨⟨utility, index, plain, position⟩, rfl, h.utility, hplain, h.declared, ?_, h.nonempty⟩
  exact (hignores _ (List.mem_of_getElem? h.utility) _ _ _).symm.trans h.compiled

theorem resolve?_rel_of_candidates
    (hplain : ∀ candidate ∈ registry.candidates base, candidate.important = false)
    (theme : Theme) :
    Option.Rel Resolved.Emphasizes (registry.resolve? theme marked)
      (registry.resolve? theme base) := by
  cases hresolve : registry.resolve? theme base with
  | none =>
      have hmarked : registry.resolve? theme marked = none := by
        rw [resolve?_eq_none_iff]
        intro attempt nodes hpairing
        obtain ⟨plain, -, hpairing⟩ := hpairing.exists_mark hcandidates hignores
        exact resolve?_eq_none_iff.mp hresolve plain nodes hpairing
      rw [hmarked]
      exact .none
  | some resolved =>
      obtain ⟨attempt, nodes, hpairing, hleast, rfl⟩ := exists_least_of_resolve? hresolve
      have hmarked : registry.resolve? theme marked = some (attempt.mark.result nodes) := by
        rw [resolve?_eq_some_iff]
        refine ⟨attempt.mark, nodes, hpairing.mark hcandidates hignores, ?_, rfl⟩
        intro other nodes' hother
        obtain ⟨plain, rfl, hplain⟩ := hother.exists_mark hcandidates hignores
        exact hleast plain nodes' hplain
      rw [hmarked]
      exact .some (Attempt.result_mark_emphasizes
        (hplain _ (List.mem_of_getElem? hpairing.candidate)) nodes)

end Marked

/-- With a `!` at its end or at its start a base is compiled as without, but for importance. -/
theorem importance_is_orthogonal {registry : Registry}
    (hregistry : ∀ utility ∈ registry.utilities, utility.IsStandard) (theme : Theme)
    (base : String) (hstart : base.toList.head? ≠ some '!')
    (hend : base.toList.getLast? ≠ some '!') :
    Option.Rel Resolved.Emphasizes (registry.resolve? theme (base ++ "!"))
        (registry.resolve? theme base) ∧
      Option.Rel Resolved.Emphasizes (registry.resolve? theme ("!" ++ base))
        (registry.resolve? theme base) := by
  have hbase := Candidate.Marked.unmarked base.toList hstart hend
  have hplain : ∀ candidate ∈ registry.candidates base, candidate.important = false := by
    intro candidate hcandidate
    rw [candidates, Candidate.parse_eq_map hbase hbase] at hcandidate
    obtain ⟨other, -, rfl⟩ := List.mem_map.mp hcandidate
    rfl
  have hrel {marked : String} (hmarked : Candidate.Marked marked.toList base.toList true) :=
    resolve?_rel_of_candidates (Candidate.parse_eq_map hmarked hbase registry.roots)
      (fun utility hutility => (hregistry utility hutility).ignoresImportance) hplain theme
  refine ⟨hrel ?_, hrel ?_⟩
  · rw [String.toList_append]
    exact .atEnd base.toList
  · rw [String.toList_append]
    exact Candidate.marked_start hend

theorem importance_is_orthogonal_nested :
    let definition : Definition :=
      ⟨"tab-*", [("tab-size", "--value(integer)")], [⟨"&:hover", [("order", "*")]⟩]⟩
    let tab : Utility :=
      { name := "@utility tab-*"
        priority := .namespaceHandler
        functionalRoots := ["tab"]
        compile := Custom.compileWildcard? definition }
    let registry := afterCalls [static, tab]
    (∀ utility ∈ registry.utilities, utility.IsStandard) ∧
      ∃ plain, registry.resolve? .empty "tab-4" = some plain ∧
        Option.Rel Resolved.Emphasizes (registry.resolve? .empty ("tab-4" ++ "!")) (some plain) ∧
        Option.Rel Resolved.Emphasizes (registry.resolve? .empty ("!" ++ "tab-4"))
          (some plain) := by
  intro definition tab registry
  have hdefinition : ofDefinition definition = .ok tab := by
    have hvalid : definition.validate = .ok () := by decide +kernel
    have hwildcard : definition.isWildcard = true := by decide +kernel
    have hroot : definition.root = "tab" := by decide +kernel
    rw [ofDefinition, hvalid]
    simp only [hwildcard, if_true, hroot]
    rfl
  have hstatic : static.IsStandard := .inl ⟨"", List.mem_cons_self⟩
  have htab : tab.IsStandard := .inr ⟨definition, hdefinition⟩
  have hregistry : ∀ utility ∈ registry.utilities, utility.IsStandard :=
    List.forall_mem_cons.mpr ⟨hstatic, List.forall_mem_singleton.mpr htab⟩
  have hresolves : (registry.resolve? .empty "tab-4").isSome = true := by decide +kernel
  obtain ⟨plain, hplain⟩ := Option.isSome_iff_exists.mp hresolves
  have hmarks := importance_is_orthogonal hregistry .empty "tab-4" (by decide) (by decide)
  rw [hplain] at hmarks
  exact ⟨hregistry, plain, hplain, hmarks⟩

end Registry

end Utility

end AtomicCss
