import AtomicCss.Proofs.Compilation
import AtomicCss.Proofs.DocumentOrder
import Mathlib.Data.List.Nodup

/-!
The order of the rules of components. All components share one list of nodes, so the at-rules that
earlier components opened draw in the rules of later ones.
-/

namespace AtomicCss

/-- A rule of a component. The rule of its classes without variants has no position; the others have
their position among the classes with variants. -/
structure ComponentRule where
  component : String
  position : Option Nat
  placed : Sheet.PlacedRule

namespace ComponentRule

def wrappers (rule : ComponentRule) : List Sheet.AtRule :=
  rule.placed.wrappers

end ComponentRule

namespace Compiler

def ComponentPart.placed (part : ComponentPart) : Sheet.PlacedRule :=
  ⟨part.placement.wrappers, part.placement.selector.text, part.nodes⟩

def ownRules (component : String) (parts : List ComponentPart) :
    List ComponentRule :=
  (Sheet.placedRules (baseRule? component parts).toList).map
    fun placed => ⟨component, none, placed⟩

def variantRules (component : String) (parts : List ComponentPart) :
    List ComponentRule :=
  (parts.filter (·.hasVariants)).zipIdx.map
    fun part => ⟨component, some part.2, part.1.placed⟩

def rulesOfComponent (compiler : Compiler) (component : String × List String) :
    List ComponentRule :=
  let parts := component.2.filterMap (compiler.componentPart? component.1)
  ownRules component.1 parts ++ variantRules component.1 parts

def componentRules (compiler : Compiler) : List ComponentRule :=
  compiler.settings.applies.entries.flatMap compiler.rulesOfComponent

theorem baseRule?_cases (selector : String) (parts : List ComponentPart) :
    baseRule? selector parts = none ∨
      ∃ children, baseRule? selector parts = some (.rule selector children) := by
  rw [baseRule?]
  split
  · exact .inl rfl
  · exact .inr ⟨_, rfl⟩

theorem ownRules_cases (component : String) (parts : List ComponentPart) :
    ownRules component parts = [] ∨
      ∃ children, ownRules component parts =
        [⟨component, none, ⟨[], component, children⟩⟩] := by
  rw [ownRules]
  rcases baseRule?_cases component parts with hnone | ⟨children, hsome⟩
  · rw [hnone]
    exact .inl rfl
  · rw [hsome]
    exact .inr ⟨children, rfl⟩

theorem foldl_insert_ownRules (component : String) (parts : List ComponentPart)
    (nodes : List Sheet.Node) :
    (ownRules component parts).foldl
        (fun nodes rule =>
          Sheet.insertWrapped rule.placed.wrappers rule.placed.node nodes) nodes =
      nodes ++ (baseRule? component parts).toList := by
  rw [ownRules]
  rcases baseRule?_cases component parts with hnone | ⟨children, hsome⟩
  · rw [hnone]
    exact (List.append_nil nodes).symm
  · rw [hsome]
    rfl

theorem foldl_insert_variantRules (component : String)
    (parts : List ComponentPart) (nodes : List Sheet.Node) :
    (variantRules component parts).foldl
        (fun nodes rule =>
          Sheet.insertWrapped rule.placed.wrappers rule.placed.node nodes) nodes =
      (parts.filter (·.hasVariants)).foldl
        (fun nodes part => Sheet.insertWrapped part.placement.wrappers
          (.rule part.placement.selector.text part.nodes) nodes) nodes := by
  conv_rhs => rw [← List.zipIdx_map_fst 0 (parts.filter (·.hasVariants))]
  rw [variantRules, List.foldl_map, List.foldl_map]
  rfl

theorem components_eq_insertAll (compiler : Compiler) :
    compiler.components =
      Sheet.insertAll (compiler.componentRules.map ComponentRule.placed) := by
  rw [components, Sheet.insertAll, List.foldl_map, componentRules, List.foldl_flatMap]
  congr
  funext nodes component
  rw [addComponent, rulesOfComponent, List.foldl_append, foldl_insert_ownRules,
    foldl_insert_variantRules]

theorem component_of_mem_rulesOfComponent {compiler : Compiler}
    {component : String × List String} {rule : ComponentRule}
    (h : rule ∈ compiler.rulesOfComponent component) :
    rule.component = component.1 := by
  rcases List.mem_append.mp h with hown | hvariant
  · obtain ⟨placed, -, rfl⟩ := List.mem_map.mp hown
    rfl
  · obtain ⟨part, -, rfl⟩ := List.mem_map.mp hvariant
    rfl

theorem nodup_variantRules (component : String) (parts : List ComponentPart) :
    (variantRules component parts).Nodup := by
  have hpositions : (variantRules component parts).map ComponentRule.position =
      ((parts.filter (·.hasVariants)).zipIdx.map Prod.snd).map some := by
    rw [variantRules, List.map_map, List.map_map]
    rfl
  apply List.Nodup.of_map ComponentRule.position
  rw [hpositions, List.zipIdx_map_snd]
  exact (List.nodup_range' ..).map (fun _ _ => Option.some.inj)

theorem nodup_rulesOfComponent (compiler : Compiler)
    (component : String × List String) :
    (compiler.rulesOfComponent component).Nodup := by
  rw [rulesOfComponent, List.nodup_append]
  refine ⟨?_, nodup_variantRules _ _, ?_⟩
  · rcases ownRules_cases component.1
      (component.2.filterMap (compiler.componentPart? component.1)) with
      hnil | ⟨children, hsingle⟩
    · rw [hnil]
      exact List.nodup_nil
    · rw [hsingle]
      exact List.nodup_singleton _
  · intro own hown variant hvariant heq
    obtain ⟨placed, -, rfl⟩ := List.mem_map.mp hown
    obtain ⟨part, -, rfl⟩ := List.mem_map.mp hvariant
    cases congrArg ComponentRule.position heq

theorem nodup_componentRules (compiler : Compiler) :
    compiler.componentRules.Nodup := by
  rw [componentRules, List.nodup_flatMap]
  refine ⟨fun component _ => compiler.nodup_rulesOfComponent component, ?_⟩
  have hdistinct := List.pairwise_map.mp compiler.settings.applies.distinct
  refine hdistinct.imp ?_
  intro first second hne rule hfirst hsecond
  exact hne ((component_of_mem_rulesOfComponent hfirst).symm.trans
    (component_of_mem_rulesOfComponent hsecond))

theorem rulesOfComponent_eq_cons {compiler : Compiler}
    {component : String × List String} {base : ComponentRule}
    (hbase : base ∈ compiler.rulesOfComponent component)
    (hposition : base.position = none) :
    base.wrappers = [] ∧
      ∃ variants, compiler.rulesOfComponent component = base :: variants := by
  rw [rulesOfComponent] at hbase ⊢
  rcases List.mem_append.mp hbase with hown | hvariant
  · rcases ownRules_cases component.1
      (component.2.filterMap (compiler.componentPart? component.1)) with
      hnil | ⟨children, hsingle⟩
    · rw [hnil] at hown
      cases hown
    · rw [hsingle, List.mem_singleton] at hown
      subst hown
      rw [hsingle]
      exact ⟨rfl, _, rfl⟩
  · obtain ⟨part, -, rfl⟩ := List.mem_map.mp hvariant
    cases hposition

section Base

variable {compiler : Compiler} {component : String × List String}
  {before after : List (String × List String)} {base variant : ComponentRule}

theorem componentRules_eq_of_entries
    (hentries : compiler.settings.applies.entries = before ++ component :: after)
    (hbase : base ∈ compiler.rulesOfComponent component) (hposition : base.position = none) :
    ∃ variants, compiler.rulesOfComponent component = base :: variants ∧
      compiler.componentRules = before.flatMap compiler.rulesOfComponent ++
        base :: (variants ++ after.flatMap compiler.rulesOfComponent) := by
  obtain ⟨-, variants, hcons⟩ := rulesOfComponent_eq_cons hbase hposition
  refine ⟨variants, hcons, ?_⟩
  rw [componentRules, hentries, List.flatMap_append, List.flatMap_cons, hcons]
  rfl

theorem base_variant_sublist
    (hentries : compiler.settings.applies.entries = before ++ component :: after)
    (hbase : base ∈ compiler.rulesOfComponent component) (hposition : base.position = none)
    (hvariant : variant ∈ compiler.rulesOfComponent component)
    (hvariantPosition : variant.position ≠ none) :
    [base, variant].Sublist compiler.componentRules := by
  obtain ⟨variants, hcons, hrules⟩ :=
    componentRules_eq_of_entries hentries hbase hposition
  rw [hcons, List.mem_cons] at hvariant
  rcases hvariant with rfl | hvariant
  · exact (hvariantPosition hposition).elim
  · rw [hrules, List.append_cons]
    exact Sheet.pair_sublist_append (by simp) (List.mem_append_left _ hvariant)

theorem overtakes_base_iff
    (hentries : compiler.settings.applies.entries = before ++ component :: after)
    (hbase : base ∈ compiler.rulesOfComponent component)
    (hposition : base.position = none) :
    Sheet.Overtakes ComponentRule.wrappers compiler.componentRules base variant ↔
      ∃ earlier ∈ before, ∃ other ∈ compiler.rulesOfComponent earlier,
        ∃ head, other.wrappers.head? = some head ∧ variant.wrappers.head? = some head := by
  have hwrappers := (rulesOfComponent_eq_cons hbase hposition).1
  obtain ⟨variants, -, hrules⟩ := componentRules_eq_of_entries hentries hbase hposition
  have hnodup := compiler.nodup_componentRules
  rw [Sheet.overtakes_iff_of_chain_eq_nil hwrappers]
  rw [hrules] at hnodup ⊢
  constructor
  · rintro ⟨opener, hopener, hshared⟩
    -- What stands before the base rule comes from the components before.
    obtain ⟨earlier, hearlier, hother⟩ :=
      List.mem_flatMap.mp (Sheet.mem_front_of_pair_sublist hnodup hopener)
    exact ⟨earlier, hearlier, opener, hother, Sheet.sharedDepth_pos_iff.mp hshared⟩
  · rintro ⟨earlier, hearlier, other, hother, hhead⟩
    have hfront := List.mem_flatMap.mpr ⟨earlier, hearlier, hother⟩
    exact ⟨other, Sheet.pair_sublist_append hfront List.mem_cons_self,
      Sheet.sharedDepth_pos_iff.mpr hhead⟩

end Base

/-- The rule of a component without variants stands before one with variants exactly if no earlier
component has a rule inside the outermost at-rule of the latter. -/
theorem document_order_of_components (compiler : Compiler) :
    (∀ classes, compiler.components ++ compiler.classRules classes <:+
      compiler.nodes classes) ∧
    ∃ document : List ComponentRule,
      document.Perm compiler.componentRules ∧
      Sheet.placedRules compiler.components =
        document.map ComponentRule.placed ∧
      ∀ before component after,
        compiler.settings.applies.entries = before ++ component :: after →
        ∀ base ∈ compiler.rulesOfComponent component, base.position = none →
        ∀ variant ∈ compiler.rulesOfComponent component, variant.position ≠ none →
          ([base, variant].Sublist document ↔
            ¬ ∃ earlier ∈ before, ∃ other ∈ compiler.rulesOfComponent earlier,
              ∃ head, other.wrappers.head? = some head ∧
                variant.wrappers.head? = some head) := by
  obtain ⟨document, harranged, hplaced⟩ :=
    Sheet.exists_arranged ComponentRule.placed compiler.componentRules
  refine ⟨compiler.rules_suffix_nodes, document, harranged.perm, ?_, ?_⟩
  · rw [components_eq_insertAll, hplaced]
  · intro before component after hentries base hbase hposition variant hvariant hne
    have harranged : Sheet.Arranged ComponentRule.wrappers compiler.componentRules
        document := harranged
    have hpair := base_variant_sublist hentries hbase hposition hvariant hne
    rw [harranged.sublist_iff compiler.nodup_componentRules hpair]
    exact not_congr (overtakes_base_iff hentries hbase hposition)

/-- The printed card is hidden by its own class, but the rule that makes it a block comes later. -/
theorem component_overrides_its_variant :
    ∃ compiler,
      build
          { applies :=
              .ofList [(".note", ["print:flex"]), (".card", ["block", "print:hidden"])] } =
        .ok compiler ∧
      (Sheet.placedRules compiler.components).map
          (fun rule => (rule.wrappers, rule.selector)) =
        [([⟨.media, "print"⟩], ".note"), ([⟨.media, "print"⟩], ".card"),
          ([], ".card")] := by
  obtain ⟨compiler, hbuild, hcheck⟩ := exists_build
    { applies :=
        .ofList [(".note", ["print:flex"]), (".card", ["block", "print:hidden"])] }
    (fun compiler => decide ((Sheet.placedRules compiler.components).map
        (fun rule => (rule.wrappers, rule.selector)) =
      [([⟨.media, "print"⟩], ".note"), ([⟨.media, "print"⟩], ".card"),
        ([], ".card")]))
    (by decide +kernel)
  exact ⟨compiler, hbuild, of_decide_eq_true hcheck⟩

end Compiler

end AtomicCss
