import AtomicCss.Proofs.DocumentOrder
import AtomicCss.Proofs.RuleOrder

/-!
The order of the rules of classes in a stylesheet. They are inserted in their own order, and a rule
leaves this order only to join an at-rule that is open already.
-/

namespace AtomicCss

namespace CompiledRule

def wrappers (rule : CompiledRule) : List Sheet.AtRule :=
  rule.placement.wrappers

def placed (rule : CompiledRule) : Sheet.PlacedRule :=
  ⟨rule.wrappers, rule.placement.selector.text, rule.nodes⟩

end CompiledRule

namespace Compiler

theorem classRules_eq_insertAll (compiler : Compiler) (classes : List String) :
    compiler.classRules classes =
      Sheet.insertAll ((compiler.compile classes).map CompiledRule.placed) := by
  rw [classRules, Sheet.insertAll, List.foldl_map]
  rfl

theorem precedes_of_pair_sublist {compiler : Compiler} {classes : List String}
    {earlier later : CompiledRule}
    (hpair : [earlier, later].Sublist (compiler.compile classes)) :
    CompiledRule.Precedes earlier later :=
  List.rel_of_pairwise_cons ((compiler.pairwise_compile classes).sublist hpair)
    (List.mem_singleton.mpr rfl)

/-- All that comes before a rule without variants has no at-rules either. -/
theorem not_overtakes_of_hasVariants_eq_false {compiler : Compiler}
    {classes : List String} {earlier later : CompiledRule}
    (hvariants : earlier.hasVariants = false) :
    ¬ Sheet.Overtakes CompiledRule.wrappers (compiler.compile classes)
      earlier later := by
  rintro ⟨opener, hopener, hlt, -⟩
  have hrule := (mem_compile.mp (hopener.subset List.mem_cons_self)).2.2
  have hopenerVariants := CompiledRule.hasVariants_eq_false_of_precedes
    (precedes_of_pair_sublist hopener) hvariants
  have hnil : opener.wrappers = [] :=
    wrappers_eq_nil_of_hasVariants_eq_false hrule hopenerVariants
  rw [hnil, Sheet.sharedDepth_nil_left] at hlt
  exact Nat.not_lt_zero _ hlt

/-- The rules of classes stand at the end of the stylesheet in their own order, but that a rule
goes in front of an earlier one to join an at-rule which was opened before. It never does so in
front of a rule that is inside all its at-rules or that has no variants. -/
theorem document_order_of_classes (compiler : Compiler) (classes : List String) :
    compiler.classRules classes <:+ compiler.nodes classes ∧
    (compiler.compile classes).Pairwise CompiledRule.Precedes ∧
    ∃ document : List CompiledRule,
      document.Perm (compiler.compile classes) ∧
      Sheet.placedRules (compiler.classRules classes) =
        document.map CompiledRule.placed ∧
      ∀ earlier later, [earlier, later].Sublist (compiler.compile classes) →
        ([earlier, later].Sublist document ↔
          ¬ Sheet.Overtakes CompiledRule.wrappers (compiler.compile classes)
            earlier later) ∧
        (later.wrappers <+: earlier.wrappers ∨ earlier.hasVariants = false →
          [earlier, later].Sublist document) := by
  obtain ⟨document, harranged, hplaced⟩ :=
    Sheet.exists_arranged CompiledRule.placed (compiler.compile classes)
  have hnodup : (compiler.compile classes).Nodup :=
    (compiler.pairwise_compile classes).nodup
  refine ⟨?_, compiler.pairwise_compile classes, document, harranged.perm, ?_, ?_⟩
  · exact (List.suffix_append ..).trans (compiler.rules_suffix_nodes classes)
  · rw [classRules_eq_insertAll, hplaced]
  · intro earlier later hpair
    have hiff := harranged.sublist_iff hnodup hpair
    refine ⟨hiff, ?_⟩
    rintro (hbegins | hvariants)
    · exact hiff.mpr (Sheet.not_overtakes_of_prefix hbegins)
    · exact hiff.mpr (not_overtakes_of_hasVariants_eq_false hvariants)

/-- The rule of `portrait:print:flex` comes last of the three, but joins the block of
`portrait:flex` in front of `print:flex`. Without `portrait:flex` it stays last. -/
theorem document_order_depends_on_other_classes :
    ∃ compiler, build {} = .ok compiler ∧
      (compiler.compile ["portrait:flex", "print:flex", "portrait:print:flex"]).map
          CompiledRule.name =
        ["portrait:flex", "print:flex", "portrait:print:flex"] ∧
      (Sheet.placedRules (compiler.classRules
          ["portrait:flex", "print:flex", "portrait:print:flex"])).map
          Sheet.PlacedRule.selector =
        [".portrait\\:flex", ".portrait\\:print\\:flex", ".print\\:flex"] ∧
      (Sheet.placedRules (compiler.classRules
          ["print:flex", "portrait:print:flex"])).map Sheet.PlacedRule.selector =
        [".print\\:flex", ".portrait\\:print\\:flex"] := by
  obtain ⟨compiler, hbuild, hcheck⟩ := exists_build {}
    (fun compiler =>
      let three := ["portrait:flex", "print:flex", "portrait:print:flex"].filterMap
        compiler.compileClass?
      let two := ["print:flex", "portrait:print:flex"].filterMap compiler.compileClass?
      decide (three.Pairwise CompiledRule.Precedes) &&
        decide (two.Pairwise CompiledRule.Precedes) &&
        decide (three.map CompiledRule.name =
          ["portrait:flex", "print:flex", "portrait:print:flex"]) &&
        decide ((Sheet.placedRules (Sheet.insertAll
            (three.map CompiledRule.placed))).map Sheet.PlacedRule.selector =
          [".portrait\\:flex", ".portrait\\:print\\:flex", ".print\\:flex"]) &&
        decide ((Sheet.placedRules (Sheet.insertAll
            (two.map CompiledRule.placed))).map Sheet.PlacedRule.selector =
          [".print\\:flex", ".portrait\\:print\\:flex"]))
    (by decide +kernel)
  simp only [Bool.and_eq_true, decide_eq_true_eq] at hcheck
  obtain ⟨⟨⟨⟨hthree, htwo⟩, hnames⟩, hselectors⟩, hwithout⟩ := hcheck
  refine ⟨compiler, hbuild, ?_, ?_, ?_⟩
  · rw [compile_eq_filterMap hthree, hnames]
  · rw [classRules_eq_insertAll, compile_eq_filterMap hthree, hselectors]
  · rw [classRules_eq_insertAll, compile_eq_filterMap htwo, hwithout]

end Compiler

end AtomicCss
