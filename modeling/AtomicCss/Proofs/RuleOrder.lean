import AtomicCss.Proofs.Compilation
import Mathlib.Data.List.Sort

/-!
The rules of a list of classes are strictly ordered, so the list is determined by the classes that
are in it.
-/

namespace AtomicCss

namespace CompiledRule

theorem order_eq_compareLex :
    order = compareLex (compareOn hasVariants)
      (compareLex (compareOn signature)
        (compareLex (compareOn index) (compareOn name))) :=
  rfl

instance : Std.TransCmp order := by
  rw [order_eq_compareLex]
  infer_instance

theorem name_eq_of_order_eq {left right : CompiledRule}
    (h : order left right = .eq) : left.name = right.name := by
  simp only [order, Ordering.then_eq_eq] at h
  exact Std.LawfulEqOrd.eq_of_compare h.2.2.2

def Precedes (left right : CompiledRule) : Prop :=
  order left right = .lt

theorem signature_eq_insertionSort (rule : CompiledRule) :
    rule.signature = rule.weights.insertionSort fun left right => right ≤ left :=
  List.mergeSort_eq_insertionSort (fun left right : Nat => right ≤ left) rule.weights

-- Insertion sort reduces in the kernel, merge sort does not.
instance (left right : CompiledRule) : Decidable (Precedes left right) :=
  decidable_of_iff
    ((compare left.hasVariants right.hasVariants).then
      ((compare (left.weights.insertionSort fun left right => right ≤ left)
          (right.weights.insertionSort fun left right => right ≤ left)).then
        ((compare left.index right.index).then
          (compare left.name right.name))) = .lt)
    (by rw [Precedes, order, signature_eq_insertionSort, signature_eq_insertionSort])

instance : Std.Irrefl Precedes where
  irrefl rule h := by
    have hself : order rule rule = .eq := Std.ReflCmp.compare_self
    cases hself.symm.trans h

instance : Std.Antisymm Precedes where
  antisymm left right hleft hright := by
    have hswap : order right left = (order left right).swap :=
      Std.OrientedCmp.eq_swap
    rw [hleft] at hswap
    cases hswap.symm.trans hright

theorem order_isLE_total (left right : CompiledRule) :
    (order left right).isLE || (order right left).isLE := by
  have hswap : order right left = (order left right).swap :=
    Std.OrientedCmp.eq_swap
  rw [hswap]
  cases order left right <;> rfl

theorem precedes_of_isLE {left right : CompiledRule}
    (hle : (order left right).isLE) (hname : left.name ≠ right.name) :
    Precedes left right := by
  cases horder : order left right with
  | lt => exact horder
  | eq => exact absurd (name_eq_of_order_eq horder) hname
  | gt => simp [horder] at hle

theorem hasVariants_eq_false_of_precedes {left right : CompiledRule}
    (h : Precedes left right) (hright : right.hasVariants = false) :
    left.hasVariants = false := by
  cases hleft : left.hasVariants with
  | false => rfl
  | true =>
      rw [Precedes, order, hleft, hright] at h
      cases h

end CompiledRule

namespace Compiler

theorem map_name_filterMap (compiler : Compiler) (names : List String) :
    (names.filterMap compiler.compileClass?).map CompiledRule.name =
      names.filter fun name => (compiler.compileClass? name).isSome := by
  induction names with
  | nil => rfl
  | cons name rest ih =>
      cases hrule : compiler.compileClass? name with
      | none => simp [hrule, ih]
      | some rule => simp [hrule, ih, name_of_compileClass? hrule]

theorem mem_compile {compiler : Compiler} {classes : List String}
    {rule : CompiledRule} :
    rule ∈ compiler.compile classes ↔
      rule.name ∈ classes ∧ rule.name ≠ "" ∧
        compiler.compileClass? rule.name = some rule := by
  simp only [compile, List.mem_mergeSort, List.mem_filterMap, List.mem_eraseDups,
    List.mem_filter, bne_iff_ne]
  constructor
  · rintro ⟨name, ⟨hmem, hne⟩, hrule⟩
    cases name_of_compileClass? hrule
    exact ⟨hmem, hne, hrule⟩
  · rintro ⟨hmem, hne, hrule⟩
    exact ⟨rule.name, ⟨hmem, hne⟩, hrule⟩

theorem nodup_compile_names (compiler : Compiler) (classes : List String) :
    ((compiler.compile classes).map CompiledRule.name).Nodup := by
  have hperm := (List.mergeSort_perm
    ((classes.filter (· != "")).eraseDups.filterMap compiler.compileClass?)
    fun left right => (CompiledRule.order left right).isLE).map CompiledRule.name
  rw [compile, hperm.nodup_iff, map_name_filterMap]
  exact (nodup_eraseDups _).filter _

/-- No two rules tie: their names are different. -/
theorem pairwise_compile (compiler : Compiler) (classes : List String) :
    (compiler.compile classes).Pairwise CompiledRule.Precedes := by
  have hle : (compiler.compile classes).Pairwise
      fun left right => (CompiledRule.order left right).isLE :=
    List.pairwise_mergeSort
      (fun _ _ _ => Std.TransCmp.isLE_trans)
      CompiledRule.order_isLE_total _
  have hne : (compiler.compile classes).Pairwise
      fun left right => left.name ≠ right.name :=
    List.pairwise_map.mp (compiler.nodup_compile_names classes)
  exact hle.imp₂ (fun _ _ => CompiledRule.precedes_of_isLE) hne

theorem compile_filter_name (compiler : Compiler) {classes others : List String}
    (hsubset : ∀ name ∈ classes, name ≠ "" → name ∈ others) :
    (compiler.compile others).filter (fun rule => decide (rule.name ∈ classes)) =
      compiler.compile classes := by
  apply ((compiler.pairwise_compile others).filter _).eq_of_mem_iff
    (compiler.pairwise_compile classes)
  intro rule
  simp only [List.mem_filter, mem_compile, decide_eq_true_eq]
  constructor
  · rintro ⟨⟨-, hne, hrule⟩, hmem⟩
    exact ⟨hmem, hne, hrule⟩
  · rintro ⟨hmem, hne, hrule⟩
    exact ⟨⟨hsubset _ hmem hne, hne, hrule⟩, hmem⟩

theorem compile_congr (compiler : Compiler) {first second : List String}
    (hsame : ∀ name, name ≠ "" → (compiler.compileClass? name).isSome →
      (name ∈ first ↔ name ∈ second)) :
    compiler.compile first = compiler.compile second := by
  apply (compiler.pairwise_compile first).eq_of_mem_iff
    (compiler.pairwise_compile second)
  intro rule
  simp only [mem_compile]
  constructor
  · rintro ⟨hmem, hne, hrule⟩
    exact ⟨(hsame _ hne (by simp [hrule])).mp hmem, hne, hrule⟩
  · rintro ⟨hmem, hne, hrule⟩
    exact ⟨(hsame _ hne (by simp [hrule])).mpr hmem, hne, hrule⟩

/-- Classes that are in order already stay so. -/
theorem compile_eq_filterMap {compiler : Compiler} {classes : List String}
    (hordered : (classes.filterMap compiler.compileClass?).Pairwise
      CompiledRule.Precedes) :
    compiler.compile classes = classes.filterMap compiler.compileClass? := by
  apply (compiler.pairwise_compile classes).eq_of_mem_iff hordered
  intro rule
  rw [mem_compile, List.mem_filterMap]
  constructor
  · rintro ⟨hmem, -, hrule⟩
    exact ⟨rule.name, hmem, hrule⟩
  · rintro ⟨name, hmem, hrule⟩
    cases name_of_compileClass? hrule
    refine ⟨hmem, ?_, hrule⟩
    intro hempty
    rw [hempty, compileClass?_empty] at hrule
    cases hrule

theorem process_congr (compiler : Compiler) {first second : List String}
    (hcompile : compiler.compile first = compiler.compile second) :
    compiler.process first = compiler.process second := by
  simp only [process, nodes, classRules, hcompile]

/-- Order, repetitions and unrelated classes do not matter: the rules of some classes are found
again, in the same order, among the rules of more classes. -/
theorem classes_determine_stylesheet (compiler : Compiler)
    (classes others : List String) :
    ((∀ name ∈ classes, name ≠ "" → name ∈ others) →
      (compiler.compile others).filter
          (fun rule => decide (rule.name ∈ classes)) =
        compiler.compile classes) ∧
    (∀ rule, rule ∈ compiler.compile classes ↔
      rule.name ∈ classes ∧ rule.name ≠ "" ∧
        compiler.compileClass? rule.name = some rule) ∧
    ((∀ name, name ≠ "" → (compiler.compileClass? name).isSome →
        (name ∈ classes ↔ name ∈ others)) →
      compiler.process classes = compiler.process others) := by
  refine ⟨compiler.compile_filter_name, fun _ => mem_compile, ?_⟩
  intro hsame
  exact compiler.process_congr (compiler.compile_congr hsame)

theorem classes_determine_stylesheet_standard :
    ∃ compiler, build {} = .ok compiler ∧
      (compiler.compileClass? "print:flex").isSome ∧
      (compiler.compile ["flex", "print:flex", "flex", "block"]).filter
          (fun rule => decide (rule.name ∈ ["print:flex", "", "flex"])) =
        compiler.compile ["print:flex", "", "flex"] ∧
      compiler.process ["print:flex", "flex"] =
        compiler.process ["flex", "unknown", "", "flex", "print:flex"] := by
  obtain ⟨compiler, hbuild, hcheck⟩ := exists_build {}
    (fun compiler => (compiler.compileClass? "print:flex").isSome &&
      (compiler.compileClass? "unknown").isNone) (by decide +kernel)
  simp only [Bool.and_eq_true, Option.isNone_iff_eq_none] at hcheck
  refine ⟨compiler, hbuild, hcheck.1, ?_, ?_⟩
  · exact (classes_determine_stylesheet compiler ["print:flex", "", "flex"]
      ["flex", "print:flex", "flex", "block"]).1 (by decide)
  · refine (classes_determine_stylesheet compiler ["print:flex", "flex"]
      ["flex", "unknown", "", "flex", "print:flex"]).2.2 ?_
    intro name hne hsome
    have hunknown : name ≠ "unknown" := by
      rintro rfl
      simp [hcheck.2] at hsome
    simp [hne, hunknown, or_comm]

end Compiler

end AtomicCss
