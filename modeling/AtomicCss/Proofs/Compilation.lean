import AtomicCss.Stylesheet.Output

/-!
What it takes for one class to compile.
-/

namespace AtomicCss

namespace Variant.Registry

theorem length_foldl_advance (registry : Registry) (outcome : Outcome)
    (tokens : List Token) :
    (tokens.foldl registry.advance outcome).weights.length +
        (tokens.foldl registry.advance outcome).unmatched.length =
      outcome.weights.length + outcome.unmatched.length + tokens.length := by
  induction tokens generalizing outcome with
  | nil => simp
  | cons token rest ih =>
      rw [List.foldl_cons, ih, advance]
      split <;> simp <;> omega

/-- Each token has a weight or is left over. -/
theorem length_run (registry : Registry) (placement : Placement)
    (tokens : List Token) :
    (registry.run placement tokens).weights.length +
        (registry.run placement tokens).unmatched.length =
      tokens.length := by
  rw [run, length_foldl_advance]
  simp

end Variant.Registry

namespace Compiler

theorem exists_build (settings : Settings) (check : Compiler → Bool)
    (h : (build settings).toOption.any check) :
    ∃ compiler, build settings = .ok compiler ∧ check compiler := by
  cases hbuild : build settings with
  | error error => simp [hbuild, Except.toOption] at h
  | ok compiler =>
      rw [hbuild] at h
      exact ⟨compiler, rfl, h⟩

theorem parts?_eq_some {compiler : Compiler} {base : String}
    {tokens : List Variant.Token} {start : Placement} {parts : Parts}
    (h : compiler.parts? base tokens start = some parts) :
    base ≠ "" ∧
      (∃ resolved, compiler.utilities.resolve? compiler.settings.theme base =
        some resolved ∧ parts.nodes = resolved.nodes ∧
          parts.index = resolved.index) ∧
      parts.outcome = compiler.variants.run start tokens ∧
      parts.outcome.unmatched = [] := by
  rw [parts?] at h
  split at h
  · cases h
  · rename_i hbase
    split at h
    · cases h
    · rename_i resolved hresolved
      dsimp only at h
      split at h
      · rename_i hcomplete
        cases h
        exact ⟨hbase, ⟨resolved, hresolved, rfl, rfl⟩, rfl,
          List.isEmpty_iff.mp hcomplete⟩
      · cases h

theorem length_weights_of_parts? {compiler : Compiler} {base : String}
    {tokens : List Variant.Token} {start : Placement} {parts : Parts}
    (h : compiler.parts? base tokens start = some parts) :
    parts.outcome.weights.length = tokens.length := by
  obtain ⟨-, -, hrun, hcomplete⟩ := parts?_eq_some h
  have hlength := compiler.variants.length_run start tokens
  rw [← hrun, hcomplete] at hlength
  exact hlength

/-- Without variants a rule stays where it starts. -/
theorem placement_of_parts?_nil {compiler : Compiler} {base : String}
    {start : Placement} {parts : Parts}
    (h : compiler.parts? base [] start = some parts) :
    parts.outcome.placement = start := by
  obtain ⟨-, -, hrun, -⟩ := parts?_eq_some h
  rw [hrun]
  rfl

theorem name_of_compileClass? {compiler : Compiler} {name : String}
    {rule : CompiledRule} (h : compiler.compileClass? name = some rule) :
    rule.name = name := by
  obtain ⟨parts, -, rfl⟩ := Option.map_eq_some_iff.mp h
  rfl

theorem compileClass?_empty (compiler : Compiler) :
    compiler.compileClass? "" = none := by
  rfl

theorem wrappers_eq_nil_of_hasVariants_eq_false {compiler : Compiler}
    {name : String} {rule : CompiledRule}
    (hrule : compiler.compileClass? name = some rule)
    (hvariants : rule.hasVariants = false) : rule.placement.wrappers = [] := by
  obtain ⟨parts, hparts, rfl⟩ := Option.map_eq_some_iff.mp hrule
  have hweights : parts.outcome.weights = [] := by
    simpa [CompiledRule.hasVariants] using hvariants
  have htokens := length_weights_of_parts? hparts
  rw [hweights] at htokens
  rw [List.eq_nil_of_length_eq_zero htokens.symm] at hparts
  simp only [placement_of_parts?_nil hparts]
  rfl

theorem rules_suffix_nodes (compiler : Compiler) (classes : List String) :
    compiler.components ++ compiler.classRules classes <:+ compiler.nodes classes := by
  rw [nodes]
  exact List.suffix_append ..

end Compiler

end AtomicCss
