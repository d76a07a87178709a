import AtomicCss.Proofs.ClassOrder
import Mathlib.Data.List.Nodup
import Mathlib.Logic.Function.Iterate

/-!
The tokens that a stylesheet declares are those that its rules can reach. The search for them
follows each token at most once, so it ends also where tokens refer to each other in a circle.
-/

namespace AtomicCss.Stylesheet

inductive Reachable (entries : List (String × String)) (roots : List String) : String → Prop
  | root {name : String} (mem : name ∈ roots) : Reachable entries roots name
  | step {name value next : String} (reachable : Reachable entries roots name)
      (entry : (name, value) ∈ entries) (mem : next ∈ references value) :
      Reachable entries roots next

theorem mem_referencesOf_iff {entries : List (String × String)}
    (hdistinct : (entries.map Prod.fst).Nodup) {name next : String} :
    next ∈ referencesOf entries name ↔
      ∃ value, (name, value) ∈ entries ∧ next ∈ references value := by
  cases hentry : entries.find? (·.1 == name) with
  | some entry =>
      have hname : entry.1 = name := by simpa using List.find?_some hentry
      have hmem : (name, entry.2) ∈ entries := by
        rw [← hname]
        exact List.mem_of_find?_eq_some hentry
      simp only [referencesOf, hentry]
      constructor
      · intro hnext
        exact ⟨entry.2, hmem, hnext⟩
      · rintro ⟨value, hvalue, hnext⟩
        cases List.inj_on_of_nodup_map hdistinct hvalue hmem rfl
        exact hnext
  | none =>
      simp only [referencesOf, hentry, List.not_mem_nil, false_iff, not_exists]
      rintro value ⟨hvalue, -⟩
      have hnone := List.find?_eq_none.mp hentry (name, value) hvalue
      simp at hnone

/-! The search as a loop: a name that is pending is dropped if it was reached before, and otherwise
is reached, and its references become pending. -/

structure Search where
  entries : List (String × String)
  pending : List String
  reached : List String

namespace Search

def step (search : Search) : Search :=
  match search.pending with
  | [] => search
  | name :: pending =>
      if name ∈ search.reached then { search with pending }
      else
        { search with
          pending := (referencesOf search.entries name).reverse ++ pending
          reached := name :: search.reached }

section Step

variable {entries : List (String × String)} {name : String} {pending reached : List String}

theorem step_of_mem (h : name ∈ reached) :
    step ⟨entries, name :: pending, reached⟩ = ⟨entries, pending, reached⟩ := by
  simp [step, h]

theorem step_of_not_mem (h : name ∉ reached) :
    step ⟨entries, name :: pending, reached⟩ =
      ⟨entries, (referencesOf entries name).reverse ++ pending, name :: reached⟩ := by
  simp [step, h]

end Step

/-- The loop ends, with what `reach` finds. -/
theorem exists_iterate_step (entries : List (String × String)) (pending reached : List String) :
    ∃ steps, step^[steps] ⟨entries, pending, reached⟩ =
      ⟨entries, [], reach entries reached pending⟩ := by
  fun_induction reach entries reached pending with
  | case1 reached => exact ⟨0, rfl⟩
  | case2 reached name pending hreached ih =>
      obtain ⟨steps, hsteps⟩ := ih
      exact ⟨steps + 1, by rw [Function.iterate_succ_apply, step_of_mem hreached, hsteps]⟩
  | case3 reached name pending hreached ih =>
      obtain ⟨steps, hsteps⟩ := ih
      exact ⟨steps + 1, by rw [Function.iterate_succ_apply, step_of_not_mem hreached, hsteps]⟩

def Covers (search : Search) (name : String) : Prop :=
  name ∈ search.reached ∨ name ∈ search.pending

/-- The search goes along references only, and forgets none. -/
structure Follows (roots : List String) (search : Search) : Prop where
  sound : ∀ name, search.Covers name → Reachable search.entries roots name
  roots_covered : ∀ name ∈ roots, search.Covers name
  references_covered : ∀ name ∈ search.reached,
    ∀ next ∈ referencesOf search.entries name, search.Covers next

section Follows

variable {search : Search} {roots : List String}

theorem entries_step (search : Search) : search.step.entries = search.entries := by
  rw [step.eq_def]
  split
  · rfl
  · split <;> rfl

theorem Covers.step {name : String} (h : search.Covers name) : search.step.Covers name := by
  obtain ⟨entries, pending, reached⟩ := search
  cases pending with
  | nil => exact h
  | cons first pending =>
      by_cases hfirst : first ∈ reached
      · rw [step_of_mem hfirst]
        rcases h with hname | hname
        · exact .inl hname
        · rcases List.mem_cons.mp hname with rfl | hname
          · exact .inl hfirst
          · exact .inr hname
      · rw [step_of_not_mem hfirst]
        rcases h with hname | hname
        · exact .inl (List.mem_cons_of_mem _ hname)
        · rcases List.mem_cons.mp hname with rfl | hname
          · exact .inl List.mem_cons_self
          · exact .inr (List.mem_append_right _ hname)

theorem covers_of_step {next : String} (h : search.step.Covers next) :
    search.Covers next ∨
      ∃ name, search.Covers name ∧ next ∈ referencesOf search.entries name := by
  obtain ⟨entries, pending, reached⟩ := search
  cases pending with
  | nil => exact .inl h
  | cons first pending =>
      have hcovered : Covers ⟨entries, first :: pending, reached⟩ first :=
        .inr List.mem_cons_self
      by_cases hfirst : first ∈ reached
      · rw [step_of_mem hfirst] at h
        exact .inl (h.imp_right (List.mem_cons_of_mem _))
      · rw [step_of_not_mem hfirst] at h
        rcases h with hnext | hnext
        · rcases List.mem_cons.mp hnext with rfl | hnext
          · exact .inl hcovered
          · exact .inl (.inl hnext)
        · rcases List.mem_append.mp hnext with hnext | hnext
          · exact .inr ⟨first, hcovered, List.mem_reverse.mp hnext⟩
          · exact .inl (.inr (List.mem_cons_of_mem _ hnext))

/-- The references of a name that is reached in a step become pending. -/
theorem references_covered_of_step {name next : String} (hbefore : name ∉ search.reached)
    (hname : name ∈ search.step.reached) (hnext : next ∈ referencesOf search.entries name) :
    search.step.Covers next := by
  obtain ⟨entries, pending, reached⟩ := search
  cases pending with
  | nil => exact (hbefore hname).elim
  | cons first pending =>
      by_cases hfirst : first ∈ reached
      · rw [step_of_mem hfirst] at hname
        exact (hbefore hname).elim
      · rw [step_of_not_mem hfirst] at hname ⊢
        rcases List.mem_cons.mp hname with rfl | hname
        · exact .inr (List.mem_append_left _ (List.mem_reverse.mpr hnext))
        · exact (hbefore hname).elim

theorem Follows.step (h : search.Follows roots)
    (hdistinct : (search.entries.map Prod.fst).Nodup) : search.step.Follows roots := by
  refine ⟨?_, fun name hname => (h.roots_covered name hname).step, ?_⟩
  · intro next hnext
    rw [entries_step]
    rcases covers_of_step hnext with hcovered | ⟨name, hname, hreference⟩
    · exact h.sound next hcovered
    · obtain ⟨value, hvalue, hmem⟩ := (mem_referencesOf_iff hdistinct).mp hreference
      exact .step (h.sound name hname) hvalue hmem
  · intro name hname next hnext
    rw [entries_step] at hnext
    by_cases hbefore : name ∈ search.reached
    · exact (h.references_covered name hbefore next hnext).step
    · exact references_covered_of_step hbefore hname hnext

theorem Follows.iterate_step (h : search.Follows roots)
    (hdistinct : (search.entries.map Prod.fst).Nodup) (steps : Nat) :
    (Search.step^[steps] search).Follows roots := by
  induction steps generalizing search with
  | zero => exact h
  | succ steps ih =>
      rw [Function.iterate_succ_apply]
      exact ih (h.step hdistinct) (by rwa [entries_step])

end Follows

end Search

theorem mem_reach_iff {entries : List (String × String)}
    (hdistinct : (entries.map Prod.fst).Nodup) (roots : List String) (name : String) :
    name ∈ reach entries [] roots.reverse ↔ Reachable entries roots name := by
  have hstart : Search.Follows roots ⟨entries, roots.reverse, []⟩ := by
    refine ⟨?_, fun name hname => .inr (List.mem_reverse.mpr hname), by simp⟩
    rintro name (hname | hname)
    · cases hname
    · exact .root (List.mem_reverse.mp hname)
  obtain ⟨steps, hsteps⟩ := Search.exists_iterate_step entries roots.reverse []
  have hend := hstart.iterate_step hdistinct steps
  rw [hsteps] at hend
  have hreached {name : String}
      (h : Search.Covers ⟨entries, [], reach entries [] roots.reverse⟩ name) :
      name ∈ reach entries [] roots.reverse :=
    h.resolve_right List.not_mem_nil
  constructor
  · intro hname
    exact hend.sound name (.inl hname)
  · intro h
    induction h with
    | root mem => exact hreached (hend.roots_covered _ mem)
    | step _ entry mem ih =>
        exact hreached (hend.references_covered _ ih _
          ((mem_referencesOf_iff hdistinct).mpr ⟨_, entry, mem⟩))

/-- The names that a sheet of these nodes needs: those that its declarations mention, and with a
name of a token those that the value of the token mentions. -/
inductive Needed (theme : Theme) (nodes : List Sheet.Node) : String → Prop
  | mentioned {declaration : Sheet.Declaration} {name : String}
      (declared : declaration ∈ nodes.flatMap Sheet.Node.declarations)
      (mem : name ∈ references declaration.value) : Needed theme nodes name
  | through {key value name : String} (entry : (key, value) ∈ theme.entries)
      (needed : Needed theme nodes (theme.varName key))
      (mem : name ∈ references (theme.prefixReferences value)) : Needed theme nodes name

def mentionedNames (nodes : List Sheet.Node) : List String :=
  (nodes.flatMap Sheet.Node.declarations).flatMap fun declaration =>
    references declaration.value

def Search.start (theme : Theme) (nodes : List Sheet.Node) : Search :=
  ⟨writtenEntries theme, (mentionedNames nodes).reverse, []⟩

section Needed

variable {theme : Theme} {nodes : List Sheet.Node}

theorem reachable_iff_needed {name : String} :
    Reachable (writtenEntries theme) (mentionedNames nodes) name ↔
      Needed theme nodes name := by
  constructor
  · intro h
    induction h with
    | root mem =>
        obtain ⟨declaration, hdeclaration, hname⟩ := List.mem_flatMap.mp mem
        exact .mentioned hdeclaration hname
    | step _ entry mem ih =>
        obtain ⟨⟨key, value⟩, hentry, heq⟩ := List.mem_map.mp entry
        cases heq
        exact .through hentry ih mem
  · intro h
    induction h with
    | mentioned declared mem => exact .root (List.mem_flatMap.mpr ⟨_, declared, mem⟩)
    | through entry _ mem ih => exact .step ih (List.mem_map.mpr ⟨_, entry, rfl⟩) mem

theorem nodup_varNames (theme : Theme) :
    (theme.entries.map fun entry => theme.varName entry.1).Nodup := by
  have hkeys : (theme.values.keys.map theme.varName).Nodup := by
    refine List.Nodup.map_on ?_ theme.values.distinct
    intro first hfirst second hsecond heq
    rw [← theme.keyOf_eq first hfirst, ← theme.keyOf_eq second hsecond]
    exact Theme.keyOf_eq_of_varName_eq heq
  rw [Dictionary.keys, List.map_map] at hkeys
  exact hkeys

theorem nodup_names_writtenEntries (theme : Theme) :
    ((writtenEntries theme).map Prod.fst).Nodup := by
  rw [writtenEntries, List.map_map]
  exact nodup_varNames theme

theorem mem_reach_writtenEntries_iff {name : String} :
    name ∈ reach (writtenEntries theme) [] (mentionedNames nodes).reverse ↔
      Needed theme nodes name := by
  rw [mem_reach_iff (nodup_names_writtenEntries theme), reachable_iff_needed]

end Needed

def tokenRule? (theme : Theme) (tokens : List (String × String)) : Option Sheet.Node :=
  if tokens.isEmpty then none
  else
    some (.rule ":root, :host" (tokens.map fun entry =>
      Sheet.Node.declare (theme.varName entry.1) (theme.prefixReferences entry.2)))

/-- The tokens of a theme that a sheet of these nodes needs, in the order of the theme. -/
structure NeededTokens (theme : Theme) (nodes : List Sheet.Node)
    (tokens : List (String × String)) : Prop where
  sublist : tokens.Sublist theme.entries
  mem_iff : ∀ entry ∈ theme.entries,
    entry ∈ tokens ↔ Needed theme nodes (theme.varName entry.1)
  nodup_names : (tokens.map fun entry => theme.varName entry.1).Nodup

section NeededTokens

variable {theme : Theme} {nodes : List Sheet.Node} {tokens : List (String × String)}

theorem tokenRule?_eq_none_iff (h : NeededTokens theme nodes tokens) :
    tokenRule? theme tokens = none ↔
      ∀ entry ∈ theme.entries, ¬ Needed theme nodes (theme.varName entry.1) := by
  have hempty : tokenRule? theme tokens = none ↔ tokens = [] := by
    simp [tokenRule?]
  rw [hempty, List.eq_nil_iff_forall_not_mem]
  constructor
  · intro hnone entry hentry hneeded
    exact hnone entry ((h.mem_iff entry hentry).mpr hneeded)
  · intro hnone entry hmem
    have hentry := h.sublist.subset hmem
    exact hnone entry hentry ((h.mem_iff entry hentry).mp hmem)

def reachedTokens (theme : Theme) (nodes : List Sheet.Node) : List (String × String) :=
  theme.entries.filter fun entry =>
    (reach (writtenEntries theme) [] (mentionedNames nodes).reverse).contains
      (theme.varName entry.1)

theorem mem_reachedTokens {entry : String × String} (hentry : entry ∈ theme.entries) :
    entry ∈ reachedTokens theme nodes ↔
      theme.varName entry.1 ∈
        reach (writtenEntries theme) [] (mentionedNames nodes).reverse := by
  simp [reachedTokens, hentry]

theorem neededTokens_reachedTokens (theme : Theme) (nodes : List Sheet.Node) :
    NeededTokens theme nodes (reachedTokens theme nodes) where
  sublist := List.filter_sublist
  mem_iff _ hentry := (mem_reachedTokens hentry).trans mem_reach_writtenEntries_iff
  nodup_names := (nodup_varNames theme).sublist (List.filter_sublist.map _)

theorem themeRule?_used (theme : Theme) (nodes : List Sheet.Node) :
    themeRule? .used theme nodes = tokenRule? theme (reachedTokens theme nodes) := by
  have hentries : emittedEntries .used theme nodes =
      (reachedTokens theme nodes).map fun entry =>
        (theme.varName entry.1, theme.prefixReferences entry.2) := by
    simp only [emittedEntries, reachedTokens, writtenEntries, List.filter_map]
    rfl
  rw [themeRule?.eq_def, hentries, tokenRule?]
  cases reachedTokens theme nodes with
  | nil => rfl
  | cons entry rest => simp

end NeededTokens

end AtomicCss.Stylesheet

namespace AtomicCss.Compiler

open Stylesheet

/-- The `:root` rule declares the tokens that the rules of the stylesheet need and no others, in the
order of the theme, and is left out if there are none. The search that finds them ends. -/
theorem root_rule_declares_needed_tokens (compiler : Compiler) (classes : List String)
    (hused : compiler.settings.themeEmission = .used) :
    let theme := compiler.settings.theme
    let rules := compiler.components ++ compiler.classRules classes
    ∃ tokens, NeededTokens theme rules tokens ∧
      compiler.nodes classes = (tokenRule? theme tokens).toList ++ rules ∧
      (tokenRule? theme tokens = none ↔
        ∀ entry ∈ theme.entries, ¬ Needed theme rules (theme.varName entry.1)) ∧
      ∃ steps, (Search.step^[steps] (Search.start theme rules)).pending = [] ∧
        ∀ entry ∈ theme.entries,
          theme.varName entry.1 ∈ (Search.step^[steps] (Search.start theme rules)).reached ↔
            entry ∈ tokens := by
  intro theme rules
  have htokens := neededTokens_reachedTokens theme rules
  refine ⟨reachedTokens theme rules, htokens, ?_, tokenRule?_eq_none_iff htokens, ?_⟩
  · rw [nodes, hused, themeRule?_used]
  · obtain ⟨steps, hsteps⟩ :=
      Search.exists_iterate_step (writtenEntries theme) (mentionedNames rules).reverse []
    rw [Search.start]
    refine ⟨steps, by rw [hsteps], ?_⟩
    intro entry hentry
    rw [hsteps, mem_reachedTokens hentry]

/-- Two tokens that refer to each other, and one beside them. -/
def circularTheme : Theme :=
  Theme.empty.addMany
    [("--color-a", "var(--color-b)"), ("--color-b", "var(--color-a)"), ("--color-c", "red")]

theorem root_rule_declares_needed_tokens_circular :
    ∃ compiler, build { theme := circularTheme } = .ok compiler ∧
      compiler.settings.themeEmission = .used ∧
      ∃ tokens,
        NeededTokens compiler.settings.theme
          (compiler.components ++ compiler.classRules ["bg-a"]) tokens ∧
        ("--color-a", "var(--color-b)") ∈ tokens ∧
        ("--color-b", "var(--color-a)") ∈ tokens := by
  obtain ⟨compiler, hbuild, hcheck⟩ := exists_build { theme := circularTheme }
    (fun compiler =>
      let rules := ["bg-a"].filterMap compiler.compileClass?
      decide (rules.Pairwise CompiledRule.Precedes) &&
        decide (compiler.settings.themeEmission = .used) &&
        decide (("--color-a", "var(--color-b)") ∈ compiler.settings.theme.entries) &&
        decide (("--color-b", "var(--color-a)") ∈ compiler.settings.theme.entries) &&
        decide (compiler.settings.theme.varName "--color-a" ∈ mentionedNames
          (compiler.components ++ Sheet.insertAll (rules.map CompiledRule.placed))) &&
        decide (compiler.settings.theme.varName "--color-b" ∈
          references (compiler.settings.theme.prefixReferences "var(--color-b)")))
    (by decide +kernel)
  simp only [Bool.and_eq_true, decide_eq_true_eq] at hcheck
  obtain ⟨⟨⟨⟨⟨hrules, hused⟩, hfirst⟩, hsecond⟩, hmentioned⟩, hreference⟩ := hcheck
  rw [← compile_eq_filterMap hrules, ← classRules_eq_insertAll] at hmentioned
  obtain ⟨declaration, hdeclaration, hname⟩ := List.mem_flatMap.mp hmentioned
  have hneeded : Needed compiler.settings.theme
      (compiler.components ++ compiler.classRules ["bg-a"])
      (compiler.settings.theme.varName "--color-a") :=
    .mentioned hdeclaration hname
  obtain ⟨tokens, htokens, -⟩ :=
    root_rule_declares_needed_tokens compiler ["bg-a"] hused
  refine ⟨compiler, hbuild, hused, tokens, htokens, ?_, ?_⟩
  · exact (htokens.mem_iff _ hfirst).mpr hneeded
  · exact (htokens.mem_iff _ hsecond).mpr (.through hfirst hneeded hreference)

end AtomicCss.Compiler
