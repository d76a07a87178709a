import AtomicCss.Utility.Basic
import Mathlib.Data.Prod.Lex

/-!
Which utility compiles a base. Whatever was registered before, the attempts are exactly the pairs of
a utility and a reading that it answers for, and the first of them that gives nodes is the least.
-/

namespace AtomicCss.Utility

namespace Attempt

theorem mem_insert {attempt other : Attempt} {attempts : List Attempt} :
    other ∈ insert attempt attempts ↔ other = attempt ∨ other ∈ attempts := by
  induction attempts with
  | nil => simp [insert]
  | cons first rest ih =>
      rw [insert]
      split
      · exact List.mem_cons
      · rw [List.mem_cons, ih, List.mem_cons, or_left_comm]

theorem mem_sort {attempt : Attempt} {attempts : List Attempt} :
    attempt ∈ sort attempts ↔ attempt ∈ attempts := by
  induction attempts with
  | nil => rfl
  | cons first rest ih =>
      change attempt ∈ insert first (sort rest) ↔ _
      rw [mem_insert, ih, List.mem_cons]

def key (attempt : Attempt) : ℕ ×ₗ ℕ ×ₗ ℕ :=
  toLex (attempt.utility.priority.rank, toLex (attempt.index, attempt.position))

theorem isLE_order_iff {left right : Attempt} :
    (left.order right).isLE = true ↔ left.key ≤ right.key := by
  simp only [key, Prod.Lex.toLex_le_toLex, order, Ordering.isLE_then_iff_or, Nat.compare_eq_lt,
    Nat.compare_eq_eq, Nat.isLE_compare]

def Ordered (left right : Attempt) : Prop :=
  left.key ≤ right.key

theorem pairwise_insert {attempt : Attempt} {attempts : List Attempt}
    (h : attempts.Pairwise Ordered) : (insert attempt attempts).Pairwise Ordered := by
  induction attempts with
  | nil => exact List.pairwise_singleton ..
  | cons first rest ih =>
      obtain ⟨hfirst, hrest⟩ := List.pairwise_cons.mp h
      rw [insert]
      split
      · rename_i hle
        have hkey := isLE_order_iff.mp hle
        refine List.pairwise_cons.mpr ⟨?_, h⟩
        intro other hother
        rcases List.mem_cons.mp hother with rfl | hother
        · exact hkey
        · exact hkey.trans (hfirst other hother)
      · rename_i hle
        have hkey := le_of_not_ge fun hle' => hle (isLE_order_iff.mpr hle')
        refine List.pairwise_cons.mpr ⟨?_, ih hrest⟩
        intro other hother
        rcases mem_insert.mp hother with rfl | hother
        · exact hkey
        · exact hfirst other hother

theorem pairwise_sort (attempts : List Attempt) : (sort attempts).Pairwise Ordered := by
  induction attempts with
  | nil => exact .nil
  | cons first rest ih => exact pairwise_insert ih

def result (attempt : Attempt) (nodes : List Sheet.Node) : Resolved where
  nodes := if attempt.candidate.important then nodes.map Sheet.Node.markImportant else nodes
  candidate := attempt.candidate
  priority := attempt.utility.priority
  index := attempt.index

theorem run?_eq_some_iff {attempt : Attempt} {theme : Theme} {resolved : Resolved} :
    attempt.run? theme = some resolved ↔
      ∃ nodes, attempt.utility.compile attempt.candidate theme = some nodes ∧ nodes ≠ [] ∧
        resolved = attempt.result nodes := by
  rw [run?]
  cases hcompile : attempt.utility.compile attempt.candidate theme with
  | none => simp
  | some nodes =>
      cases nodes with
      | nil => simp
      | cons node rest =>
          simp only [List.isEmpty_cons, Bool.false_eq_true, if_false, Option.some.injEq]
          constructor
          · intro hresolved
            exact ⟨_, rfl, List.cons_ne_nil _ _, hresolved.symm⟩
          · rintro ⟨nodes, rfl, -, hresolved⟩
            exact hresolved.symm

end Attempt

namespace Registry

theorem mem_attempts {registry : Registry} {candidates : List Candidate} {attempt : Attempt} :
    attempt ∈ registry.attempts candidates ↔
      registry.utilities[attempt.index]? = some attempt.utility ∧
        candidates[attempt.position]? = some attempt.candidate ∧
          attempt.utility.answersFor attempt.candidate.reading = true := by
  simp only [attempts, Attempt.mem_sort, List.mem_flatMap, attemptsFor, List.mem_filterMap,
    Option.map_eq_some_iff]
  constructor
  · rintro ⟨entry, hentry, index, hindex, utility, hutility, rfl⟩
    obtain ⟨found, hfound, hanswers⟩ := (registry.leadsTo _ _).mp hindex
    cases hutility.symm.trans hfound
    exact ⟨hutility, List.mem_zipIdx_iff_getElem?.mp hentry, hanswers⟩
  · rintro ⟨hutility, hcandidate, hanswers⟩
    refine ⟨(attempt.candidate, attempt.position), List.mem_zipIdx_iff_getElem?.mpr hcandidate,
      attempt.index, ?_, attempt.utility, hutility, rfl⟩
    exact (registry.leadsTo _ _).mpr ⟨attempt.utility, hutility, hanswers⟩

/-- Two attempts with one key are the same attempt: the key holds both places. -/
theorem eq_of_key_eq {registry : Registry} {candidates : List Candidate}
    {first second : Attempt} (hfirst : first ∈ registry.attempts candidates)
    (hsecond : second ∈ registry.attempts candidates) (hkey : first.key = second.key) :
    first = second := by
  obtain ⟨utility, index, candidate, position⟩ := first
  obtain ⟨utility', index', candidate', position'⟩ := second
  obtain ⟨hutility, hcandidate, -⟩ := mem_attempts.mp hfirst
  obtain ⟨hutility', hcandidate', -⟩ := mem_attempts.mp hsecond
  simp only [Attempt.key, EmbeddingLike.apply_eq_iff_eq, Prod.mk.injEq] at hkey
  obtain ⟨-, rfl, rfl⟩ := hkey
  cases hutility.symm.trans hutility'
  cases hcandidate.symm.trans hcandidate'
  rfl

/-- A utility of the registry and a reading of the base that it has declared and makes nodes of. -/
structure Pairing (registry : Registry) (theme : Theme) (base : String) (attempt : Attempt)
    (nodes : List Sheet.Node) : Prop where
  utility : registry.utilities[attempt.index]? = some attempt.utility
  candidate : (registry.candidates base)[attempt.position]? = some attempt.candidate
  declared : attempt.utility.answersFor attempt.candidate.reading = true
  compiled : attempt.utility.compile attempt.candidate theme = some nodes
  nonempty : nodes ≠ []

variable {registry : Registry} {theme : Theme} {base : String}

theorem pairing_iff {attempt : Attempt} {nodes : List Sheet.Node} :
    registry.Pairing theme base attempt nodes ↔
      attempt ∈ registry.attempts (registry.candidates base) ∧
        attempt.utility.compile attempt.candidate theme = some nodes ∧ nodes ≠ [] := by
  rw [mem_attempts]
  constructor
  · intro h
    exact ⟨⟨h.utility, h.candidate, h.declared⟩, h.compiled, h.nonempty⟩
  · rintro ⟨⟨hutility, hcandidate, hdeclared⟩, hcompiled, hnonempty⟩
    exact ⟨hutility, hcandidate, hdeclared, hcompiled, hnonempty⟩

theorem Pairing.run?_eq {attempt : Attempt} {nodes : List Sheet.Node}
    (h : registry.Pairing theme base attempt nodes) :
    attempt.run? theme = some (attempt.result nodes) :=
  Attempt.run?_eq_some_iff.mpr ⟨nodes, h.compiled, h.nonempty, rfl⟩

theorem resolve?_eq_none_iff :
    registry.resolve? theme base = none ↔
      ∀ attempt nodes, ¬registry.Pairing theme base attempt nodes := by
  rw [resolve?, List.findSome?_eq_none_iff]
  constructor
  · intro hnone attempt nodes hpairing
    have hrun := hnone attempt (pairing_iff.mp hpairing).1
    rw [hpairing.run?_eq] at hrun
    cases hrun
  · intro hnone attempt hattempt
    cases hrun : attempt.run? theme with
    | none => rfl
    | some resolved =>
        obtain ⟨nodes, hcompiled, hnonempty, -⟩ := Attempt.run?_eq_some_iff.mp hrun
        exact (hnone attempt nodes (pairing_iff.mpr ⟨hattempt, hcompiled, hnonempty⟩)).elim

/-- What succeeds cannot stand before the first attempt that does, and what stands behind it is not
less. -/
theorem exists_least_of_resolve? {resolved : Resolved}
    (h : registry.resolve? theme base = some resolved) :
    ∃ attempt nodes, registry.Pairing theme base attempt nodes ∧
      (∀ other nodes', registry.Pairing theme base other nodes' → attempt.key ≤ other.key) ∧
        resolved = attempt.result nodes := by
  have hsorted : (registry.attempts (registry.candidates base)).Pairwise Attempt.Ordered :=
    Attempt.pairwise_sort _
  obtain ⟨before, attempt, after, hsplit, hrun, hbefore⟩ := List.findSome?_eq_some_iff.mp h
  obtain ⟨nodes, hcompiled, hnonempty, rfl⟩ := Attempt.run?_eq_some_iff.mp hrun
  have hmem : attempt ∈ registry.attempts (registry.candidates base) := by simp [hsplit]
  refine ⟨attempt, nodes, pairing_iff.mpr ⟨hmem, hcompiled, hnonempty⟩, ?_, rfl⟩
  intro other nodes' hother
  have hother' := (pairing_iff.mp hother).1
  rw [hsplit] at hother' hsorted
  rcases List.mem_append.mp hother' with hfront | hback
  · have hrun' := hbefore other hfront
    rw [hother.run?_eq] at hrun'
    cases hrun'
  · rcases List.mem_cons.mp hback with rfl | hback
    · exact le_refl _
    · exact (List.pairwise_cons.mp (List.pairwise_append.mp hsorted).2.1).1 other hback

theorem resolve?_eq_some_iff {resolved : Resolved} :
    registry.resolve? theme base = some resolved ↔
      ∃ attempt nodes, registry.Pairing theme base attempt nodes ∧
        (∀ other nodes', registry.Pairing theme base other nodes' → attempt.key ≤ other.key) ∧
          resolved = attempt.result nodes := by
  constructor
  · exact exists_least_of_resolve?
  · rintro ⟨attempt, nodes, hpairing, hleast, rfl⟩
    cases hresolve : registry.resolve? theme base with
    | none => exact (resolve?_eq_none_iff.mp hresolve attempt nodes hpairing).elim
    | some resolved =>
        obtain ⟨first, nodes', hfirst, hleast', rfl⟩ := exists_least_of_resolve? hresolve
        have hkey := le_antisymm (hleast first nodes' hfirst) (hleast' attempt nodes hpairing)
        cases eq_of_key_eq (pairing_iff.mp hpairing).1 (pairing_iff.mp hfirst).1 hkey
        cases hpairing.compiled.symm.trans hfirst.compiled
        rfl

theorem exists_place_iff {reading : Candidate.Reading} :
    (∃ place, place ∈ registry.index.places reading) ↔
      ∃ utility ∈ registry.utilities, utility.answersFor reading = true := by
  simp only [registry.leadsTo reading, List.mem_iff_getElem?]
  constructor
  · rintro ⟨place, utility, hplace, hanswers⟩
    exact ⟨utility, ⟨place, hplace⟩, hanswers⟩
  · rintro ⟨utility, ⟨place, hplace⟩, hanswers⟩
    exact ⟨place, utility, hplace, hanswers⟩

theorem isStatic_roots_iff {root : String} :
    registry.roots.isStatic root = true ↔
      ∃ utility ∈ registry.utilities, root ∈ utility.staticRoots := by
  have hplaces : registry.roots.isStatic root = true ↔
      ∃ place, place ∈ registry.index.places (.static root) := by
    simp [roots, Index.hasStatic, Index.places, Index.placesOf]
  simp only [hplaces, exists_place_iff, answersFor, List.contains_iff_mem]

theorem isFunctional_roots_iff {root : String} :
    registry.roots.isFunctional root = true ↔
      ∃ utility ∈ registry.utilities, root ∈ utility.functionalRoots := by
  have hplaces : registry.roots.isFunctional root = true ↔
      ∃ place, place ∈ registry.index.places (.functional root none) := by
    simp [roots, Index.hasFunctional, Index.places, Index.placesOf]
  simp only [hplaces, exists_place_iff, answersFor, List.contains_iff_mem]

theorem utilities_of_register {registry result : Registry} {utility : Utility}
    (h : registry.register utility = .ok result) :
    result.utilities = registry.utilities ++ [utility] := by
  rw [register] at h
  split at h
  · cases h
  · split at h
    · cases h
    · cases h
      rfl

theorem register_fails_iff {utility : Utility} :
    (∃ error, registry.register utility = .error error) ↔
      utility.name ∈ registry.names ∨ utility.declaresNothing = true := by
  rw [register]
  split
  · rename_i hname
    exact iff_of_true ⟨_, rfl⟩ (.inl (List.contains_iff_mem.mp hname))
  · rename_i hname
    split
    · rename_i hnothing
      exact iff_of_true ⟨_, rfl⟩ (.inr hnothing)
    · rename_i hnothing
      refine iff_of_false (fun ⟨_, hok⟩ => nomatch hok) ?_
      rintro (hname' | hnothing')
      · exact hname (List.contains_iff_mem.mpr hname')
      · exact hnothing hnothing'

def afterCall (registry : Registry) (utility : Utility) : Registry :=
  match registry.register utility with
  | .ok next => next
  | .error _ => registry

def afterCalls (calls : List Utility) : Registry :=
  calls.foldl afterCall empty

theorem afterCall_of_fails {utility : Utility}
    (h : ∃ error, registry.register utility = .error error) :
    registry.afterCall utility = registry := by
  obtain ⟨error, herror⟩ := h
  rw [afterCall, herror]

theorem utilities_afterCall_of_not_fails {utility : Utility}
    (h : ¬∃ error, registry.register utility = .error error) :
    (registry.afterCall utility).utilities = registry.utilities ++ [utility] := by
  rw [afterCall]
  cases hregister : registry.register utility with
  | error error => exact (h ⟨error, hregister⟩).elim
  | ok next => exact utilities_of_register hregister

def sameName (later earlier : Utility) : Bool :=
  later.name == earlier.name

/-- Of the calls that declare something, the first of each name counts. -/
theorem utilities_foldl_afterCall (registry : Registry) (calls : List Utility) :
    (calls.foldl afterCall registry).utilities =
      registry.utilities ++ (calls.filter fun utility =>
        !utility.declaresNothing && !registry.names.contains utility.name).eraseDupsBy
          sameName := by
  induction calls generalizing registry with
  | nil => simp
  | cons utility rest ih =>
      rw [List.foldl_cons]
      by_cases hfails : ∃ error, registry.register utility = .error error
      · rw [afterCall_of_fails hfails, ih, List.filter_cons_of_neg]
        rcases register_fails_iff.mp hfails with hname | hnothing
        · simp [hname]
        · simp [hnothing]
      · obtain ⟨hname, hnothing⟩ := not_or.mp (mt register_fails_iff.mpr hfails)
        have hnext := utilities_afterCall_of_not_fails hfails
        rw [ih, hnext, List.filter_cons_of_pos (by simp [hname, hnothing]), List.eraseDupsBy_cons,
          List.filter_filter, List.append_assoc, List.singleton_append]
        congr 3
        apply List.filter_congr
        intro other _
        have hnames : (registry.afterCall utility).names = registry.names ++ [utility.name] := by
          simp [names, hnext]
        rw [Bool.eq_iff_iff]
        simp [hnames, sameName, and_comm, and_left_comm]

theorem utilities_afterCalls (calls : List Utility) :
    (afterCalls calls).utilities =
      (calls.filter fun utility => !utility.declaresNothing).eraseDupsBy sameName := by
  rw [afterCalls, utilities_foldl_afterCall]
  simp [empty, names]

theorem afterCalls_of_fails {calls : List Utility} {utility : Utility}
    (h : ∃ error, (afterCalls calls).register utility = .error error) (later : List Utility) :
    afterCalls (calls ++ utility :: later) = afterCalls (calls ++ later) := by
  have hcall := afterCall_of_fails h
  rw [afterCalls] at hcall
  rw [afterCalls, afterCalls, List.foldl_append, List.foldl_append, List.foldl_cons, hcall]

theorem declaresNothing_iff {utility : Utility} :
    utility.declaresNothing = true ↔
      utility.staticRoots = [] ∧ utility.functionalRoots = [] ∧
        utility.takesProperties = false := by
  simp [declaresNothing, and_assoc]

/-- After any calls, a base is compiled by the least pair of a utility and a reading that the
utility has declared and makes nodes of, by tier, place of the utility and place of the reading. A
call fails for a name that is taken or a utility that declares nothing, and then it might as well
not have been made. -/
theorem resolve_picks_least_pairing (calls : List Utility) :
    (afterCalls calls).utilities =
        (calls.filter fun utility => !utility.declaresNothing).eraseDupsBy sameName ∧
      (∀ theme base resolved, (afterCalls calls).resolve? theme base = some resolved ↔
        ∃ attempt nodes, (afterCalls calls).Pairing theme base attempt nodes ∧
          (∀ other nodes', (afterCalls calls).Pairing theme base other nodes' →
            attempt.key ≤ other.key) ∧
          resolved = attempt.result nodes) ∧
      (∀ theme base, (afterCalls calls).resolve? theme base = none ↔
        ∀ attempt nodes, ¬(afterCalls calls).Pairing theme base attempt nodes) ∧
      (∀ root, (afterCalls calls).roots.isStatic root = true ↔
        ∃ utility ∈ (afterCalls calls).utilities, root ∈ utility.staticRoots) ∧
      (∀ root, (afterCalls calls).roots.isFunctional root = true ↔
        ∃ utility ∈ (afterCalls calls).utilities, root ∈ utility.functionalRoots) ∧
      ∀ utility,
        ((∃ error, (afterCalls calls).register utility = .error error) ↔
          utility.name ∈ (afterCalls calls).names ∨
            utility.staticRoots = [] ∧ utility.functionalRoots = [] ∧
              utility.takesProperties = false) ∧
        ((∃ error, (afterCalls calls).register utility = .error error) →
          ∀ later, afterCalls (calls ++ utility :: later) = afterCalls (calls ++ later)) := by
  refine ⟨utilities_afterCalls calls, ?_, ?_, ?_, ?_, ?_⟩
  · intro theme base resolved
    exact resolve?_eq_some_iff
  · intro theme base
    exact resolve?_eq_none_iff
  · intro root
    exact isStatic_roots_iff
  · intro root
    exact isFunctional_roots_iff
  · intro utility
    refine ⟨?_, afterCalls_of_fails⟩
    rw [register_fails_iff, declaresNothing_iff]

/-- A utility that takes `btn-primary`, if it declares the root. -/
def button (name : String) (priority : Priority) (roots : List String) : Utility where
  name
  priority
  functionalRoots := roots
  compile candidate _ :=
    if candidate.value?.any fun value => value.text == "primary" then
      some [Sheet.Node.declare "color" name]
    else none

theorem resolve_picks_least_pairing_tiers :
    let general := button "general" .namespaceHandler ["btn"]
    let rootless := button "rootless" .exactStatic []
    let exact := button "exact" .constrainedFunctional ["btn"]
    let registry := afterCalls [general, rootless, exact, general]
    (∃ error, (afterCalls [general]).register rootless = .error error) ∧
      registry = afterCalls [general, exact, general] ∧
      ∃ resolved, registry.resolve? .empty "btn-primary" = some resolved ∧
        (resolved.priority, resolved.index) = (.constrainedFunctional, 1) ∧
        ∃ attempt nodes, registry.Pairing .empty "btn-primary" attempt nodes ∧
          (∀ other nodes', registry.Pairing .empty "btn-primary" other nodes' →
            attempt.key ≤ other.key) ∧
          resolved = attempt.result nodes := by
  intro general rootless exact registry
  have hfails : ∃ error, (afterCalls [general]).register rootless = .error error :=
    ⟨.rootlessUtility "rootless", rfl⟩
  have hpick : (registry.resolve? .empty "btn-primary").map
      (fun resolved => (resolved.priority, resolved.index)) =
        some (.constrainedFunctional, 1) := by decide +kernel
  obtain ⟨resolved, hresolved, hplace⟩ := Option.map_eq_some_iff.mp hpick
  have hskip := (resolve_picks_least_pairing [general]).2.2.2.2.2 rootless
  have hleast := (resolve_picks_least_pairing [general, rootless, exact, general]).2.1
  exact ⟨hfails, hskip.2 hfails [exact, general], resolved, hresolved, hplace,
    (hleast _ _ _).mp hresolved⟩

end Registry

end AtomicCss.Utility
