import AtomicCss.Variant.Family
import Mathlib.Data.List.Induction
import Mathlib.Data.List.Nodup
import Mathlib.Data.Prod.Lex

/-!
Registering variant families. Whichever calls were made, and whichever of them failed, a registry
holds the families of the calls that succeeded, by weight and then by the order of the calls, and a
token goes to the first of them that handles it.
-/

namespace AtomicCss.Variant.Registry

def names (registry : Registry) : List String :=
  registry.families.map Family.name

/-- The registry after a call of `register`. A call that fails leaves it as it is. -/
def attempt (registry : Registry) (family : Family) : Registry :=
  match registry.register family with
  | .ok next => next
  | .error _ => registry

/-- The registry after calls of `register`, one for each family, that start with none. -/
def afterCalls (calls : List Family) : Registry :=
  calls.foldl attempt empty

theorem afterCalls_append_singleton (calls : List Family) (family : Family) :
    afterCalls (calls ++ [family]) = (afterCalls calls).attempt family := by
  rw [afterCalls, List.foldl_append, List.foldl_cons, List.foldl_nil]
  rfl

section Register

variable {registry : Registry} {family : Family}

theorem register_of_mem (h : family.name ∈ registry.names) :
    registry.register family = .error (.duplicateVariant family.name) := by
  obtain ⟨other, hother, hname⟩ := List.mem_map.mp h
  rw [register, if_pos]
  exact List.any_eq_true.mpr ⟨other, hother, beq_iff_eq.mpr hname⟩

theorem register_of_not_mem (h : family.name ∉ registry.names) :
    registry.register family = .ok ⟨insertByWeight family registry.families⟩ := by
  rw [register, if_neg]
  intro hany
  obtain ⟨other, hother, hname⟩ := List.any_eq_true.mp hany
  exact h (List.mem_map.mpr ⟨other, hother, eq_of_beq hname⟩)

theorem attempt_of_mem (h : family.name ∈ registry.names) : registry.attempt family = registry := by
  rw [attempt, register_of_mem h]

theorem attempt_of_not_mem (h : family.name ∉ registry.names) :
    registry.attempt family = ⟨insertByWeight family registry.families⟩ := by
  rw [attempt, register_of_not_mem h]

theorem exists_register_iff :
    (∃ next, registry.register family = .ok next) ↔ family.name ∉ registry.names := by
  constructor
  · rintro ⟨next, hnext⟩ hmem
    rw [register_of_mem hmem] at hnext
    cases hnext
  · intro h
    exact ⟨_, register_of_not_mem h⟩

end Register

/-- A family comes to stand behind those that are not heavier. That all others are heavier rests on
the order of the list: the search ends at the first that is. -/
theorem exists_insertByWeight (family : Family) {families : List Family}
    (h : families.Pairwise fun left right => left.weight ≤ right.weight) :
    ∃ lighter heavier, families = lighter ++ heavier ∧
      insertByWeight family families = lighter ++ family :: heavier ∧
      (∀ other ∈ lighter, other.weight ≤ family.weight) ∧
      ∀ other ∈ heavier, family.weight < other.weight := by
  induction families with
  | nil => exact ⟨[], [], rfl, rfl, by simp, by simp⟩
  | cons first rest ih =>
      obtain ⟨hfirst, hrest⟩ := List.pairwise_cons.mp h
      rw [insertByWeight]
      split
      · rename_i hlt
        refine ⟨[], first :: rest, rfl, rfl, by simp, ?_⟩
        rw [List.forall_mem_cons]
        exact ⟨hlt, fun other hother => Nat.lt_of_lt_of_le hlt (hfirst other hother)⟩
      · rename_i hle
        obtain ⟨lighter, heavier, hsplit, hinsert, hlighter, hheavier⟩ := ih hrest
        refine ⟨first :: lighter, heavier, congrArg (first :: ·) hsplit,
          congrArg (first :: ·) hinsert, ?_, hheavier⟩
        exact List.forall_mem_cons.mpr ⟨Nat.not_lt.mp hle, hlighter⟩

/-- A family and the place, among some calls, of the one that registers it. -/
structure Registration where
  family : Family
  place : Nat

namespace Registration

structure Succeeds (calls : List Family) (registration : Registration) : Prop where
  called : calls[registration.place]? = some registration.family
  accepted : ∃ next, (afterCalls (calls.take registration.place)).register registration.family =
    .ok next

def key (registration : Registration) : ℕ ×ₗ ℕ :=
  toLex (registration.family.weight, registration.place)

theorem key_lt_key_iff {left right : Registration} :
    left.key < right.key ↔ left.family.weight < right.family.weight ∨
      left.family.weight = right.family.weight ∧ left.place < right.place :=
  Prod.Lex.toLex_lt_toLex

variable {calls : List Family} {registration : Registration}

theorem Succeeds.place_lt (h : registration.Succeeds calls) : registration.place < calls.length :=
  (List.getElem?_eq_some_iff.mp h.called).1

/-- One more call does not touch the earlier ones, and it succeeds if its name is new. -/
theorem succeeds_append_iff {family : Family} :
    registration.Succeeds (calls ++ [family]) ↔
      registration.Succeeds calls ∨
        registration = ⟨family, calls.length⟩ ∧ family.name ∉ (afterCalls calls).names := by
  obtain ⟨other, place⟩ := registration
  have hearlier (hplace : place < calls.length) :
      Succeeds (calls ++ [family]) ⟨other, place⟩ ↔ Succeeds calls ⟨other, place⟩ := by
    have hcalled : (calls ++ [family])[place]? = calls[place]? := List.getElem?_append_left hplace
    have htake : (calls ++ [family]).take place = calls.take place :=
      List.take_append_of_le_length hplace.le
    constructor
    · intro h
      exact ⟨hcalled ▸ h.called, htake ▸ h.accepted⟩
    · intro h
      exact ⟨hcalled.symm ▸ h.called, htake.symm ▸ h.accepted⟩
  constructor
  · intro h
    have hplace := h.place_lt
    rw [List.length_append, List.length_singleton] at hplace
    rcases Nat.lt_succ_iff_lt_or_eq.mp hplace with hlt | rfl
    · exact .inl ((hearlier hlt).mp h)
    · have hcalled := h.called
      have haccepted := h.accepted
      rw [List.getElem?_concat_length] at hcalled
      rw [List.take_left, exists_register_iff] at haccepted
      cases hcalled
      exact .inr ⟨rfl, haccepted⟩
  · rintro (h | ⟨heq, hname⟩)
    · exact (hearlier h.place_lt).mpr h
    · cases heq
      refine ⟨List.getElem?_concat_length, ?_⟩
      rw [List.take_left]
      exact exists_register_iff.mpr hname

end Registration

/-- The registrations behind the families of a registry, in the same order. -/
structure Lists (calls : List Family) (registrations : List Registration) : Prop where
  families_eq : (afterCalls calls).families = registrations.map Registration.family
  mem_iff : ∀ registration, registration ∈ registrations ↔ registration.Succeeds calls
  ordered : registrations.Pairwise fun left right => left.key < right.key
  nodup_names : (afterCalls calls).names.Nodup

namespace Lists

variable {calls : List Family} {registrations : List Registration}

theorem weights_ordered (h : Lists calls registrations) :
    (afterCalls calls).families.Pairwise fun left right => left.weight ≤ right.weight := by
  rw [h.families_eq, List.pairwise_map]
  refine h.ordered.imp ?_
  intro left right hlt
  rcases Registration.key_lt_key_iff.mp hlt with hlt | ⟨heq, -⟩
  · exact hlt.le
  · exact heq.le

/-- A call that fails changes neither the registry nor what has succeeded. -/
theorem attempt_of_mem (h : Lists calls registrations) {family : Family}
    (hname : family.name ∈ (afterCalls calls).names) : Lists (calls ++ [family]) registrations := by
  have hafter : afterCalls (calls ++ [family]) = afterCalls calls := by
    rw [afterCalls_append_singleton, Registry.attempt_of_mem hname]
  refine ⟨?_, ?_, h.ordered, ?_⟩
  · rw [hafter, h.families_eq]
  · intro registration
    rw [h.mem_iff, Registration.succeeds_append_iff]
    simp [hname]
  · rw [hafter]
    exact h.nodup_names

/-- The family of a call that succeeds has the last place, so it belongs behind those of its own
weight. -/
theorem attempt_of_not_mem (h : Lists calls registrations) {family : Family}
    (hname : family.name ∉ (afterCalls calls).names) :
    ∃ next, Lists (calls ++ [family]) next := by
  obtain ⟨lighter, heavier, hsplit, hinsert, hlighter, hheavier⟩ :=
    exists_insertByWeight family h.weights_ordered
  have hafter : (afterCalls (calls ++ [family])).families = lighter ++ family :: heavier := by
    rw [afterCalls_append_singleton, Registry.attempt_of_not_mem hname, hinsert]
  rw [h.families_eq] at hsplit
  obtain ⟨before, after, rfl, rfl, rfl⟩ := List.map_eq_append_iff.mp hsplit
  refine ⟨before ++ ⟨family, calls.length⟩ :: after, ?_, ?_, ?_, ?_⟩
  · rw [hafter, List.map_append, List.map_cons]
  · intro registration
    rw [Registration.succeeds_append_iff, ← h.mem_iff]
    simp [hname, or_assoc, or_comm]
  · obtain ⟨hbefore, hafter', hapart⟩ := List.pairwise_append.mp h.ordered
    refine List.pairwise_append.mpr ⟨hbefore, List.pairwise_cons.mpr ⟨?_, hafter'⟩, ?_⟩
    · intro right hright
      exact Registration.key_lt_key_iff.mpr (.inl (hheavier _ (List.mem_map_of_mem hright)))
    · intro left hleft
      rw [List.forall_mem_cons]
      refine ⟨Registration.key_lt_key_iff.mpr ?_, hapart left hleft⟩
      have hplace := ((h.mem_iff left).mp (List.mem_append_left _ hleft)).place_lt
      have hweight := hlighter _ (List.mem_map_of_mem hleft)
      exact (Nat.lt_or_eq_of_le hweight).imp_right fun heq => ⟨heq, hplace⟩
  · have hnames := h.nodup_names
    rw [names, h.families_eq, List.map_append, List.map_append] at hnames
    rw [names, h.families_eq, List.map_append, List.map_append] at hname
    rw [names, hafter, List.map_append, List.map_cons, List.nodup_middle]
    exact List.nodup_cons.mpr ⟨hname, hnames⟩

end Lists

theorem exists_lists (calls : List Family) : ∃ registrations, Lists calls registrations := by
  induction calls using List.reverseRecOn with
  | nil =>
      refine ⟨[], rfl, ?_, .nil, List.nodup_nil⟩
      intro registration
      constructor
      · intro h
        cases h
      · intro h
        cases h.called
  | append_singleton calls family ih =>
      obtain ⟨registrations, h⟩ := ih
      by_cases hname : family.name ∈ (afterCalls calls).names
      · exact ⟨registrations, h.attempt_of_mem hname⟩
      · exact h.attempt_of_not_mem hname

/-- In a list in strict order, the first item of a kind is the least. -/
theorem find?_eq_some_iff_least {Item Key : Type} [LinearOrder Key] {key : Item → Key}
    {items : List Item} (h : items.Pairwise fun left right => key left < key right)
    {accepts : Item → Bool} {item : Item} :
    items.find? accepts = some item ↔
      item ∈ items ∧ accepts item = true ∧
        ∀ other ∈ items, accepts other = true → key item ≤ key other := by
  induction items with
  | nil => simp
  | cons first rest ih =>
      obtain ⟨hfirst, hrest⟩ := List.pairwise_cons.mp h
      rw [List.find?_cons, List.mem_cons, List.forall_mem_cons]
      split
      · rename_i haccepts
        rw [Option.some.injEq]
        constructor
        · rintro rfl
          exact ⟨.inl rfl, haccepts, fun _ => le_refl _, fun other hother _ =>
            (hfirst other hother).le⟩
        · rintro ⟨rfl | hitem, -, hle, -⟩
          · rfl
          · exact absurd (hle haccepts) (hfirst item hitem).not_ge
      · rename_i hrefuses
        rw [ih hrest]
        constructor
        · rintro ⟨hitem, haccepts, hleast⟩
          exact ⟨.inr hitem, haccepts, fun hfirst => by simp [hrefuses] at hfirst, hleast⟩
        · rintro ⟨rfl | hitem, haccepts, -, hleast⟩
          · simp [hrefuses] at haccepts
          · exact ⟨hitem, haccepts, hleast⟩

/-- After any calls a registry holds the families of those that succeeded, by weight and then by the
order of the calls, under distinct names. It gives a token to the least of them that handle it. A
family under a name that is taken is refused, and nothing changes. -/
theorem registered_families_keep_priority (calls : List Family) :
    (∃ registrations : List Registration,
      (afterCalls calls).families = registrations.map Registration.family ∧
      (∀ registration, registration ∈ registrations ↔ registration.Succeeds calls) ∧
      registrations.Pairwise fun left right => left.key < right.key) ∧
    (afterCalls calls).names.Nodup ∧
    (∀ token family, (afterCalls calls).find? token = some family ↔
      ∃ registration : Registration, registration.family = family ∧
        registration.Succeeds calls ∧ family.handles token = true ∧
        ∀ other : Registration, other.Succeeds calls → other.family.handles token = true →
          registration.key ≤ other.key) ∧
    (∀ token, (afterCalls calls).find? token = none ↔
      ∀ registration : Registration, registration.Succeeds calls →
        registration.family.handles token = false) ∧
    ∀ family,
      if family.name ∈ (afterCalls calls).names then
        (afterCalls calls).register family = .error (.duplicateVariant family.name) ∧
          afterCalls (calls ++ [family]) = afterCalls calls
      else ∃ next, (afterCalls calls).register family = .ok next ∧
        afterCalls (calls ++ [family]) = next := by
  obtain ⟨registrations, h⟩ := exists_lists calls
  have hfind (token : Token) : (afterCalls calls).find? token =
      (registrations.find? fun registration => registration.family.handles token).map
        Registration.family := by
    rw [find?, h.families_eq, List.find?_map]
    rfl
  refine ⟨⟨registrations, h.families_eq, h.mem_iff, h.ordered⟩, h.nodup_names, ?_, ?_, ?_⟩
  · intro token family
    rw [hfind, Option.map_eq_some_iff]
    simp only [find?_eq_some_iff_least h.ordered, h.mem_iff]
    constructor
    · rintro ⟨registration, ⟨hsucceeds, hhandles, hleast⟩, rfl⟩
      exact ⟨registration, rfl, hsucceeds, hhandles, hleast⟩
    · rintro ⟨registration, rfl, hsucceeds, hhandles, hleast⟩
      exact ⟨registration, ⟨hsucceeds, hhandles, hleast⟩, rfl⟩
  · intro token
    rw [hfind, Option.map_eq_none_iff, List.find?_eq_none]
    simp only [h.mem_iff, Bool.not_eq_true]
  · intro family
    split
    · rename_i hname
      refine ⟨register_of_mem hname, ?_⟩
      rw [afterCalls_append_singleton, attempt_of_mem hname]
    · rename_i hname
      refine ⟨_, register_of_not_mem hname, ?_⟩
      rw [afterCalls_append_singleton, attempt_of_not_mem hname]

end AtomicCss.Variant.Registry
