import AtomicCss.Proofs.Cascade

/-!
What each strategy of merging keeps. The plain strategies look at one property at a time, and choose
the last, the first or the last important of its declarations. Smart merging keeps every declaration
that decides a property, and keeps a longhand beside its shorthand only if it was read later or is
important and the shorthand is not.
-/

namespace AtomicCss.Sheet

namespace Merge

def rivals (property : String) (declarations : List Declaration) : List Declaration :=
  declarations.filter (·.property == property)

section Rivals

variable {property : String} {kept declarations : List Declaration} {declaration : Declaration}

theorem rivals_append_of_eq (h : declaration.property = property) :
    rivals property (declarations ++ [declaration]) =
      rivals property declarations ++ [declaration] := by
  simp [rivals, h]

theorem rivals_append_of_ne (h : declaration.property ≠ property) :
    rivals property (declarations ++ [declaration]) = rivals property declarations := by
  simp [rivals, h]

theorem rivals_replaceLast_self :
    rivals declaration.property (replaceLast kept declaration) = [declaration] := by
  rw [replaceLast, rivals_append_of_eq rfl, rivals, List.filter_filter]
  simp

theorem rivals_replaceLast_of_ne (h : declaration.property ≠ property) :
    rivals property (replaceLast kept declaration) = rivals property kept := by
  rw [replaceLast, rivals_append_of_ne h, rivals, rivals, List.filter_filter]
  apply List.filter_congr
  intro other _
  by_cases hother : other.property = property
  · simp [hother, Ne.symm h]
  · simp [hother]

theorem any_rivals (test : Declaration → Bool) :
    (kept.any fun earlier => earlier.property == property && test earlier) =
      (rivals property kept).any test := by
  rw [rivals, List.any_filter]

/-! A plain strategy leaves other properties alone. -/

theorem rivals_addLast_of_ne {strategy : MergeStrategy} (hplain : strategy ≠ .smart)
    (h : declaration.property ≠ property) :
    rivals property (addLast strategy kept declaration) = rivals property kept := by
  cases strategy with
  | lastWins => exact rivals_replaceLast_of_ne h
  | firstWins =>
      rw [addLast, keepFirst]
      split
      · rfl
      · exact rivals_append_of_ne h
  | importantWins =>
      rw [addLast, replaceLastUnlessImportant]
      split
      · rfl
      · exact rivals_replaceLast_of_ne h
  | smart => exact (hplain rfl).elim

/-- A strategy that settles each property by itself, reading its declarations in turn, chooses from
them as `pick` does. -/
theorem rivals_foldl_addLast {strategy : MergeStrategy} (hplain : strategy ≠ .smart)
    {pick : List Declaration → Option Declaration} (hnil : pick [] = none)
    (hstep : ∀ kept declaration earlier,
      rivals declaration.property kept = (pick earlier).toList →
        rivals declaration.property (addLast strategy kept declaration) =
          (pick (earlier ++ [declaration])).toList)
    (property : String) (declarations : List Declaration) :
    rivals property (declarations.foldl (addLast strategy) []) =
      (pick (rivals property declarations)).toList := by
  induction declarations using List.reverseRecOn with
  | nil =>
      have hnone : rivals property [] = [] := rfl
      rw [List.foldl_nil, hnone, hnil]
      rfl
  | append_singleton declarations declaration ih =>
      rw [List.foldl_append, List.foldl_cons, List.foldl_nil]
      by_cases h : declaration.property = property
      · subst h
        rw [rivals_append_of_eq rfl]
        exact hstep _ declaration _ ih
      · rw [rivals_append_of_ne h, rivals_addLast_of_ne hplain h, ih]

theorem rivals_foldl_addLast_lastWins (property : String) (declarations : List Declaration) :
    rivals property (declarations.foldl (addLast .lastWins) []) =
      (rivals property declarations).getLast?.toList := by
  apply rivals_foldl_addLast (by decide) rfl
  intro kept declaration earlier _
  rw [addLast, rivals_replaceLast_self, List.getLast?_concat]
  rfl

theorem rivals_foldl_addLast_firstWins (property : String) (declarations : List Declaration) :
    rivals property (declarations.foldl (addLast .firstWins) []) =
      (rivals property declarations).head?.toList := by
  apply rivals_foldl_addLast (by decide) rfl
  intro kept declaration earlier hkept
  have hany : (kept.any fun other => other.property == declaration.property) =
      (rivals declaration.property kept).any fun _ => true := by
    simpa using any_rivals fun _ => true
  rw [addLast, keepFirst, hany, hkept]
  cases earlier with
  | nil =>
      rw [if_neg (by simp), rivals_append_of_eq rfl, hkept]
      rfl
  | cons first rest => simpa using hkept

theorem strongest_append (declarations : List Declaration) (declaration : Declaration) :
    strongest (declarations ++ [declaration]) =
      if (strongest declarations).toList.any fun earlier => prevails earlier declaration then
        strongest declarations
      else some declaration := by
  rw [strongest, List.filter_append, List.getLast?_concat]
  cases hlevel : declaration.important with
  | true => simp [hlevel, prevails]
  | false =>
      have hnone : [declaration].filter (·.important) = [] := by simp [hlevel]
      rw [hnone, List.append_nil, getLast?_filter_important]
      cases strongest declarations with
      | none => rfl
      | some earlier => cases hearlier : earlier.important <;>
          simp [prevails, Option.filter_some, hearlier, hlevel]

theorem rivals_foldl_addLast_importantWins (property : String) (declarations : List Declaration) :
    rivals property (declarations.foldl (addLast .importantWins) []) =
      (strongest (rivals property declarations)).toList := by
  apply rivals_foldl_addLast (by decide) rfl
  intro kept declaration earlier hkept
  rw [addLast, replaceLastUnlessImportant, any_rivals, hkept, strongest_append]
  split
  · exact hkept
  · exact rivals_replaceLast_self

end Rivals

/-! Declarations of distinct properties do not meet, so merging them changes nothing. -/

theorem replace_of_fresh {kept : List Declaration} {declaration : Declaration}
    (hfresh : ∀ other ∈ kept, other.property ≠ declaration.property) :
    replace kept declaration = kept ++ [declaration] := by
  induction kept with
  | nil => rfl
  | cons other rest ih =>
      obtain ⟨hother, hrest⟩ := List.forall_mem_cons.mp hfresh
      rw [replace, if_neg hother, ih hrest, List.cons_append]

theorem add_of_fresh {strategy : MergeStrategy} (hplain : strategy ≠ .smart)
    {kept : List Declaration} {declaration : Declaration}
    (hfresh : ∀ other ∈ kept, other.property ≠ declaration.property) :
    add strategy kept declaration = kept ++ [declaration] := by
  cases strategy with
  | lastWins => exact replace_of_fresh hfresh
  | firstWins =>
      rw [add, keepFirst, if_neg]
      simpa using hfresh
  | importantWins =>
      rw [add, replaceUnlessImportant, if_neg, replace_of_fresh hfresh]
      intro hany
      obtain ⟨other, hother, htest⟩ := List.any_eq_true.mp hany
      rw [Bool.and_eq_true, beq_iff_eq] at htest
      exact hfresh other hother htest.1
  | smart => exact (hplain rfl).elim

theorem foldl_add_eq_self {strategy : MergeStrategy} (hplain : strategy ≠ .smart)
    {declarations : List Declaration} (hdistinct : Distinct declarations) :
    declarations.foldl (add strategy) [] = declarations := by
  induction declarations using List.reverseRecOn with
  | nil => rfl
  | append_singleton declarations declaration ih =>
      obtain ⟨hdeclarations, -, hfresh⟩ := List.pairwise_append.mp hdistinct
      rw [List.foldl_append, List.foldl_cons, List.foldl_nil, ih hdeclarations]
      apply add_of_fresh hplain
      intro other hother
      exact hfresh other hother declaration (List.mem_singleton.mpr rfl)

end Merge

theorem mergeDeclarations_mergeDeclarations {strategy : MergeStrategy} (hplain : strategy ≠ .smart)
    (declarations : List Declaration) :
    mergeDeclarations strategy (mergeDeclarations strategy declarations) =
      mergeDeclarations strategy declarations := by
  rw [mergeDeclarations,
    Merge.foldl_add_eq_self hplain (distinct_mergeDeclarations strategy declarations)]
  exact List.mergeSort_of_pairwise (pairwise_precedes_mergeDeclarations strategy declarations)

/-- Sorting what is kept does not change a property of which there is at most one declaration. -/
theorem rivals_mergeDeclarations {strategy : MergeStrategy} {property : String}
    {declarations : List Declaration} {choice : Option Declaration}
    (h : Merge.rivals property (declarations.foldl (Merge.addLast strategy) []) = choice.toList) :
    Merge.rivals property (mergeDeclarations strategy declarations) = choice.toList := by
  have hperm := (mergeDeclarations_perm strategy declarations).filter (·.property == property)
  rw [← Merge.rivals, ← Merge.rivals, h] at hperm
  cases choice with
  | none => exact List.perm_nil.mp hperm
  | some declaration => exact List.perm_singleton.mp hperm

/-- Each plain strategy keeps for every property the declaration it is named after. All strategies
keep some of the declarations, at most one for a property, in one order. -/
theorem merge_keeps_one_choice_per_property (declarations : List Declaration) :
    (∀ property,
      Merge.rivals property (mergeDeclarations .lastWins declarations) =
          (Merge.rivals property declarations).getLast?.toList ∧
        Merge.rivals property (mergeDeclarations .firstWins declarations) =
          (Merge.rivals property declarations).head?.toList ∧
        Merge.rivals property (mergeDeclarations .importantWins declarations) =
          (Merge.strongest (Merge.rivals property declarations)).toList) ∧
    (∀ strategy,
      (mergeDeclarations strategy declarations).Pairwise
          (fun earlier later => earlier.property ≠ later.property) ∧
        mergeDeclarations strategy declarations ⊆ declarations ∧
        (mergeDeclarations strategy declarations).Pairwise Merge.Before) ∧
    mergeDeclarations .lastWins (mergeDeclarations .lastWins declarations) =
        mergeDeclarations .lastWins declarations ∧
      mergeDeclarations .firstWins (mergeDeclarations .firstWins declarations) =
        mergeDeclarations .firstWins declarations ∧
      mergeDeclarations .importantWins (mergeDeclarations .importantWins declarations) =
        mergeDeclarations .importantWins declarations := by
  refine ⟨fun property => ⟨?_, ?_, ?_⟩, fun strategy => ⟨?_, ?_, ?_⟩, ?_, ?_, ?_⟩
  · exact rivals_mergeDeclarations (Merge.rivals_foldl_addLast_lastWins property declarations)
  · exact rivals_mergeDeclarations (Merge.rivals_foldl_addLast_firstWins property declarations)
  · exact rivals_mergeDeclarations (Merge.rivals_foldl_addLast_importantWins property declarations)
  · exact distinct_mergeDeclarations strategy declarations
  · intro declaration hmem
    have hkept := (mergeDeclarations_perm strategy declarations).mem_iff.mp hmem
    exact (Merge.foldl_addLast_sublist strategy declarations).subset hkept
  · exact pairwise_before_mergeDeclarations strategy declarations
  · exact mergeDeclarations_mergeDeclarations (by decide) declarations
  · exact mergeDeclarations_mergeDeclarations (by decide) declarations
  · exact mergeDeclarations_mergeDeclarations (by decide) declarations

/-! Where a declaration that smart merging keeps was read. -/

namespace Merge

def keptAfter (declarations : List Declaration) (count : Nat) : List Declaration :=
  (declarations.take count).foldl (add .smart) []

/-- The declaration was taken up at this position, and nothing read later took its place. -/
structure ReadAt (declarations : List Declaration) (position : Nat)
    (declaration : Declaration) : Prop where
  read : declarations[position]? = some declaration
  entered : ∀ earlier ∈ keptAfter declarations position,
    earlier.property = declaration.property → ¬ prevails earlier declaration
  stays : ∀ count, position < count → declaration ∈ keptAfter declarations count
  unrepeated : declaration ∉ declarations.drop (position + 1)

section ReadAt

variable {declarations : List Declaration} {declaration other : Declaration} {position : Nat}

theorem mem_keptAfter_iff {count : Nat} :
    declaration ∈ keptAfter declarations count ↔
      declaration ∈ (declarations.take count).foldl (addLast .smart) [] :=
  (foldl_add_perm .smart _).mem_iff

theorem mem_keptAfter_succ (h : declarations[position]? = some declaration) :
    other ∈ keptAfter declarations (position + 1) ↔
      other ∈ addLast .smart ((declarations.take position).foldl (addLast .smart) [])
        declaration := by
  rw [mem_keptAfter_iff, List.take_add_one, h, List.foldl_append]
  rfl

theorem keptAfter_append (count : Nat) (h : count ≤ declarations.length) :
    keptAfter (declarations ++ [other]) count = keptAfter declarations count := by
  rw [keptAfter, keptAfter, List.take_append_of_le_length h]

theorem mem_keptAfter_of_length_le {count : Nat} (h : declarations.length ≤ count) :
    declaration ∈ keptAfter declarations count ↔
      declaration ∈ declarations.foldl (addLast .smart) [] := by
  rw [mem_keptAfter_iff, List.take_of_length_le h]

theorem ReadAt.lt_length (h : ReadAt declarations position declaration) :
    position < declarations.length :=
  (List.getElem?_eq_some_iff.mp h.read).1

theorem ReadAt.append (h : ReadAt declarations position declaration)
    (hkept : declaration ∈ (declarations ++ [other]).foldl (addLast .smart) [])
    (hne : declaration ≠ other) : ReadAt (declarations ++ [other]) position declaration where
  read := by rw [List.getElem?_append_left h.lt_length, h.read]
  entered := by
    rw [keptAfter_append _ (Nat.le_of_lt h.lt_length)]
    exact h.entered
  stays := by
    intro count hcount
    by_cases hlength : count ≤ declarations.length
    · rw [keptAfter_append count hlength]
      exact h.stays count hcount
    · rw [mem_keptAfter_of_length_le (by simp; omega)]
      exact hkept
  unrepeated := by
    rw [List.drop_append_of_le_length h.lt_length, List.mem_append, List.mem_singleton]
    exact not_or_intro h.unrepeated hne

theorem readAt_length
    (hfree : ∀ earlier ∈ declarations.foldl (addLast .smart) [],
      earlier.property = declaration.property → ¬ prevails earlier declaration)
    (hkept : declaration ∈ (declarations ++ [declaration]).foldl (addLast .smart) []) :
    ReadAt (declarations ++ [declaration]) declarations.length declaration where
  read := List.getElem?_concat_length
  entered := by
    intro earlier hearlier
    rw [keptAfter_append _ (Nat.le_refl _), mem_keptAfter_of_length_le (Nat.le_refl _)] at hearlier
    exact hfree earlier hearlier
  stays := by
    intro count hcount
    rw [mem_keptAfter_of_length_le (by simp; omega)]
    exact hkept
  unrepeated := by simp

theorem exists_readAt (h : declaration ∈ declarations.foldl (addLast .smart) []) :
    ∃ position, ReadAt declarations position declaration := by
  induction declarations using List.reverseRecOn with
  | nil => cases h
  | append_singleton declarations other ih =>
      have hkept := h
      rw [List.foldl_append, List.foldl_cons, List.foldl_nil] at h
      rcases addLast_smart_cases (declarations.foldl (addLast .smart) []) other with
        ⟨⟨stronger, hstronger, hproperty, hprevails⟩, heq⟩ | ⟨hfree, heq⟩
      · rw [heq] at h
        have hearlier := (evictLonghands_sublist _ other).subset h
        obtain ⟨position, hread⟩ := ih hearlier
        refine ⟨position, hread.append hkept ?_⟩
        -- The declaration that is not taken up is none of those that are kept.
        rintro rfl
        have hsame := eq_of_property_eq (distinct_foldl_addLast .smart declarations) hstronger
          hearlier hproperty
        rw [hsame, prevails, Bool.and_not_self] at hprevails
        cases hprevails
      · rw [heq, List.mem_append, List.mem_singleton] at h
        rcases h with hearlier | rfl
        · obtain ⟨hevicted, hne⟩ := List.mem_filter.mp hearlier
          obtain ⟨position, hread⟩ := ih ((evictLonghands_sublist _ other).subset hevicted)
          refine ⟨position, hread.append hkept ?_⟩
          rintro rfl
          simp at hne
        · refine ⟨declarations.length, readAt_length ?_ hkept⟩
          intro earlier hearlier hproperty
          exact hfree earlier (mem_evictLonghands_of_property_eq hearlier hproperty) hproperty

theorem ReadAt.order {shorthand longhand : Declaration} {first second : Nat}
    (hunprefixed : Unprefixed declarations)
    (hshorthand : ReadAt declarations first shorthand)
    (hlonghand : ReadAt declarations second longhand)
    (h : longhand.property ∈ longhandsOf shorthand.property) :
    first < second ∨ prevails longhand shorthand := by
  have hdiffers : longhand ≠ shorthand := by
    rintro rfl
    exact not_mem_longhandsOf_self longhand.property h
  rcases Nat.lt_trichotomy first second with hlt | heq | hgt
  · exact .inl hlt
  · subst heq
    exact (hdiffers (Option.some.inj (hlonghand.read.symm.trans hshorthand.read))).elim
  · -- The longhand was there when the shorthand was read, and was not evicted.
    right
    have hkept : Unprefixed ((declarations.take first).foldl (addLast .smart) []) := by
      intro candidate hmem
      have htaken := mem_of_mem_foldl_addLast_smart hmem
      exact hunprefixed candidate (List.mem_of_mem_take htaken)
    have hread := hunprefixed shorthand (List.mem_of_getElem? hshorthand.read)
    have hmem := (mem_keptAfter_succ hshorthand.read).mp (hlonghand.stays (first + 1) (by omega))
    apply prevails_of_mem_evictLonghands hkept hread _ h
    rcases addLast_smart_cases ((declarations.take first).foldl (addLast .smart) []) shorthand with
      ⟨-, heq⟩ | ⟨-, heq⟩
    · rwa [heq] at hmem
    · rw [heq, List.mem_append, List.mem_singleton] at hmem
      exact (List.mem_filter.mp (hmem.resolve_right hdiffers)).1

end ReadAt

end Merge

/-- Smart merging keeps each declaration that decides some property. A longhand beside its shorthand
was read later, or is important and the shorthand is not. -/
theorem smart_merge_keeps_winners (declarations : List Declaration)
    (hunprefixed : Merge.Unprefixed declarations) :
    (∀ property winner, effect property declarations = some winner →
      winner ∈ mergeDeclarations .smart declarations) ∧
    ∀ shorthand ∈ mergeDeclarations .smart declarations,
      ∀ longhand ∈ mergeDeclarations .smart declarations,
        longhand.property ∈ longhandsOf shorthand.property →
          ∃ first second, Merge.ReadAt declarations first shorthand ∧
            Merge.ReadAt declarations second longhand ∧
            (first < second ∨ longhand.important = true ∧ shorthand.important = false) := by
  have hmem {declaration : Declaration} :=
    (mergeDeclarations_perm .smart declarations).mem_iff (a := declaration)
  constructor
  · intro property winner hwinner
    rw [← effect_foldl_addLast_smart property hunprefixed] at hwinner
    exact hmem.mpr (mem_of_effect_eq_some hwinner)
  · intro shorthand hshorthand longhand hlonghand h
    obtain ⟨first, hfirst⟩ := Merge.exists_readAt (hmem.mp hshorthand)
    obtain ⟨second, hsecond⟩ := Merge.exists_readAt (hmem.mp hlonghand)
    refine ⟨first, second, hfirst, hsecond, (hfirst.order hunprefixed hsecond h).imp_right ?_⟩
    intro hprevails
    simpa [Merge.prevails] using hprevails

/-- A plain shorthand between its longhands: the important one in front of it is kept, and so is the
one behind it. -/
theorem smart_merge_keeps_winners_margin :
    let marginTop : Declaration := ⟨"margin-top", "2px", true⟩
    let margin : Declaration := ⟨"margin", "3px", false⟩
    let marginLeft : Declaration := ⟨"margin-left", "4px", false⟩
    let declarations := [⟨"margin", "1px", false⟩, ⟨"margin-left", "5px", false⟩, marginTop, margin,
      marginLeft]
    Merge.Unprefixed declarations ∧
      (marginTop ∈ mergeDeclarations .smart declarations ∧
        margin ∈ mergeDeclarations .smart declarations ∧
        marginLeft ∈ mergeDeclarations .smart declarations) ∧
      ∃ first second, Merge.ReadAt declarations first margin ∧
        Merge.ReadAt declarations second marginLeft ∧ first < second := by
  intro marginTop margin marginLeft declarations
  have hunprefixed : Merge.Unprefixed declarations := by
    unfold Merge.Unprefixed
    decide +kernel
  obtain ⟨hwinners, hpairs⟩ := smart_merge_keeps_winners declarations hunprefixed
  have hmarginTop := hwinners "margin-top" marginTop (by decide +kernel)
  have hmargin := hwinners "margin-right" margin (by decide +kernel)
  have hmarginLeft := hwinners "margin-left" marginLeft (by decide +kernel)
  obtain ⟨first, second, hfirst, hsecond, horder⟩ :=
    hpairs margin hmargin marginLeft hmarginLeft (by decide +kernel)
  exact ⟨hunprefixed, ⟨hmarginTop, hmargin, hmarginLeft⟩, first, second, hfirst, hsecond,
    horder.resolve_right (by decide)⟩

end AtomicCss.Sheet
