import AtomicCss.Sheet.Merge
import Mathlib.Data.List.Induction

/-!
Merging declarations one after another: what is kept, and in which order it is written out.
-/

namespace AtomicCss.Sheet

/-! The table of shorthands is closed: a longhand that is a shorthand itself adds nothing new. -/

theorem exists_mem_shorthands {shorthand longhand : String}
    (h : longhand ∈ longhandsOf shorthand) :
    ∃ entry ∈ shorthands, entry.1 = shorthand ∧ entry.2 = longhandsOf shorthand := by
  rw [longhandsOf] at h ⊢
  cases hlookup : shorthands.lookup shorthand with
  | none =>
      rw [hlookup] at h
      cases h
  | some longhands =>
      obtain ⟨before, after, htable, -⟩ := List.lookup_eq_some_iff.mp hlookup
      refine ⟨(shorthand, longhands), ?_, rfl, rfl⟩
      rw [htable]
      simp

theorem longhandsOf_trans {outer inner property : String}
    (houter : inner ∈ longhandsOf outer) (hinner : property ∈ longhandsOf inner) :
    property ∈ longhandsOf outer := by
  have hclosed : ∀ entry ∈ shorthands, ∀ inner ∈ entry.2,
      ∀ property ∈ longhandsOf inner, property ∈ entry.2 := by
    decide +kernel
  obtain ⟨entry, hentry, -, hlonghands⟩ := exists_mem_shorthands houter
  rw [← hlonghands] at houter ⊢
  exact hclosed entry hentry inner houter property hinner

theorem not_mem_longhandsOf_self (property : String) :
    property ∉ longhandsOf property := by
  have hproper : ∀ entry ∈ shorthands, entry.1 ∉ entry.2 := by
    decide +kernel
  intro hmem
  obtain ⟨entry, hentry, hname, hlonghands⟩ := exists_mem_shorthands hmem
  apply hproper entry hentry
  rw [hname, hlonghands]
  exact hmem

/-- Of two shorthands of one property, the outer one comes first by name. -/
theorem shorthands_nested {first second property : String}
    (hfirst : property ∈ longhandsOf first) (hsecond : property ∈ longhandsOf second)
    (hne : first ≠ second) :
    second ∈ longhandsOf first ∧ first < second ∨
      first ∈ longhandsOf second ∧ second < first := by
  have hnested : ∀ first ∈ shorthands, ∀ second ∈ shorthands,
      first.1 ≠ second.1 → (∃ property ∈ first.2, property ∈ second.2) →
        second.1 ∈ first.2 ∧ first.1 < second.1 ∨
          first.1 ∈ second.2 ∧ second.1 < first.1 := by
    decide +kernel
  obtain ⟨first, hmemFirst, rfl, hlonghandsFirst⟩ := exists_mem_shorthands hfirst
  obtain ⟨second, hmemSecond, rfl, hlonghandsSecond⟩ := exists_mem_shorthands hsecond
  rw [← hlonghandsFirst] at hfirst ⊢
  rw [← hlonghandsSecond] at hsecond ⊢
  exact hnested first hmemFirst second hmemSecond hne ⟨property, hfirst, hsecond⟩

theorem longhandsOf_asymm {outer inner : String} (h : inner ∈ longhandsOf outer) :
    outer ∉ longhandsOf inner := by
  intro hswap
  exact not_mem_longhandsOf_self outer (longhandsOf_trans h hswap)

theorem lt_of_mem_longhandsOf {outer inner property : String}
    (houter : inner ∈ longhandsOf outer) (hinner : property ∈ longhandsOf inner) :
    outer < inner := by
  have hne : outer ≠ inner := by
    rintro rfl
    exact not_mem_longhandsOf_self outer houter
  rcases shorthands_nested (longhandsOf_trans houter hinner) hinner hne with
    ⟨-, hlt⟩ | ⟨hswap, -⟩
  · exact hlt
  · exact (longhandsOf_asymm houter hswap).elim

namespace Merge

theorem precedes_total (left right : Declaration) :
    precedes left right || precedes right left := by
  rw [precedes, precedes]
  have htotal := String.le_total left.property right.property
  cases isVendorPrefixed left.property <;> cases isVendorPrefixed right.property <;>
    simp [htotal]

theorem precedes_trans {first second third : Declaration}
    (hfirst : precedes first second) (hsecond : precedes second third) :
    precedes first third := by
  simp only [precedes] at hfirst hsecond ⊢
  generalize isVendorPrefixed first.property = firstVendor at hfirst ⊢
  generalize isVendorPrefixed second.property = secondVendor at hfirst hsecond
  generalize isVendorPrefixed third.property = thirdVendor at hsecond ⊢
  cases firstVendor <;> cases secondVendor <;> cases thirdVendor <;>
    simp only [decide_eq_true_eq, Bool.false_eq_true] at hfirst hsecond ⊢
  all_goals exact String.le_trans hfirst hsecond

def Before (left right : Declaration) : Prop :=
  isVendorPrefixed left.property = true ∧ isVendorPrefixed right.property = false ∨
    isVendorPrefixed left.property = isVendorPrefixed right.property ∧
      left.property < right.property

theorem before_of_precedes {left right : Declaration} (h : precedes left right)
    (hne : left.property ≠ right.property) : Before left right := by
  have hlt (hle : left.property ≤ right.property) : left.property < right.property := by
    apply String.not_le.mp
    intro hge
    exact hne (String.le_antisymm hle hge)
  rw [precedes] at h
  rw [Before]
  cases hleft : isVendorPrefixed left.property <;>
    cases hright : isVendorPrefixed right.property <;>
    simp_all

/-- The last important declaration, or the last one if none is important. -/
def strongest (declarations : List Declaration) : Option Declaration :=
  (declarations.filter (·.important)).getLast?.or declarations.getLast?

theorem getLast?_filter_important (declarations : List Declaration) :
    (declarations.filter (·.important)).getLast? =
      (strongest declarations).filter (·.important) := by
  rw [strongest]
  cases himportant : (declarations.filter (·.important)).getLast? with
  | some declaration =>
      have hmem := List.mem_filter.mp (List.mem_of_getLast? himportant)
      rw [Option.some_or, Option.filter_some_pos hmem.2]
  | none =>
      rw [Option.none_or, eq_comm, Option.filter_eq_none_iff]
      intro declaration hlast hdeclaration
      rw [List.getLast?_eq_none_iff, List.filter_eq_nil_iff] at himportant
      exact himportant declaration (List.mem_of_getLast? hlast) hdeclaration

/-! The order of what is kept does not show, since it is sorted in the end. It is easier to follow
if a declaration that replaces another one stands behind all others, in the order of reading. -/

def replaceLast (kept : List Declaration) (declaration : Declaration) : List Declaration :=
  kept.filter (·.property != declaration.property) ++ [declaration]

def replaceLastUnlessImportant (kept : List Declaration) (declaration : Declaration) :
    List Declaration :=
  if kept.any fun earlier =>
      earlier.property == declaration.property && prevails earlier declaration
  then kept
  else replaceLast kept declaration

def addLast : MergeStrategy → List Declaration → Declaration → List Declaration
  | .lastWins, kept, declaration => replaceLast kept declaration
  | .firstWins, kept, declaration => keepFirst kept declaration
  | .importantWins, kept, declaration => replaceLastUnlessImportant kept declaration
  | .smart, kept, declaration =>
      replaceLastUnlessImportant (evictLonghands kept declaration) declaration

theorem replaceLast_cases (kept : List Declaration) (declaration : Declaration) :
    ∃ others, others.Sublist kept ∧
      (∀ other ∈ others, other.property ≠ declaration.property) ∧
      replaceLast kept declaration = others ++ [declaration] := by
  refine ⟨kept.filter (·.property != declaration.property), List.filter_sublist, ?_, rfl⟩
  intro other hother
  exact bne_iff_ne.mp (List.mem_filter.mp hother).2

theorem replaceLastUnlessImportant_cases (kept : List Declaration) (declaration : Declaration) :
    (replaceLastUnlessImportant kept declaration).Sublist kept ∨
      ∃ others, others.Sublist kept ∧
        (∀ other ∈ others, other.property ≠ declaration.property) ∧
        replaceLastUnlessImportant kept declaration = others ++ [declaration] := by
  rw [replaceLastUnlessImportant]
  split
  · exact .inl (List.Sublist.refl kept)
  · exact .inr (replaceLast_cases kept declaration)

theorem evictLonghands_sublist (kept : List Declaration) (declaration : Declaration) :
    (evictLonghands kept declaration).Sublist kept :=
  List.filter_sublist

/-- Adding a declaration drops some of those before it, and then puts it behind the others or not
at all. -/
theorem addLast_cases (strategy : MergeStrategy) (kept : List Declaration)
    (declaration : Declaration) :
    (addLast strategy kept declaration).Sublist kept ∨
      ∃ others, others.Sublist kept ∧
        (∀ other ∈ others, other.property ≠ declaration.property) ∧
        addLast strategy kept declaration = others ++ [declaration] := by
  cases strategy with
  | lastWins => exact .inr (replaceLast_cases kept declaration)
  | firstWins =>
      rw [addLast, keepFirst]
      split
      · exact .inl (List.Sublist.refl kept)
      · rename_i hany
        refine .inr ⟨kept, List.Sublist.refl kept, ?_, rfl⟩
        simpa using hany
  | importantWins => exact replaceLastUnlessImportant_cases kept declaration
  | smart =>
      have hevicted := evictLonghands_sublist kept declaration
      rcases replaceLastUnlessImportant_cases (evictLonghands kept declaration) declaration with
        hfewer | ⟨others, hothers, hne, heq⟩
      · exact .inl (hfewer.trans hevicted)
      · exact .inr ⟨others, hothers.trans hevicted, hne, heq⟩

theorem foldl_addLast_sublist (strategy : MergeStrategy) (declarations : List Declaration) :
    (declarations.foldl (addLast strategy) []).Sublist declarations := by
  induction declarations using List.reverseRecOn with
  | nil => exact List.Sublist.refl []
  | append_singleton declarations declaration ih =>
      rw [List.foldl_append, List.foldl_cons, List.foldl_nil]
      rcases addLast_cases strategy (declarations.foldl (addLast strategy) []) declaration with
        hfewer | ⟨others, hothers, -, heq⟩
      · exact (hfewer.trans ih).trans (List.sublist_append_left declarations [declaration])
      · rw [heq]
        exact (hothers.trans ih).append (List.Sublist.refl [declaration])

def Distinct (kept : List Declaration) : Prop :=
  kept.Pairwise fun earlier later => earlier.property ≠ later.property

theorem distinct_foldl_addLast (strategy : MergeStrategy) (declarations : List Declaration) :
    Distinct (declarations.foldl (addLast strategy) []) := by
  induction declarations using List.reverseRecOn with
  | nil => exact .nil
  | append_singleton declarations declaration ih =>
      rw [List.foldl_append, List.foldl_cons, List.foldl_nil]
      rcases addLast_cases strategy (declarations.foldl (addLast strategy) []) declaration with
        hfewer | ⟨others, hothers, hne, heq⟩
      · exact ih.sublist hfewer
      · rw [heq, Distinct, List.pairwise_append]
        refine ⟨ih.sublist hothers, List.pairwise_singleton _ _, ?_⟩
        intro other hother later hlater
        cases List.mem_singleton.mp hlater
        exact hne other hother

/-! Replacing in place keeps the same declarations. -/

theorem replace_perm {kept : List Declaration} (h : Distinct kept) (declaration : Declaration) :
    (replace kept declaration).Perm (replaceLast kept declaration) := by
  rw [replaceLast]
  induction kept with
  | nil => exact .refl _
  | cons earlier rest ih =>
      obtain ⟨hearlier, hrest⟩ := List.pairwise_cons.mp h
      rw [replace]
      split
      · rename_i hproperty
        -- no other declaration of the property is left to drop
        have hothers : rest.filter (·.property != declaration.property) = rest := by
          apply List.filter_eq_self.mpr
          intro other hother
          rw [← hproperty]
          exact bne_iff_ne.mpr (hearlier other hother).symm
        rw [List.filter_cons_of_neg (by simp [hproperty]), hothers]
        exact (List.perm_append_singleton ..).symm
      · rename_i hproperty
        rw [List.filter_cons_of_pos (by simp [hproperty]), List.cons_append]
        exact (ih hrest).cons earlier

section Perm

variable {kept line : List Declaration} (hperm : kept.Perm line) (hline : Distinct line)
  (declaration : Declaration)

include hperm hline

theorem replace_perm_replaceLast :
    (replace kept declaration).Perm (replaceLast line declaration) := by
  have hkept : Distinct kept := hperm.symm.pairwise hline Ne.symm
  exact (replace_perm hkept declaration).trans ((hperm.filter _).append_right _)

theorem replaceUnlessImportant_perm :
    (replaceUnlessImportant kept declaration).Perm
      (replaceLastUnlessImportant line declaration) := by
  rw [replaceUnlessImportant, replaceLastUnlessImportant, hperm.any_eq]
  split
  · exact hperm
  · exact replace_perm_replaceLast hperm hline declaration

theorem add_perm_addLast (strategy : MergeStrategy) :
    (add strategy kept declaration).Perm (addLast strategy line declaration) := by
  cases strategy with
  | lastWins => exact replace_perm_replaceLast hperm hline declaration
  | firstWins =>
      rw [add, addLast, keepFirst, keepFirst, hperm.any_eq]
      split
      · exact hperm
      · exact hperm.append_right _
  | importantWins => exact replaceUnlessImportant_perm hperm hline declaration
  | smart =>
      exact replaceUnlessImportant_perm (hperm.filter _) (hline.sublist List.filter_sublist)
        declaration

end Perm

theorem foldl_add_perm (strategy : MergeStrategy) (declarations : List Declaration) :
    (declarations.foldl (add strategy) []).Perm
      (declarations.foldl (addLast strategy) []) := by
  induction declarations using List.reverseRecOn with
  | nil => exact .refl _
  | append_singleton declarations declaration ih =>
      rw [List.foldl_append, List.foldl_append]
      exact add_perm_addLast ih (distinct_foldl_addLast strategy declarations) declaration strategy

/-! Declarations without vendor names. -/

def Unprefixed (declarations : List Declaration) : Prop :=
  ∀ declaration ∈ declarations, isVendorPrefixed declaration.property = false

theorem unprefixed_append_singleton {declarations : List Declaration}
    {declaration : Declaration} :
    Unprefixed (declarations ++ [declaration]) ↔
      Unprefixed declarations ∧ isVendorPrefixed declaration.property = false := by
  simp [Unprefixed, or_imp, forall_and]

theorem withoutVendor_eq_self {property : String}
    (h : isVendorPrefixed property = false) : withoutVendor property = property := by
  simp [withoutVendor, h]

theorem evictLonghands_eq {kept : List Declaration} {declaration : Declaration}
    (hkept : Unprefixed kept)
    (hdeclaration : isVendorPrefixed declaration.property = false) :
    evictLonghands kept declaration = kept.filter fun earlier =>
      !(longhandsOf declaration.property).contains earlier.property ||
        prevails earlier declaration := by
  rw [evictLonghands]
  apply List.filter_congr
  intro earlier hearlier
  rw [withoutVendor_eq_self (hkept earlier hearlier),
    withoutVendor_eq_self hdeclaration]

theorem mem_evictLonghands_of_property_eq {kept : List Declaration}
    {earlier declaration : Declaration} (hmem : earlier ∈ kept)
    (hproperty : earlier.property = declaration.property) :
    earlier ∈ evictLonghands kept declaration := by
  refine List.mem_filter.mpr ⟨hmem, ?_⟩
  rw [hproperty]
  simp [not_mem_longhandsOf_self]

/-- Adding a declaration keeps some of those before it, and itself unless one prevails. -/
theorem addLast_smart_cases (kept : List Declaration) (declaration : Declaration) :
    (∃ earlier ∈ kept, earlier.property = declaration.property ∧
        prevails earlier declaration) ∧
      addLast .smart kept declaration = evictLonghands kept declaration ∨
    (∀ earlier ∈ evictLonghands kept declaration,
        earlier.property = declaration.property → ¬ prevails earlier declaration) ∧
      addLast .smart kept declaration =
        (evictLonghands kept declaration).filter
          (·.property != declaration.property) ++ [declaration] := by
  rw [addLast, replaceLastUnlessImportant]
  split
  · rename_i hany
    obtain ⟨earlier, hearlier, htest⟩ := List.any_eq_true.mp hany
    rw [Bool.and_eq_true, beq_iff_eq] at htest
    exact .inl ⟨⟨earlier, (evictLonghands_sublist ..).subset hearlier, htest⟩, rfl⟩
  · rename_i hany
    refine .inr ⟨?_, rfl⟩
    intro earlier hearlier hproperty hprevails
    apply hany
    apply List.any_eq_true.mpr
    exact ⟨earlier, hearlier, by rw [hprevails, hproperty]; simp⟩

theorem mem_of_mem_foldl_addLast_smart {declarations : List Declaration}
    {candidate : Declaration}
    (h : candidate ∈ declarations.foldl (addLast .smart) []) :
    candidate ∈ declarations :=
  (foldl_addLast_sublist .smart declarations).subset h

/-! What is kept has one declaration per property, and a longhand stands before its shorthand only
if it prevails. -/

structure Settled (kept : List Declaration) : Prop where
  distinct : Distinct kept
  ordered : kept.Pairwise fun earlier later =>
    earlier.property ∈ longhandsOf later.property → prevails earlier later

theorem Settled.sublist {kept fewer : List Declaration} (h : Settled kept)
    (hsublist : fewer.Sublist kept) : Settled fewer :=
  ⟨h.distinct.sublist hsublist, h.ordered.sublist hsublist⟩

theorem prevails_of_mem_evictLonghands {kept : List Declaration}
    {earlier declaration : Declaration} (hkept : Unprefixed kept)
    (hdeclaration : isVendorPrefixed declaration.property = false)
    (hmem : earlier ∈ evictLonghands kept declaration)
    (hlonghand : earlier.property ∈ longhandsOf declaration.property) :
    prevails earlier declaration := by
  rw [evictLonghands_eq hkept hdeclaration, List.mem_filter] at hmem
  simpa [hlonghand] using hmem.2

theorem ordered_addLast_smart {kept : List Declaration} {declaration : Declaration}
    (h : kept.Pairwise fun earlier later =>
      earlier.property ∈ longhandsOf later.property → prevails earlier later)
    (hkept : Unprefixed kept)
    (hdeclaration : isVendorPrefixed declaration.property = false) :
    (addLast .smart kept declaration).Pairwise fun earlier later =>
      earlier.property ∈ longhandsOf later.property → prevails earlier later := by
  have hevicted := h.sublist (evictLonghands_sublist kept declaration)
  rcases addLast_smart_cases kept declaration with ⟨-, heq⟩ | ⟨-, heq⟩
  · rw [heq]
    exact hevicted
  · rw [heq, List.pairwise_append]
    refine ⟨hevicted.sublist List.filter_sublist, List.pairwise_singleton _ _, ?_⟩
    intro earlier hearlier later hlater hlonghand
    cases List.mem_singleton.mp hlater
    exact prevails_of_mem_evictLonghands hkept hdeclaration (List.mem_filter.mp hearlier).1
      hlonghand

theorem settled_foldl_addLast_smart {declarations : List Declaration}
    (hunprefixed : Unprefixed declarations) :
    Settled (declarations.foldl (addLast .smart) []) := by
  refine ⟨distinct_foldl_addLast .smart declarations, ?_⟩
  induction declarations using List.reverseRecOn with
  | nil => exact .nil
  | append_singleton declarations declaration ih =>
      obtain ⟨hdeclarations, hdeclaration⟩ := unprefixed_append_singleton.mp hunprefixed
      rw [List.foldl_append, List.foldl_cons, List.foldl_nil]
      apply ordered_addLast_smart (ih hdeclarations)
      · intro candidate hmem
        exact hdeclarations candidate (mem_of_mem_foldl_addLast_smart hmem)
      · exact hdeclaration

/-! A property that is no shorthand evicts nothing, so leaving it out leaves the rest as it is. -/

theorem filter_evictLonghands (kept : List Declaration) (declaration : Declaration)
    (test : Declaration → Bool) :
    (evictLonghands kept declaration).filter test =
      evictLonghands (kept.filter test) declaration := by
  rw [evictLonghands, evictLonghands, List.filter_filter, List.filter_filter]
  simp only [Bool.and_comm]

theorem evictLonghands_of_longhandsOf_eq_nil {kept : List Declaration}
    {declaration : Declaration}
    (hdeclaration : isVendorPrefixed declaration.property = false)
    (hlonghands : longhandsOf declaration.property = []) :
    evictLonghands kept declaration = kept := by
  rw [evictLonghands, withoutVendor_eq_self hdeclaration, hlonghands]
  simp

theorem filter_addLast_smart_self {kept : List Declaration} {declaration : Declaration}
    (hdeclaration : isVendorPrefixed declaration.property = false)
    (hlonghands : longhandsOf declaration.property = []) :
    (addLast .smart kept declaration).filter (·.property != declaration.property) =
      kept.filter (·.property != declaration.property) := by
  have hevicted : evictLonghands kept declaration = kept :=
    evictLonghands_of_longhandsOf_eq_nil hdeclaration hlonghands
  rcases addLast_smart_cases kept declaration with ⟨-, heq⟩ | ⟨-, heq⟩
  · rw [heq, hevicted]
  · rw [heq, hevicted, List.filter_append, List.filter_filter]
    simp

theorem filter_addLast_smart_ne {kept : List Declaration} {declaration : Declaration}
    {property : String} (hne : declaration.property ≠ property) :
    (addLast .smart kept declaration).filter (·.property != property) =
      addLast .smart (kept.filter (·.property != property)) declaration := by
  rw [addLast, addLast, replaceLastUnlessImportant, replaceLastUnlessImportant,
    ← filter_evictLonghands]
  -- Whoever blocks the declaration has its property, so it passes the filter.
  have hany : ((evictLonghands kept declaration).filter (·.property != property)).any
      (fun earlier =>
        earlier.property == declaration.property && prevails earlier declaration) =
      (evictLonghands kept declaration).any (fun earlier =>
        earlier.property == declaration.property && prevails earlier declaration) := by
    rw [List.any_filter]
    congr 1
    funext earlier
    by_cases hearlier : earlier.property = declaration.property
    · simp [hearlier, hne]
    · simp [hearlier]
  rw [hany]
  split
  · rfl
  · rw [replaceLast, replaceLast, List.filter_append, List.filter_filter, List.filter_filter]
    simp [hne, Bool.and_comm]

theorem filter_foldl_addLast_smart {declarations : List Declaration} {property : String}
    (hunprefixed : Unprefixed declarations) (hlonghands : longhandsOf property = []) :
    (declarations.foldl (addLast .smart) []).filter (·.property != property) =
      (declarations.filter (·.property != property)).foldl (addLast .smart) [] := by
  induction declarations using List.reverseRecOn with
  | nil => rfl
  | append_singleton declarations declaration ih =>
      obtain ⟨hdeclarations, hdeclaration⟩ := unprefixed_append_singleton.mp hunprefixed
      rw [List.foldl_append, List.foldl_cons, List.foldl_nil, List.filter_append,
        List.foldl_append, ← ih hdeclarations]
      by_cases hproperty : declaration.property = property
      · subst hproperty
        rw [filter_addLast_smart_self hdeclaration hlonghands]
        simp
      · rw [filter_addLast_smart_ne hproperty]
        simp [hproperty]

end Merge

theorem mergeDeclarations_perm (strategy : MergeStrategy)
    (declarations : List Declaration) :
    (mergeDeclarations strategy declarations).Perm
      (declarations.foldl (Merge.addLast strategy) []) := by
  rw [mergeDeclarations]
  exact (List.mergeSort_perm ..).trans (Merge.foldl_add_perm strategy declarations)

theorem pairwise_precedes_mergeDeclarations (strategy : MergeStrategy)
    (declarations : List Declaration) :
    (mergeDeclarations strategy declarations).Pairwise fun left right =>
      Merge.precedes left right := by
  rw [mergeDeclarations]
  refine List.pairwise_mergeSort ?_ ?_ _
  · intro first second third
    exact Merge.precedes_trans
  · exact Merge.precedes_total

theorem distinct_mergeDeclarations (strategy : MergeStrategy)
    (declarations : List Declaration) :
    Merge.Distinct (mergeDeclarations strategy declarations) :=
  (mergeDeclarations_perm strategy declarations).symm.pairwise
    (Merge.distinct_foldl_addLast strategy declarations) Ne.symm

theorem pairwise_before_mergeDeclarations (strategy : MergeStrategy)
    (declarations : List Declaration) :
    (mergeDeclarations strategy declarations).Pairwise Merge.Before := by
  refine ((pairwise_precedes_mergeDeclarations strategy declarations).and
    (distinct_mergeDeclarations strategy declarations)).imp ?_
  rintro left right ⟨hprecedes, hne⟩
  exact Merge.before_of_precedes hprecedes hne

theorem pairwise_lt_mergeDeclarations_smart {declarations : List Declaration}
    (hunprefixed : Merge.Unprefixed declarations) :
    (mergeDeclarations .smart declarations).Pairwise fun earlier later =>
      earlier.property < later.property := by
  have hwritten : Merge.Unprefixed (mergeDeclarations .smart declarations) :=
    fun candidate hmem => hunprefixed candidate (Merge.mem_of_mem_foldl_addLast_smart
      ((mergeDeclarations_perm .smart declarations).mem_iff.mp hmem))
  refine (pairwise_before_mergeDeclarations .smart declarations).imp_of_mem ?_
  intro left right hleft _ hbefore
  rcases hbefore with ⟨hvendor, -⟩ | ⟨-, hlt⟩
  · rw [hwritten left hleft] at hvendor
    cases hvendor
  · exact hlt

end AtomicCss.Sheet
