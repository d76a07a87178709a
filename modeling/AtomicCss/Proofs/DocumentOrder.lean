import AtomicCss.Proofs.Grouping

/-!
The document order of grouped rules. Two rules stand in the order in which their branches were
opened, at the depth where their at-rules part.
-/

namespace AtomicCss.Sheet

section Pair

variable {α : Type} {first second other : α} {list front back : List α}

theorem ne_of_pair_sublist (hnodup : list.Nodup)
    (h : [first, second].Sublist list) : first ≠ second := by
  have hpair := hnodup.sublist h
  rw [List.nodup_cons, List.mem_singleton] at hpair
  exact hpair.1

theorem pair_sublist_append (hfirst : first ∈ front) (hsecond : second ∈ back) :
    [first, second].Sublist (front ++ back) :=
  (List.singleton_sublist.mpr hfirst).append (List.singleton_sublist.mpr hsecond)

theorem pair_sublist_or_swap (hne : first ≠ second) (hfirst : first ∈ list)
    (hsecond : second ∈ list) :
    [first, second].Sublist list ∨ [second, first].Sublist list := by
  obtain ⟨front, back, rfl⟩ := List.append_of_mem hfirst
  rw [List.mem_append, List.mem_cons] at hsecond
  rcases hsecond with hfront | rfl | hback
  · exact .inr (pair_sublist_append hfront List.mem_cons_self)
  · exact (hne rfl).elim
  · left
    rw [List.append_cons]
    exact pair_sublist_append (by simp) hback

theorem pair_sublist_of_insert (hfirst : first ≠ other) (hsecond : second ≠ other)
    (hother : other ∉ front ++ back)
    (h : [first, second].Sublist (front ++ other :: back)) :
    [first, second].Sublist (front ++ back) := by
  classical
  have hfilter := h.filter fun candidate => decide (candidate ≠ other)
  have hkept : (front ++ other :: back).filter (fun candidate => decide (candidate ≠ other)) =
      front ++ back := by
    rw [List.filter_append, List.filter_cons_of_neg (by simp), ← List.filter_append]
    rw [List.filter_eq_self]
    intro candidate hcandidate
    rw [decide_eq_true_eq]
    rintro rfl
    exact hother hcandidate
  rw [hkept] at hfilter
  simpa [hfirst, hsecond] using hfilter

theorem pair_sublist_asymm (hnodup : list.Nodup)
    (h : [first, second].Sublist list) : ¬ [second, first].Sublist list := by
  induction list with
  | nil => cases h
  | cons head rest ih =>
      rw [List.nodup_cons] at hnodup
      intro hswap
      cases h with
      | cons _ h =>
          cases hswap with
          | cons _ hswap => exact ih hnodup.2 h hswap
          | cons_cons _ hswap => exact hnodup.1 (h.subset (by simp))
      | cons_cons _ h =>
          cases hswap with
          | cons _ hswap => exact hnodup.1 (hswap.subset (by simp))
          | cons_cons _ hswap => exact hnodup.1 (List.singleton_sublist.mp h)

theorem mem_front_of_pair_sublist (hnodup : (front ++ other :: back).Nodup)
    (h : [first, other].Sublist (front ++ other :: back)) : first ∈ front := by
  have hfirst : first ∈ front ++ other :: back := h.subset (by simp)
  rw [List.mem_append, List.mem_cons] at hfirst
  rcases hfirst with hfront | heq | hback
  · exact hfront
  · exact (ne_of_pair_sublist hnodup h heq).elim
  · rw [List.append_cons] at h hnodup
    exact (pair_sublist_asymm hnodup h (pair_sublist_append (by simp) hback)).elim

theorem mem_back_of_pair_sublist (hnodup : (front ++ other :: back).Nodup)
    (h : [other, second].Sublist (front ++ other :: back)) : second ∈ back := by
  have hsecond : second ∈ front ++ other :: back := h.subset (by simp)
  rw [List.mem_append, List.mem_cons] at hsecond
  rcases hsecond with hfront | heq | hback
  · exact (pair_sublist_asymm hnodup h
      (pair_sublist_append hfront List.mem_cons_self)).elim
  · exact (ne_of_pair_sublist hnodup h heq.symm).elim
  · exact hback

end Pair

/-! A branch is opened by the first rule that goes deeper than `depth` along the at-rules of a rule,
or by the rule itself. -/

def branchStart [DecidableEq α] (chain : α → List AtRule) (rules : List α)
    (depth : Nat) (rule : α) : Nat :=
  rules.findIdx fun other =>
    decide (other = rule ∨ depth < sharedDepth (chain other) (chain rule))

theorem length_lt_findIdx_iff (test : α → Bool) (front back : List α) (middle : α) :
    front.length < (front ++ middle :: back).findIdx test ↔
      ∀ other ∈ front ++ [middle], test other = false := by
  rw [List.append_cons, List.findIdx_append, ← List.findIdx_eq_length]
  have hle : (front ++ [middle]).findIdx test ≤ (front ++ [middle]).length :=
    List.findIdx_le_length
  rw [List.length_append, List.length_singleton] at hle ⊢
  split <;> omega

theorem exists_split_findIdx (test : α → Bool) {list : List α}
    (h : ∃ element ∈ list, test element) :
    ∃ front middle back, list = front ++ middle :: back ∧
      front.length = list.findIdx test ∧ test middle := by
  have hlt := List.findIdx_lt_length_of_exists h
  refine ⟨list.take (list.findIdx test), list[list.findIdx test],
    list.drop (list.findIdx test + 1), ?_, ?_, List.findIdx_getElem⟩
  · rw [← List.drop_eq_getElem_cons hlt, List.take_append_drop]
  · exact List.length_take_of_le (Nat.le_of_lt hlt)

section Branch

variable {α : Type} [DecidableEq α] {chain : α → List AtRule} {rules : List α}
  {rule newcomer : α}

theorem length_lt_branchStart_iff {front back : List α} {opener : α} {depth : Nat} :
    front.length < branchStart chain (front ++ opener :: back) depth rule ↔
      ∀ other ∈ front ++ [opener],
        other ≠ rule ∧ sharedDepth (chain other) (chain rule) ≤ depth := by
  simp only [branchStart, length_lt_findIdx_iff, decide_eq_false_iff_not, not_or,
    Nat.not_lt, ne_eq]

theorem exists_opener (chain : α → List AtRule) (hrule : rule ∈ rules) (depth : Nat) :
    ∃ front opener back, rules = front ++ opener :: back ∧
      front.length = branchStart chain rules depth rule ∧
      (opener = rule ∨ depth < sharedDepth (chain opener) (chain rule)) := by
  obtain ⟨front, opener, back, hrules, hlength, hopener⟩ :=
    exists_split_findIdx
      (fun other => decide (other = rule ∨ depth < sharedDepth (chain other) (chain rule)))
      ⟨rule, hrule, by simp⟩
  exact ⟨front, opener, back, hrules, hlength, of_decide_eq_true hopener⟩

theorem branchStart_lt_length (hrule : rule ∈ rules) (depth : Nat) :
    branchStart chain rules depth rule < rules.length :=
  List.findIdx_lt_length_of_exists ⟨rule, hrule, by simp⟩

theorem branchStart_append_of_mem (hrule : rule ∈ rules) (depth : Nat)
    (others : List α) :
    branchStart chain (rules ++ others) depth rule =
      branchStart chain rules depth rule := by
  have hlt : rules.findIdx (fun other =>
      decide (other = rule ∨ depth < sharedDepth (chain other) (chain rule))) <
        rules.length :=
    branchStart_lt_length hrule depth
  rw [branchStart, List.findIdx_append, if_pos hlt, branchStart]

/-- A newcomer follows a branch that is there. -/
theorem branchStart_newcomer_of_lt (hnew : newcomer ∉ rules) (hrule : rule ∈ rules)
    {depth : Nat} (hdepth : depth < sharedDepth (chain rule) (chain newcomer)) :
    branchStart chain (rules ++ [newcomer]) depth newcomer =
      branchStart chain rules depth rule := by
  have hiff (other : α) (hother : other ∈ rules) :
      (other = newcomer ∨ depth < sharedDepth (chain other) (chain newcomer)) ↔
        (other = rule ∨ depth < sharedDepth (chain other) (chain rule)) := by
    rw [lt_sharedDepth_iff (chain other) hdepth]
    constructor
    · rintro (rfl | hlt)
      · exact (hnew hother).elim
      · exact .inr hlt
    · rintro (rfl | hlt)
      · exact .inr hdepth
      · exact .inr hlt
  have hsame : branchStart chain rules depth newcomer =
      branchStart chain rules depth rule := by
    apply Nat.le_antisymm
    · apply List.findIdx_le_findIdx
      intro other hother h
      exact decide_eq_true ((hiff other hother).mpr (of_decide_eq_true h))
    · apply List.findIdx_le_findIdx
      intro other hother h
      exact decide_eq_true ((hiff other hother).mp (of_decide_eq_true h))
  have hlt : branchStart chain rules depth rule < rules.length :=
    branchStart_lt_length hrule depth
  rw [← hsame] at hlt ⊢
  rw [branchStart] at hlt ⊢
  rw [List.findIdx_append, if_pos hlt, branchStart]

theorem branchStart_newcomer_of_forall_le (hnew : newcomer ∉ rules) {depth : Nat}
    (hdepth : ∀ other ∈ rules, sharedDepth (chain other) (chain newcomer) ≤ depth) :
    branchStart chain (rules ++ [newcomer]) depth newcomer = rules.length := by
  have hnone : ∀ other ∈ rules,
      decide (other = newcomer ∨
        depth < sharedDepth (chain other) (chain newcomer)) = false := by
    intro other hother
    apply decide_eq_false
    rintro (rfl | hlt)
    · exact hnew hother
    · exact Nat.not_lt.mpr (hdepth other hother) hlt
  rw [branchStart, List.findIdx_append, List.findIdx_eq_length_of_false hnone]
  simp

end Branch

theorem Joins.exists_last {chain : α → List AtRule} {wrappers : List AtRule}
    {front back : List α} {other : α} (h : Joins chain wrappers front back)
    (hother : other ∈ front ++ back) :
    ∃ init last, front = init ++ [last] ∧
      (∀ candidate ∈ front,
        sharedDepth (chain candidate) wrappers ≤ sharedDepth (chain last) wrappers) ∧
      ∀ candidate ∈ back,
        sharedDepth (chain candidate) wrappers < sharedDepth (chain last) wrappers := by
  cases hfront : front.getLast? with
  | none =>
      rw [List.getLast?_eq_none_iff] at hfront
      rw [hfront, h.back_eq_nil hfront] at hother
      cases hother
  | some last =>
      obtain ⟨init, hinit⟩ := List.getLast?_eq_some_iff.mp hfront
      exact ⟨init, last, hinit, h.front_le last hfront, h.back_lt last hfront⟩

section Arrangement

variable {α : Type} [DecidableEq α] {chain : α → List AtRule}

/-- Whether rules stand in the order in which their branches were opened. -/
def FollowsBranches (chain : α → List AtRule) (inserted document : List α) : Prop :=
  ∀ first second, [first, second].Sublist document →
    branchStart chain inserted (sharedDepth (chain first) (chain second)) first <
      branchStart chain inserted (sharedDepth (chain first) (chain second)) second

variable {inserted front back : List α} {rule other : α}

theorem FollowsBranches.lt_newcomer
    (horder : FollowsBranches chain inserted (front ++ back))
    (hperm : (front ++ back).Perm inserted) (hnew : rule ∉ inserted)
    (hjoins : Joins chain (chain rule) front back) (hother : other ∈ front) :
    branchStart chain (inserted ++ [rule])
        (sharedDepth (chain other) (chain rule)) other <
      branchStart chain (inserted ++ [rule])
        (sharedDepth (chain other) (chain rule)) rule := by
  have hmem : other ∈ inserted := hperm.mem_iff.mp (List.mem_append_left _ hother)
  obtain ⟨init, last, rfl, hfront, hback⟩ :=
    hjoins.exists_last (List.mem_append_left _ hother)
  have hlast : last ∈ inserted := hperm.mem_iff.mp (by simp)
  rw [branchStart_append_of_mem hmem]
  rcases Nat.lt_or_eq_of_le (hfront other hother) with hlt | heq
  · -- The newcomer is in the branch of `last`, which `other` has left before.
    rw [branchStart_newcomer_of_lt hnew hlast hlt, ← sharedDepth_eq_of_lt hlt]
    apply horder
    have hinit : other ∈ init := by
      rcases List.mem_append.mp hother with hinit | hsingle
      · exact hinit
      · cases List.mem_singleton.mp hsingle
        exact (Nat.lt_irrefl _ hlt).elim
    rw [List.append_assoc]
    exact pair_sublist_append hinit (by simp)
  · -- Nobody shares more with the newcomer than `other` does: it opens a branch of its own.
    rw [branchStart_newcomer_of_forall_le hnew]
    · exact branchStart_lt_length hmem _
    · intro candidate hcandidate
      rw [heq]
      rcases List.mem_append.mp (hperm.mem_iff.mpr hcandidate) with hin | hin
      · exact hfront candidate hin
      · exact Nat.le_of_lt (hback candidate hin)

theorem FollowsBranches.newcomer_lt
    (horder : FollowsBranches chain inserted (front ++ back))
    (hperm : (front ++ back).Perm inserted) (hnew : rule ∉ inserted)
    (hjoins : Joins chain (chain rule) front back) (hother : other ∈ back) :
    branchStart chain (inserted ++ [rule])
        (sharedDepth (chain rule) (chain other)) rule <
      branchStart chain (inserted ++ [rule])
        (sharedDepth (chain rule) (chain other)) other := by
  have hmem : other ∈ inserted := hperm.mem_iff.mp (List.mem_append_right _ hother)
  obtain ⟨init, last, rfl, -, hback⟩ :=
    hjoins.exists_last (List.mem_append_right _ hother)
  have hlast : last ∈ inserted := hperm.mem_iff.mp (by simp)
  have hlt := hback other hother
  rw [sharedDepth_comm, branchStart_append_of_mem hmem,
    branchStart_newcomer_of_lt hnew hlast hlt, ← sharedDepth_eq_of_lt hlt,
    sharedDepth_comm]
  exact horder last other (pair_sublist_append (by simp) hother)

theorem Arranged.followsBranches {document : List α}
    (h : Arranged chain inserted document) (hnodup : inserted.Nodup) :
    FollowsBranches chain inserted document := by
  induction h with
  | nil => exact fun _ _ hpair => nomatch hpair
  | @insert inserted front back rule harranged hjoins ih =>
      intro first second hpair
      have hperm := harranged.perm
      rw [List.nodup_append] at hnodup
      have hnew : rule ∉ inserted := by
        intro hmem
        exact hnodup.2.2 rule hmem rule (by simp) rfl
      have horder := ih hnodup.1
      have hnodupDocument : (front ++ rule :: back).Nodup := by
        rw [(Arranged.insert harranged hjoins).perm.nodup_iff, List.nodup_append]
        exact hnodup
      by_cases hfirst : first = rule
      · subst hfirst
        exact horder.newcomer_lt hperm hnew hjoins
          (mem_back_of_pair_sublist hnodupDocument hpair)
      · by_cases hsecond : second = rule
        · subst hsecond
          exact horder.lt_newcomer hperm hnew hjoins
            (mem_front_of_pair_sublist hnodupDocument hpair)
        · have hold := pair_sublist_of_insert hfirst hsecond
            (fun hmem => hnew (hperm.mem_iff.mp hmem)) hpair
          rw [branchStart_append_of_mem (hperm.mem_iff.mp (hold.subset (by simp))),
            branchStart_append_of_mem (hperm.mem_iff.mp (hold.subset (by simp)))]
          exact horder first second hold

end Arrangement

/-- A later rule comes to stand before an earlier one if it joins a branch that was opened before
the branch of the earlier one. -/
def Overtakes (chain : α → List AtRule) (rules : List α) (earlier later : α) : Prop :=
  ∃ opener, [opener, earlier].Sublist rules ∧
    sharedDepth (chain earlier) (chain later) <
      sharedDepth (chain opener) (chain later) ∧
    ∀ other, [other, opener].Sublist rules →
      sharedDepth (chain other) (chain earlier) ≤
        sharedDepth (chain earlier) (chain later)

section Overtaking

variable {α : Type} {chain : α → List AtRule} {rules : List α} {earlier later : α}

theorem branchStart_lt_of_overtakes [DecidableEq α] (hnodup : rules.Nodup)
    (h : Overtakes chain rules earlier later) :
    branchStart chain rules (sharedDepth (chain earlier) (chain later)) later <
      branchStart chain rules (sharedDepth (chain earlier) (chain later)) earlier := by
  obtain ⟨opener, hopener, hlt, hothers⟩ := h
  generalize hdepth : sharedDepth (chain earlier) (chain later) = depth at hlt hothers ⊢
  obtain ⟨front, back, rfl⟩ := List.append_of_mem (hopener.subset List.mem_cons_self)
  -- The opener separates the two: it is in the branch of `later`, and that of `earlier` is not
  -- open yet.
  have hstart : branchStart chain (front ++ opener :: back) depth later ≤
      front.length := by
    apply Nat.le_of_not_lt
    intro hfront
    have hshallow := (length_lt_branchStart_iff.mp hfront opener (by simp)).2
    exact Nat.not_lt.mpr hshallow hlt
  apply Nat.lt_of_le_of_lt hstart
  apply length_lt_branchStart_iff.mpr
  intro other hother
  constructor
  · rintro rfl
    have hback := mem_back_of_pair_sublist hnodup hopener
    rw [List.append_cons, List.nodup_append] at hnodup
    exact hnodup.2.2 other hother other hback rfl
  · rcases List.mem_append.mp hother with hfront | hsingle
    · exact hothers other (pair_sublist_append hfront List.mem_cons_self)
    · cases List.mem_singleton.mp hsingle
      apply Nat.le_of_not_lt
      intro hdeeper
      rw [sharedDepth_comm] at hdeeper
      exact Nat.lt_irrefl _ (hdepth ▸ lt_sharedDepth_trans hdeeper hlt)

theorem overtakes_of_branchStart_lt [DecidableEq α] (hnodup : rules.Nodup)
    (hpair : [earlier, later].Sublist rules)
    (hlt : branchStart chain rules (sharedDepth (chain earlier) (chain later)) later <
      branchStart chain rules (sharedDepth (chain earlier) (chain later)) earlier) :
    Overtakes chain rules earlier later := by
  have hearlier : earlier ∈ rules := hpair.subset (by simp)
  have hlater : later ∈ rules := hpair.subset (by simp)
  rw [Overtakes]
  generalize sharedDepth (chain earlier) (chain later) = depth at hlt ⊢
  obtain ⟨front, opener, back, rfl, hlength, hopener⟩ := exists_opener chain hlater depth
  rw [← hlength, length_lt_branchStart_iff] at hlt
  have hback : earlier ∈ back := by
    rw [List.append_cons, List.mem_append] at hearlier
    exact hearlier.resolve_left fun hmem => (hlt earlier hmem).1 rfl
  have hopenerPair : [opener, earlier].Sublist (front ++ opener :: back) := by
    rw [List.append_cons]
    exact pair_sublist_append (by simp) hback
  refine ⟨opener, hopenerPair, ?_, ?_⟩
  · rcases hopener with rfl | hdeeper
    · exact (pair_sublist_asymm hnodup hpair hopenerPair).elim
    · exact hdeeper
  · intro other hother
    have hfront := mem_front_of_pair_sublist hnodup hother
    exact (hlt other (List.mem_append_left _ hfront)).2

theorem Arranged.sublist_iff {document : List α}
    (h : Arranged chain rules document) (hnodup : rules.Nodup)
    (hpair : [earlier, later].Sublist rules) :
    [earlier, later].Sublist document ↔ ¬ Overtakes chain rules earlier later := by
  classical
  have horder := h.followsBranches hnodup
  constructor
  · intro hkept hovertakes
    have hlt := branchStart_lt_of_overtakes hnodup hovertakes
    exact Nat.lt_asymm hlt (horder earlier later hkept)
  · intro hnot
    have hearlier : earlier ∈ document := h.perm.mem_iff.mpr (hpair.subset (by simp))
    have hlater : later ∈ document := h.perm.mem_iff.mpr (hpair.subset (by simp))
    rcases pair_sublist_or_swap (ne_of_pair_sublist hnodup hpair) hearlier hlater
      with hkept | hswap
    · exact hkept
    · have hlt := horder later earlier hswap
      rw [sharedDepth_comm] at hlt
      exact (hnot (overtakes_of_branchStart_lt hnodup hpair hlt)).elim

/-- A rule outside all at-rules is overtaken by whatever joins a block in front of it. -/
theorem overtakes_iff_of_chain_eq_nil (h : chain earlier = []) :
    Overtakes chain rules earlier later ↔
      ∃ opener, [opener, earlier].Sublist rules ∧
        0 < sharedDepth (chain opener) (chain later) := by
  simp [Overtakes, h]

/-- Nothing goes further along the at-rules of `later` than a rule inside all of them. -/
theorem not_overtakes_of_prefix (h : chain later <+: chain earlier) :
    ¬ Overtakes chain rules earlier later := by
  rintro ⟨opener, -, hlt, -⟩
  have hle := sharedDepth_le_length (chain later) (chain opener)
  rw [sharedDepth_comm (chain opener), sharedDepth_eq_length_of_prefix h] at hlt
  omega

end Overtaking

end AtomicCss.Sheet
