import AtomicCss.Sheet.Node
import Mathlib.Data.List.Induction

/-!
Rules are grouped under shared at-rules. Reading them back in document order shows where each rule
went: right behind the last rule that shares most of its at-rules with it.
-/

namespace AtomicCss.Sheet

/-- A style rule and the at-rules around it, outermost first. -/
structure PlacedRule where
  wrappers : List AtRule
  selector : String
  children : List Node

namespace PlacedRule

def node (rule : PlacedRule) : Node :=
  .rule rule.selector rule.children

def within (head : AtRule) (rule : PlacedRule) : PlacedRule :=
  { rule with wrappers := head :: rule.wrappers }

@[simp] theorem wrappers_within (head : AtRule) (rule : PlacedRule) :
    (rule.within head).wrappers = head :: rule.wrappers :=
  rfl

end PlacedRule

mutual

def Node.placedRules : Node → List PlacedRule
  | .declaration _ => []
  | .rule selector children => [⟨[], selector, children⟩]
  | .atRule head children => (placedRules children).map (PlacedRule.within head)

def placedRules : List Node → List PlacedRule
  | [] => []
  | node :: rest => node.placedRules ++ placedRules rest

end

@[simp] theorem placedRules_append (first second : List Node) :
    placedRules (first ++ second) = placedRules first ++ placedRules second := by
  induction first with
  | nil => rfl
  | cons node rest ih => simp [placedRules, ih]

def insertAll (rules : List PlacedRule) : List Node :=
  rules.foldl (fun nodes rule => insertWrapped rule.wrappers rule.node nodes) []

theorem insertAll_append_singleton (rules : List PlacedRule) (rule : PlacedRule) :
    insertAll (rules ++ [rule]) =
      insertWrapped rule.wrappers rule.node (insertAll rules) := by
  simp [insertAll]

/-! The number of outermost at-rules that two rules have in common. -/

def sharedDepth : List AtRule → List AtRule → Nat
  | first :: rest, other :: others =>
      if first = other then sharedDepth rest others + 1 else 0
  | _, _ => 0

section SharedDepth

variable {depth : Nat} {first second third : List AtRule}

@[simp] theorem sharedDepth_nil_left (wrappers : List AtRule) :
    sharedDepth [] wrappers = 0 := by
  simp [sharedDepth]

@[simp] theorem sharedDepth_nil_right (wrappers : List AtRule) :
    sharedDepth wrappers [] = 0 := by
  cases wrappers <;> rfl

@[simp] theorem sharedDepth_cons_self (head : AtRule)
    (first second : List AtRule) :
    sharedDepth (head :: first) (head :: second) = sharedDepth first second + 1 := by
  simp [sharedDepth]

theorem sharedDepth_le_length (first second : List AtRule) :
    sharedDepth first second ≤ first.length := by
  fun_induction sharedDepth first second with
  | case1 head rest others ih =>
      rw [List.length_cons]
      omega
  | case2 => omega
  | case3 => omega

theorem sharedDepth_comm (first second : List AtRule) :
    sharedDepth first second = sharedDepth second first := by
  fun_induction sharedDepth first second with
  | case1 head rest others ih => simp [ih]
  | case2 head rest other others hne => simp [sharedDepth, Ne.symm hne]
  | case3 first second hcons =>
      cases first with
      | nil => simp
      | cons head rest =>
          cases second with
          | nil => simp
          | cons other others => exact (hcons _ _ _ _ rfl rfl).elim

theorem sharedDepth_eq_length_of_prefix (h : second <+: first) :
    sharedDepth first second = second.length := by
  obtain ⟨rest, rfl⟩ := h
  induction second with
  | nil => simp
  | cons head second ih => simp [ih]

theorem sharedDepth_pos_iff :
    0 < sharedDepth first second ↔
      ∃ head, first.head? = some head ∧ second.head? = some head := by
  cases first with
  | nil => simp
  | cons head rest =>
      cases second with
      | nil => simp
      | cons other others =>
          by_cases heq : head = other
          · simp [heq]
          · simp [sharedDepth, heq, Ne.symm heq]

theorem lt_sharedDepth_trans (hfirst : depth < sharedDepth first second)
    (hsecond : depth < sharedDepth second third) :
    depth < sharedDepth first third := by
  induction second generalizing first third depth with
  | nil => simp at hfirst
  | cons head rest ih =>
      cases first with
      | nil => simp at hfirst
      | cons other others =>
          cases third with
          | nil => simp at hsecond
          | cons last lasts =>
              simp only [sharedDepth] at hfirst hsecond ⊢
              split at hfirst <;> split at hsecond <;> try omega
              subst_vars
              cases depth with
              | zero => simp
              | succ depth =>
                  have := ih (Nat.lt_of_succ_lt_succ hfirst)
                    (Nat.lt_of_succ_lt_succ hsecond)
                  simpa using this

theorem lt_sharedDepth_iff (wrappers : List AtRule)
    (h : depth < sharedDepth first second) :
    depth < sharedDepth wrappers first ↔ depth < sharedDepth wrappers second := by
  constructor
  · intro hfirst
    exact lt_sharedDepth_trans hfirst h
  · intro hsecond
    rw [sharedDepth_comm] at h
    exact lt_sharedDepth_trans hsecond h

/-- A rule parts from two rules at the same depth if they stay together for longer. -/
theorem sharedDepth_eq_of_lt {wrappers : List AtRule}
    (h : sharedDepth wrappers second < sharedDepth first second) :
    sharedDepth wrappers first = sharedDepth wrappers second := by
  apply Nat.le_antisymm
  · apply Nat.le_of_not_lt
    intro hlt
    exact Nat.lt_irrefl _ (lt_sharedDepth_trans hlt h)
  · apply Nat.le_of_not_lt
    intro hlt
    rw [sharedDepth_comm first] at h
    exact Nat.lt_irrefl _ (lt_sharedDepth_trans hlt (Nat.lt_trans hlt h))

end SharedDepth

/-! A sheet is tidy if sibling at-rules have different heads and none is empty. -/

def Node.head? : Node → Option AtRule
  | .atRule head _ => some head
  | _ => none

def heads (nodes : List Node) : List AtRule :=
  nodes.filterMap Node.head?

@[simp] theorem heads_cons_atRule (head : AtRule) (children rest : List Node) :
    heads (.atRule head children :: rest) = head :: heads rest :=
  rfl

theorem heads_cons_of_head?_eq_none {node : Node} (h : node.head? = none)
    (rest : List Node) : heads (node :: rest) = heads rest := by
  simp [heads, h]

mutual

def Node.Tidy : Node → Prop
  | .atRule _ children => placedRules children ≠ [] ∧ Tidy children
  | _ => True

def Tidy : List Node → Prop
  | [] => True
  | node :: rest =>
      node.Tidy ∧ (∀ head, node.head? = some head → head ∉ heads rest) ∧ Tidy rest

end

theorem heads_append_rule (nodes : List Node) (rule : PlacedRule) :
    heads (nodes ++ [rule.node]) = heads nodes := by
  simp [heads, PlacedRule.node, Node.head?]

theorem tidy_append_rule {nodes : List Node} (htidy : Tidy nodes)
    (rule : PlacedRule) : Tidy (nodes ++ [rule.node]) := by
  induction nodes with
  | nil => simp [Tidy, Node.Tidy, PlacedRule.node, heads]
  | cons node rest ih =>
      obtain ⟨hnode, hheads, hrest⟩ := htidy
      refine ⟨hnode, ?_, ih hrest⟩
      intro head hhead
      change head ∉ heads (rest ++ [rule.node])
      rw [heads_append_rule]
      exact hheads head hhead

/-- Placing something under an at-rule opens it only if it is not there. -/
theorem heads_placeUnder (head : AtRule) (change : List Node → List Node)
    (nodes : List Node) :
    heads (placeUnder head change nodes) =
      if head ∈ heads nodes then heads nodes else heads nodes ++ [head] := by
  fun_induction placeUnder head change nodes with
  | case1 => rfl
  | case2 rest children => simp
  | case3 rest other children hne ih =>
      simp only [heads_cons_atRule, ih, List.mem_cons, Ne.symm hne, false_or]
      split <;> rfl
  | case4 node rest hnode ih =>
      have hhead : node.head? = none := by
        cases node with
        | atRule other children => exact (hnode other children rfl).elim
        | declaration content => rfl
        | rule selector children => rfl
      simp only [heads_cons_of_head?_eq_none hhead, ih]

theorem tidy_placeUnder {head : AtRule} {change : List Node → List Node}
    (hchange : ∀ children, Tidy children →
      placedRules (change children) ≠ [] ∧ Tidy (change children))
    {nodes : List Node} (htidy : Tidy nodes) :
    Tidy (placeUnder head change nodes) := by
  induction nodes with
  | nil =>
      refine ⟨hchange [] trivial, ?_, trivial⟩
      intro other _
      exact List.not_mem_nil
  | cons node rest ih =>
      obtain ⟨hnode, hheads, hrest⟩ := htidy
      -- The only at-rule that may be new among the later nodes is `head`.
      have hfresh (hne : node.head? ≠ some head) :
          ∀ other, node.head? = some other →
            other ∉ heads (placeUnder head change rest) := by
        intro other hother
        rw [heads_placeUnder]
        split
        · exact hheads other hother
        · rw [List.mem_append, List.mem_singleton, not_or]
          refine ⟨hheads other hother, ?_⟩
          rintro rfl
          exact hne hother
      cases node with
      | atRule other children =>
          simp only [placeUnder]
          split
          · exact ⟨hchange children hnode.2, hheads, hrest⟩
          · rename_i hne
            refine ⟨hnode, hfresh ?_, ih hrest⟩
            exact fun heq => hne (Option.some.inj heq)
      | declaration content => exact ⟨hnode, hfresh nofun, ih hrest⟩
      | rule selector children => exact ⟨hnode, hfresh nofun, ih hrest⟩

theorem sharedDepth_eq_zero_of_not_mem_heads {nodes : List Node}
    {head : AtRule} (hhead : head ∉ heads nodes) {rule : PlacedRule}
    (hrule : rule ∈ placedRules nodes) (wrappers : List AtRule) :
    sharedDepth rule.wrappers (head :: wrappers) = 0 := by
  induction nodes with
  | nil => cases hrule
  | cons node rest ih =>
      rw [placedRules, List.mem_append] at hrule
      cases node with
      | declaration content =>
          exact ih hhead (hrule.resolve_left List.not_mem_nil)
      | rule selector children =>
          rcases hrule with hrule | hrule
          · cases List.mem_singleton.mp hrule
            exact sharedDepth_nil_left _
          · exact ih hhead hrule
      | atRule other children =>
          rw [heads_cons_atRule, List.mem_cons, not_or] at hhead
          rcases hrule with hrule | hrule
          · obtain ⟨inner, -, rfl⟩ := List.mem_map.mp hrule
            simp [sharedDepth, Ne.symm hhead.1]
          · exact ih hhead.2 hrule

/-- A newcomer between `front` and `back` stands right behind a rule that shares most of its
at-rules with it, or at the end if there is none. -/
structure Joins (chain : α → List AtRule) (wrappers : List AtRule)
    (front back : List α) : Prop where
  back_eq_nil : front = [] → back = []
  front_le : ∀ last, front.getLast? = some last → ∀ other ∈ front,
    sharedDepth (chain other) wrappers ≤ sharedDepth (chain last) wrappers
  back_lt : ∀ last, front.getLast? = some last → ∀ other ∈ back,
    sharedDepth (chain other) wrappers < sharedDepth (chain last) wrappers

theorem Joins.of_sharedDepth_eq_zero {chain : α → List AtRule}
    {wrappers : List AtRule} {front : List α}
    (h : ∀ other ∈ front, sharedDepth (chain other) wrappers = 0) :
    Joins chain wrappers front [] where
  back_eq_nil _ := rfl
  front_le _ _ other hother := by
    rw [h other hother]
    exact Nat.zero_le _
  back_lt _ _ _ hother := nomatch hother

def Inserts (rule : PlacedRule) (before after : List PlacedRule) : Prop :=
  ∃ front back, before = front ++ back ∧ after = front ++ rule :: back ∧
    Joins PlacedRule.wrappers rule.wrappers front back

theorem Inserts.prepend {rule : PlacedRule} {before after rules : List PlacedRule}
    (h : Inserts rule before after)
    (hrules : ∀ other ∈ rules, sharedDepth other.wrappers rule.wrappers = 0) :
    Inserts rule (rules ++ before) (rules ++ after) := by
  obtain ⟨front, back, rfl, rfl, hjoins⟩ := h
  refine ⟨rules ++ front, back, by simp, by simp, ?_⟩
  cases hfront : front.getLast? with
  | none =>
      rw [List.getLast?_eq_none_iff] at hfront
      subst hfront
      rw [hjoins.back_eq_nil rfl, List.append_nil]
      exact .of_sharedDepth_eq_zero hrules
  | some last =>
      have hlast : (rules ++ front).getLast? = some last := by
        simp [List.getLast?_append, hfront]
      refine ⟨?_, ?_, ?_⟩
      · intro hnil
        rw [List.append_eq_nil_iff] at hnil
        exact hjoins.back_eq_nil hnil.2
      · intro other hother
        cases hlast.symm.trans hother
        intro candidate hcandidate
        rcases List.mem_append.mp hcandidate with hrule | hfrontRule
        · rw [hrules candidate hrule]
          exact Nat.zero_le _
        · exact hjoins.front_le last hfront candidate hfrontRule
      · intro other hother
        cases hlast.symm.trans hother
        exact hjoins.back_lt last hfront

/-- Inside a block, a newcomer also comes before all that follows the block. -/
theorem Inserts.within {rule : PlacedRule} {before after rules : List PlacedRule}
    (h : Inserts rule before after) (hbefore : before ≠ []) {head : AtRule}
    (hrules : ∀ other ∈ rules,
      sharedDepth other.wrappers (head :: rule.wrappers) = 0) :
    Inserts (rule.within head) (before.map (PlacedRule.within head) ++ rules)
      (after.map (PlacedRule.within head) ++ rules) := by
  obtain ⟨front, back, rfl, rfl, hjoins⟩ := h
  refine ⟨front.map (PlacedRule.within head),
    back.map (PlacedRule.within head) ++ rules, by simp, by simp, ?_⟩
  have hfront : front ≠ [] := by
    rintro rfl
    exact hbefore (hjoins.back_eq_nil rfl)
  refine ⟨?_, ?_, ?_⟩
  · intro hnil
    exact (hfront (List.map_eq_nil_iff.mp hnil)).elim
  · intro last hlast other hother
    rw [List.getLast?_map, Option.map_eq_some_iff] at hlast
    obtain ⟨inner, hinner, rfl⟩ := hlast
    obtain ⟨candidate, hcandidate, rfl⟩ := List.mem_map.mp hother
    simpa using hjoins.front_le inner hinner candidate hcandidate
  · intro last hlast other hother
    rw [List.getLast?_map, Option.map_eq_some_iff] at hlast
    obtain ⟨inner, hinner, rfl⟩ := hlast
    rcases List.mem_append.mp hother with hback | hafter
    · obtain ⟨candidate, hcandidate, rfl⟩ := List.mem_map.mp hback
      simpa using hjoins.back_lt inner hinner candidate hcandidate
    · simp [hrules other hafter]

theorem Inserts.ne_nil {rule : PlacedRule} {before after : List PlacedRule}
    (h : Inserts rule before after) : after ≠ [] := by
  obtain ⟨front, back, -, rfl, -⟩ := h
  simp

theorem inserts_placeUnder {rule : PlacedRule} {head : AtRule}
    {change : List Node → List Node}
    (hchange : ∀ children, Tidy children →
      Inserts rule (placedRules children) (placedRules (change children)))
    {nodes : List Node} (htidy : Tidy nodes) :
    Inserts (rule.within head) (placedRules nodes)
      (placedRules (placeUnder head change nodes)) := by
  induction nodes with
  | nil =>
      obtain ⟨front, back, hnil, hafter, -⟩ := hchange [] trivial
      obtain ⟨rfl, rfl⟩ := List.append_eq_nil_iff.mp hnil.symm
      refine ⟨[], [], rfl, ?_, .of_sharedDepth_eq_zero nofun⟩
      simp [placeUnder, placedRules, Node.placedRules, hafter]
  | cons node rest ih =>
      obtain ⟨hnode, hheads, hrest⟩ := htidy
      cases node with
      | declaration content => exact (ih hrest).prepend nofun
      | rule selector children =>
          apply (ih hrest).prepend
          intro other hother
          cases List.mem_singleton.mp hother
          exact sharedDepth_nil_left _
      | atRule other children =>
          simp only [placeUnder]
          split
          -- In a tidy sheet no later block has the same at-rule, so nothing behind this one shares
          -- any at-rule with the newcomer.
          · rename_i heq
            subst heq
            apply (hchange children hnode.2).within hnode.1
            intro candidate hcandidate
            exact sharedDepth_eq_zero_of_not_mem_heads (hheads other rfl)
              hcandidate rule.wrappers
          · rename_i hne
            apply (ih hrest).prepend
            intro candidate hcandidate
            obtain ⟨inner, -, rfl⟩ := List.mem_map.mp hcandidate
            simp [sharedDepth, hne]

theorem inserts_insertWrapped (rule : PlacedRule) {nodes : List Node}
    (htidy : Tidy nodes) :
    Inserts rule (placedRules nodes)
      (placedRules (insertWrapped rule.wrappers rule.node nodes)) := by
  obtain ⟨wrappers, selector, children⟩ := rule
  induction wrappers generalizing nodes with
  | nil =>
      -- Outside all at-rules the newcomer goes to the end.
      refine ⟨placedRules nodes, [], by simp, ?_, .of_sharedDepth_eq_zero ?_⟩
      · simp [insertWrapped, PlacedRule.node, placedRules, Node.placedRules]
      · intro other _
        exact sharedDepth_nil_right _
  | cons head rest ih => exact inserts_placeUnder (fun _ hchildren => ih hchildren) htidy

theorem tidy_insertWrapped (rule : PlacedRule) {nodes : List Node}
    (htidy : Tidy nodes) :
    Tidy (insertWrapped rule.wrappers rule.node nodes) := by
  obtain ⟨wrappers, selector, children⟩ := rule
  induction wrappers generalizing nodes with
  | nil => exact tidy_append_rule htidy _
  | cons head rest ih =>
      refine tidy_placeUnder ?_ htidy
      intro inner hinner
      exact ⟨(inserts_insertWrapped ⟨rest, selector, children⟩ hinner).ne_nil,
        ih hinner⟩

theorem tidy_insertAll (rules : List PlacedRule) : Tidy (insertAll rules) := by
  induction rules using List.reverseRecOn with
  | nil => trivial
  | append_singleton rules rule ih =>
      rw [insertAll_append_singleton]
      exact tidy_insertWrapped rule ih

/-! An arrangement of rules is what repeated insertion makes of them. -/

inductive Arranged (chain : α → List AtRule) : List α → List α → Prop
  | nil : Arranged chain [] []
  | insert {inserted front back : List α} {rule : α}
      (arranged : Arranged chain inserted (front ++ back))
      (joins : Joins chain (chain rule) front back) :
      Arranged chain (inserted ++ [rule]) (front ++ rule :: back)

theorem exists_arranged (placed : α → PlacedRule) (rules : List α) :
    ∃ document, Arranged (fun rule => (placed rule).wrappers) rules document ∧
      placedRules (insertAll (rules.map placed)) = document.map placed := by
  induction rules using List.reverseRecOn with
  | nil => exact ⟨[], .nil, rfl⟩
  | append_singleton rules rule ih =>
      obtain ⟨document, harranged, hdocument⟩ := ih
      obtain ⟨front, back, hbefore, hafter, hjoins⟩ :=
        inserts_insertWrapped (placed rule) (tidy_insertAll (rules.map placed))
      -- The gap in the sheet is a gap in the arrangement before it.
      rw [hdocument, List.map_eq_append_iff] at hbefore
      obtain ⟨front, back, rfl, rfl, rfl⟩ := hbefore
      refine ⟨front ++ rule :: back, .insert harranged ?_, ?_⟩
      · refine ⟨?_, ?_, ?_⟩
        · intro hnil
          exact List.map_eq_nil_iff.mp
            (hjoins.back_eq_nil (List.map_eq_nil_iff.mpr hnil))
        · intro last hlast other hother
          exact hjoins.front_le (placed last) (by simp [hlast]) _
            (List.mem_map_of_mem hother)
        · intro last hlast other hother
          exact hjoins.back_lt (placed last) (by simp [hlast]) _
            (List.mem_map_of_mem hother)
      · rw [List.map_append, List.map_singleton, insertAll_append_singleton, hafter]
        simp

theorem Arranged.perm {chain : α → List AtRule} {inserted document : List α}
    (h : Arranged chain inserted document) : document.Perm inserted := by
  induction h with
  | nil => exact .refl _
  | insert _ _ ih =>
      exact List.perm_middle.trans ((ih.cons _).trans (List.perm_append_singleton ..).symm)

/-! Rules with the same at-rules stay in the order in which they were inserted. -/

theorem Joins.ne_of_mem_back {chain : α → List AtRule} {wrappers : List AtRule}
    {front back : List α} (h : Joins chain wrappers front back) {other : α}
    (hother : other ∈ back) : chain other ≠ wrappers := by
  intro heq
  cases hlast : front.getLast? with
  | none =>
      rw [List.getLast?_eq_none_iff] at hlast
      rw [h.back_eq_nil hlast] at hother
      cases hother
  | some last =>
      have hlt := h.back_lt last hlast other hother
      have hle := sharedDepth_le_length wrappers (chain last)
      rw [heq, sharedDepth_eq_length_of_prefix (List.prefix_refl _),
        sharedDepth_comm] at hlt
      omega

theorem Arranged.filter_eq {chain : α → List AtRule} {inserted document : List α}
    (h : Arranged chain inserted document) (wrappers : List AtRule) :
    document.filter (fun rule => chain rule = wrappers) =
      inserted.filter (fun rule => chain rule = wrappers) := by
  induction h with
  | nil => rfl
  | @insert inserted front back rule _ joins ih =>
      rw [List.filter_append] at ih
      rw [List.filter_append, List.filter_append, List.filter_cons]
      by_cases hrule : chain rule = wrappers
      · -- No rule behind the newcomer has all its at-rules.
        have hback : back.filter (fun rule => chain rule = wrappers) = [] := by
          rw [List.filter_eq_nil_iff]
          intro other hother
          rw [decide_eq_true_eq, ← hrule]
          exact joins.ne_of_mem_back hother
        rw [hback, List.append_nil] at ih
        simp [hrule, hback, ih]
      · simp [hrule, ih]

/-- The lists of siblings that style rules stand in: the nodes of a sheet, and the children of each
at-rule among such siblings. -/
inductive Siblings (nodes : List Node) : List Node → Prop
  | root : Siblings nodes nodes
  | inside {outer children : List Node} {head : AtRule}
      (around : Siblings nodes outer) (mem : .atRule head children ∈ outer) :
      Siblings nodes children

theorem Tidy.of_mem {nodes children : List Node} {head : AtRule} (h : Tidy nodes)
    (hmem : .atRule head children ∈ nodes) :
    placedRules children ≠ [] ∧ Tidy children := by
  induction nodes with
  | nil => cases hmem
  | cons node rest ih =>
      obtain ⟨hnode, -, hrest⟩ := h
      cases hmem with
      | head => exact hnode
      | tail _ hmem => exact ih hrest hmem

theorem Tidy.siblings {nodes siblings : List Node} (h : Tidy nodes)
    (hsiblings : Siblings nodes siblings) : Tidy siblings := by
  induction hsiblings with
  | root => exact h
  | inside _ hmem ih => exact (ih.of_mem hmem).2

theorem Tidy.nodup_heads {nodes : List Node} (h : Tidy nodes) : (heads nodes).Nodup := by
  induction nodes with
  | nil => exact List.nodup_nil
  | cons node rest ih =>
      obtain ⟨-, hheads, hrest⟩ := h
      cases hhead : node.head? with
      | none =>
          rw [heads_cons_of_head?_eq_none hhead]
          exact ih hrest
      | some head =>
          have hcons : heads (node :: rest) = head :: heads rest := by
            simp [heads, hhead]
          rw [hcons, List.nodup_cons]
          exact ⟨hheads head hhead, ih hrest⟩

/-- No rule is lost, those inside the same at-rules keep their order, and among siblings no at-rule
is empty or has the head of another one. -/
theorem insertAll_groups_rules (rules : List PlacedRule) :
    (placedRules (insertAll rules)).Perm rules ∧
    (∀ wrappers : List AtRule,
      (placedRules (insertAll rules)).filter (fun rule => rule.wrappers = wrappers) =
        rules.filter (fun rule => rule.wrappers = wrappers)) ∧
    ∀ siblings, Siblings (insertAll rules) siblings →
      (heads siblings).Nodup ∧
      ∀ head children, .atRule head children ∈ siblings → children ≠ [] := by
  obtain ⟨document, harranged, hdocument⟩ := exists_arranged id rules
  rw [List.map_id, List.map_id] at hdocument
  refine ⟨?_, ?_, ?_⟩
  · rw [hdocument]
    exact harranged.perm
  · intro wrappers
    rw [hdocument]
    exact harranged.filter_eq wrappers
  · intro siblings hsiblings
    have htidy := (tidy_insertAll rules).siblings hsiblings
    refine ⟨htidy.nodup_heads, ?_⟩
    intro head children hmem hnil
    subst hnil
    exact (htidy.of_mem hmem).1 rfl

def printHead : AtRule := ⟨.media, "print"⟩

def portraitHead : AtRule := ⟨.media, "(orientation: portrait)"⟩

def printRules : List PlacedRule :=
  [⟨[printHead, portraitHead], ".a", []⟩, ⟨[], ".b", []⟩, ⟨[printHead], ".c", []⟩]

theorem insertAll_groups_rules_print :
    ∃ siblings, Siblings (insertAll printRules) siblings ∧
      siblings = [.atRule portraitHead [.rule ".a" []], .rule ".c" []] ∧
      (heads siblings).Nodup ∧
      .atRule portraitHead [.rule ".a" []] ∈ siblings ∧ [Node.rule ".a" []] ≠ [] := by
  have hprint : Node.atRule printHead [.atRule portraitHead [.rule ".a" []], .rule ".c" []] ∈
      insertAll printRules := List.mem_cons_self
  have hinside := Siblings.inside .root hprint
  have hmem : Node.atRule portraitHead [.rule ".a" []] ∈
      [.atRule portraitHead [.rule ".a" []], .rule ".c" []] := List.mem_cons_self
  obtain ⟨hnodup, hnonempty⟩ := (insertAll_groups_rules printRules).2.2 _ hinside
  exact ⟨_, hinside, rfl, hnodup, hmem, hnonempty _ _ hmem⟩

end AtomicCss.Sheet
