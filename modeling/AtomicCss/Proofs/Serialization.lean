import AtomicCss.Proofs.Writing
import Mathlib.Data.List.Infix

/-!
What a written sheet says. Each declaration of a tree has a location, the rules and at-rules around
it. Reading the events of a sheet back gives one block for each location that is inside a rule and
holds declarations.
-/

namespace AtomicCss.Sheet

inductive Frame where
  | rule (selector : String)
  | atRule (head : AtRule)
  deriving DecidableEq, Repr

structure Enclosure where
  place : Nat
  frame : Frame
  deriving DecidableEq, Repr

/-! The location of a node is the list of the enclosures around it, outermost first. -/

def atRules (location : List Enclosure) : List AtRule :=
  location.filterMap fun enclosure =>
    match enclosure.frame with
    | .atRule head => some head
    | .rule _ => none

def selectors (location : List Enclosure) : List String :=
  location.filterMap fun enclosure =>
    match enclosure.frame with
    | .rule selector => some selector
    | .atRule _ => none

/-- The selector of the rules around a node, resolved from the outside in. -/
def selector? (location : List Enclosure) : Option String :=
  match selectors location with
  | [] => none
  | outermost :: inner => some (inner.foldl Selector.nested outermost)

section Location

variable (here : List Enclosure) (place : Nat)

@[simp] theorem atRules_append_rule (selector : String) :
    atRules (here ++ [⟨place, .rule selector⟩]) = atRules here := by
  simp [atRules]

@[simp] theorem atRules_append_atRule (head : AtRule) :
    atRules (here ++ [⟨place, .atRule head⟩]) = atRules here ++ [head] := by
  simp [atRules]

@[simp] theorem selector?_append_rule (selector : String) :
    selector? (here ++ [⟨place, .rule selector⟩]) =
      some (resolveSelector (selector? here) selector) := by
  have happend : selectors (here ++ [⟨place, .rule selector⟩]) =
      selectors here ++ [selector] := by
    simp [selectors]
  rw [selector?, happend, selector?]
  cases selectors here with
  | nil => rfl
  | cons outermost inner => simp [resolveSelector]

@[simp] theorem selector?_append_atRule (head : AtRule) :
    selector? (here ++ [⟨place, .atRule head⟩]) = selector? here := by
  simp [selector?, selectors]

end Location

mutual

def Node.located (here : List Enclosure) (place : Nat) :
    Node → List (List Enclosure × Declaration)
  | .declaration content => [(here, content)]
  | .rule selector children => locatedFrom (here ++ [⟨place, .rule selector⟩]) 0 children
  | .atRule head children => locatedFrom (here ++ [⟨place, .atRule head⟩]) 0 children

def locatedFrom (here : List Enclosure) (place : Nat) :
    List Node → List (List Enclosure × Declaration)
  | [] => []
  | node :: rest => node.located here place ++ locatedFrom here (place + 1) rest

end

def located (nodes : List Node) : List (List Enclosure × Declaration) :=
  locatedFrom [] 0 nodes

def declarationsAt (location : List Enclosure)
    (entries : List (List Enclosure × Declaration)) : List Declaration :=
  (entries.filter fun entry => entry.1 = location).map Prod.snd

structure PlacedBlock where
  wrappers : List AtRule
  selector : String
  declarations : List Declaration
  deriving DecidableEq, Repr

/-- The block that a location calls for, if it is inside a rule. -/
def blockAt? (nodes : List Node) (location : List Enclosure) : Option PlacedBlock :=
  (selector? location).map fun selector =>
    ⟨atRules location, selector, declarationsAt location (located nodes)⟩

/-- Reads events with the at-rules that are open, innermost first. Each at-rule must be closed, and
only what is open can be closed. -/
def readBlocks? : (opened : List AtRule) → List Event → Option (List PlacedBlock)
  | [], [] => some []
  | _ :: _, [] => none
  | opened, .opening head :: rest => readBlocks? (head :: opened) rest
  | opened, .block selector declarations :: rest =>
      (readBlocks? opened rest).map (⟨opened.reverse, selector, declarations⟩ :: ·)
  | [], .closing :: _ => none
  | _ :: opened, .closing :: rest => readBlocks? opened rest

/-! The blocks that are written, with their locations. -/

def ownEntry (here : List Enclosure) (children : List Node) :
    List (List Enclosure × PlacedBlock) :=
  match selector? here, ownDeclarations children with
  | some selector, declaration :: declarations =>
      [(here, ⟨atRules here, selector, declaration :: declarations⟩)]
  | _, _ => []

mutual

def Node.entries (here : List Enclosure) (place : Nat) :
    Node → List (List Enclosure × PlacedBlock)
  | .declaration _ => []
  | .rule selector children =>
      ownEntry (here ++ [⟨place, .rule selector⟩]) children ++
        entriesFrom (here ++ [⟨place, .rule selector⟩]) 0 children
  | .atRule head children =>
      ownEntry (here ++ [⟨place, .atRule head⟩]) children ++
        entriesFrom (here ++ [⟨place, .atRule head⟩]) 0 children

def entriesFrom (here : List Enclosure) (place : Nat) :
    List Node → List (List Enclosure × PlacedBlock)
  | [] => []
  | node :: rest => node.entries here place ++ entriesFrom here (place + 1) rest

end

section Reading

variable (here : List Enclosure)

theorem readBlocks?_ownBlock (children : List Node) (rest : List Event) :
    readBlocks? (atRules here).reverse (ownBlock (selector? here) children ++ rest) =
      (readBlocks? (atRules here).reverse rest).map
        ((ownEntry here children).map Prod.snd ++ ·) := by
  rw [ownBlock.eq_def, ownEntry.eq_def]
  cases selector? here with
  | none => simp
  | some selector =>
      cases ownDeclarations children with
      | nil => simp
      | cons declaration declarations => simp [readBlocks?]

mutual

theorem Node.readBlocks?_events (here : List Enclosure) (place : Nat) :
    ∀ (node : Node) (rest : List Event),
      readBlocks? (atRules here).reverse (node.events (selector? here) ++ rest) =
        (readBlocks? (atRules here).reverse rest).map
          ((node.entries here place).map Prod.snd ++ ·)
  | .declaration content, rest => by simp [Node.events, Node.entries]
  | .rule selector children, rest => by
      have hown := readBlocks?_ownBlock (here ++ [⟨place, .rule selector⟩]) children
        (Node.eventsList (some (resolveSelector (selector? here) selector)) children ++ rest)
      have hinner := readBlocks?_eventsList (here ++ [⟨place, .rule selector⟩]) 0 children rest
      rw [selector?_append_rule, atRules_append_rule] at hown hinner
      rw [Node.events, Node.entries, List.append_assoc, hown, hinner, Option.map_map]
      simp [Function.comp_def]
  | .atRule head children, rest => by
      have hown := readBlocks?_ownBlock (here ++ [⟨place, .atRule head⟩]) children
        (Node.eventsList (selector? here) children ++ .closing :: rest)
      have hinner := readBlocks?_eventsList (here ++ [⟨place, .atRule head⟩]) 0 children
        (.closing :: rest)
      rw [selector?_append_atRule, atRules_append_atRule, List.reverse_append,
        List.reverse_singleton, List.singleton_append] at hown hinner
      rw [Node.events, Node.entries, List.cons_append, readBlocks?, List.append_assoc,
        List.append_assoc, List.singleton_append, hown, hinner, readBlocks?, Option.map_map]
      simp [Function.comp_def]

theorem readBlocks?_eventsList (here : List Enclosure) (place : Nat) :
    ∀ (nodes : List Node) (rest : List Event),
      readBlocks? (atRules here).reverse (Node.eventsList (selector? here) nodes ++ rest) =
        (readBlocks? (atRules here).reverse rest).map
          ((entriesFrom here place nodes).map Prod.snd ++ ·)
  | [], rest => by simp [Node.eventsList, entriesFrom]
  | node :: nodes, rest => by
      rw [Node.eventsList, entriesFrom, List.append_assoc,
        Node.readBlocks?_events here place node, readBlocks?_eventsList here (place + 1) nodes,
        Option.map_map]
      simp [Function.comp_def]

end

end Reading

/-! Two locations are different if they leave a common part through different places. -/

def PassesThrough (here : List Enclosure) (place : Nat) (location : List Enclosure) : Prop :=
  ∃ frame, here ++ [⟨place, frame⟩] <+: location

section PassesThrough

variable {here location : List Enclosure} {place other : Nat} {frame : Frame}

theorem PassesThrough.ne (h : PassesThrough here place location) : location ≠ here := by
  rintro rfl
  obtain ⟨frame, hbegins⟩ := h
  have hlength := hbegins.length_le
  rw [List.length_append, List.length_singleton] at hlength
  omega

theorem PassesThrough.place_eq (h : PassesThrough here place location)
    (hother : PassesThrough here other location) : place = other := by
  obtain ⟨frame, rest, rfl⟩ := h
  obtain ⟨otherFrame, otherRest, heq⟩ := hother
  simp only [List.append_assoc, List.singleton_append, List.append_cancel_left_eq,
    List.cons.injEq, Enclosure.mk.injEq] at heq
  exact heq.1.1.symm

end PassesThrough

section Entries

variable {here location : List Enclosure} {place : Nat} {frame : Frame}
  {declaration : Declaration} {block : PlacedBlock}

theorem mem_ownEntry {children : List Node}
    (h : (location, block) ∈ ownEntry here children) :
    location = here ∧ selector? here = some block.selector ∧
      block.wrappers = atRules here ∧ block.declarations = ownDeclarations children ∧
      block.declarations ≠ [] := by
  rw [ownEntry.eq_def] at h
  split at h
  · rename_i selector first rest hselector hown
    cases List.mem_singleton.mp h
    exact ⟨rfl, hselector, rfl, hown.symm, List.cons_ne_nil _ _⟩
  · cases h

theorem exists_mem_ownEntry {children : List Node} (hselector : (selector? here).isSome)
    (hown : ownDeclarations children ≠ []) : ∃ block, (here, block) ∈ ownEntry here children := by
  obtain ⟨selector, hselector⟩ := Option.isSome_iff_exists.mp hselector
  obtain ⟨first, rest, hown⟩ := List.exists_cons_of_ne_nil hown
  rw [ownEntry.eq_def, hselector, hown]
  exact ⟨_, List.mem_singleton_self _⟩

mutual

theorem Node.isPrefix_of_mem_located {location : List Enclosure} {declaration : Declaration} :
    ∀ (node : Node) (here : List Enclosure) (place : Nat),
      (location, declaration) ∈ node.located here place → here <+: location
  | .declaration content, here, place, h => by
      cases List.mem_singleton.mp h
      exact List.prefix_refl _
  | .rule selector children, here, place, h =>
      (List.prefix_append ..).trans (isPrefix_of_mem_locatedFrom children _ 0 h)
  | .atRule head children, here, place, h =>
      (List.prefix_append ..).trans (isPrefix_of_mem_locatedFrom children _ 0 h)

theorem isPrefix_of_mem_locatedFrom {location : List Enclosure} {declaration : Declaration} :
    ∀ (nodes : List Node) (here : List Enclosure) (place : Nat),
      (location, declaration) ∈ locatedFrom here place nodes → here <+: location
  | node :: rest, here, place, h => by
      rcases List.mem_append.mp h with hnode | hrest
      · exact node.isPrefix_of_mem_located here place hnode
      · exact isPrefix_of_mem_locatedFrom rest here (place + 1) hrest

end

theorem Node.eq_or_passesThrough_of_mem_located {node : Node}
    (h : (location, declaration) ∈ node.located here place) :
    location = here ∨ PassesThrough here place location := by
  cases node with
  | declaration content =>
      cases List.mem_singleton.mp h
      exact .inl rfl
  | rule selector children =>
      exact .inr ⟨.rule selector, isPrefix_of_mem_locatedFrom children _ 0 h⟩
  | atRule head children =>
      exact .inr ⟨.atRule head, isPrefix_of_mem_locatedFrom children _ 0 h⟩

theorem eq_or_passesThrough_of_mem_locatedFrom {nodes : List Node}
    (h : (location, declaration) ∈ locatedFrom here place nodes) :
    location = here ∨ ∃ other, place ≤ other ∧ PassesThrough here other location := by
  induction nodes generalizing place with
  | nil => cases h
  | cons node rest ih =>
      rcases List.mem_append.mp h with hnode | hrest
      · rcases node.eq_or_passesThrough_of_mem_located hnode with rfl | hthrough
        · exact .inl rfl
        · exact .inr ⟨place, Nat.le_refl _, hthrough⟩
      · rcases ih hrest with rfl | ⟨other, hle, hthrough⟩
        · exact .inl rfl
        · exact .inr ⟨other, Nat.le_of_succ_le hle, hthrough⟩

theorem mem_ownDeclarations {nodes : List Node} :
    declaration ∈ ownDeclarations nodes ↔ .declaration declaration ∈ nodes := by
  rw [ownDeclarations, List.mem_filterMap]
  constructor
  · rintro ⟨node, hnode, hcontent⟩
    cases node with
    | declaration content =>
        cases hcontent
        exact hnode
    | rule selector children => cases hcontent
    | atRule head children => cases hcontent
  · intro hnode
    exact ⟨_, hnode, rfl⟩

theorem mem_locatedFrom_of_mem {nodes : List Node} (h : .declaration declaration ∈ nodes)
    (here : List Enclosure) (place : Nat) :
    (here, declaration) ∈ locatedFrom here place nodes := by
  induction nodes generalizing place with
  | nil => cases h
  | cons node rest ih =>
      rw [locatedFrom, List.mem_append]
      cases h with
      | head => exact .inl (List.mem_singleton_self _)
      | tail _ h => exact .inr (ih h (place + 1))

theorem exists_mem_locatedFrom_of_mem_ownEntry {children : List Node}
    (h : (location, block) ∈ ownEntry here children) :
    ∃ declaration, (location, declaration) ∈ locatedFrom here 0 children := by
  obtain ⟨rfl, -, -, hown, hne⟩ := mem_ownEntry h
  obtain ⟨first, hfirst⟩ := List.exists_mem_of_ne_nil _ hne
  rw [hown, mem_ownDeclarations] at hfirst
  exact ⟨first, mem_locatedFrom_of_mem hfirst _ 0⟩

mutual

theorem Node.exists_mem_located {location : List Enclosure} {block : PlacedBlock} :
    ∀ (node : Node) (here : List Enclosure) (place : Nat),
      (location, block) ∈ node.entries here place →
        ∃ declaration, (location, declaration) ∈ node.located here place
  | .rule selector children, here, place, h => by
      rcases List.mem_append.mp h with hown | hinner
      · exact exists_mem_locatedFrom_of_mem_ownEntry hown
      · exact exists_mem_locatedFrom children _ 0 hinner
  | .atRule head children, here, place, h => by
      rcases List.mem_append.mp h with hown | hinner
      · exact exists_mem_locatedFrom_of_mem_ownEntry hown
      · exact exists_mem_locatedFrom children _ 0 hinner

theorem exists_mem_locatedFrom {location : List Enclosure} {block : PlacedBlock} :
    ∀ (nodes : List Node) (here : List Enclosure) (place : Nat),
      (location, block) ∈ entriesFrom here place nodes →
        ∃ declaration, (location, declaration) ∈ locatedFrom here place nodes
  | node :: rest, here, place, h => by
      rcases List.mem_append.mp h with hnode | hrest
      · obtain ⟨declaration, hdeclaration⟩ := node.exists_mem_located here place hnode
        exact ⟨declaration, List.mem_append_left _ hdeclaration⟩
      · obtain ⟨declaration, hdeclaration⟩ :=
          exists_mem_locatedFrom rest here (place + 1) hrest
        exact ⟨declaration, List.mem_append_right _ hdeclaration⟩

end

theorem Node.passesThrough_of_mem_entries {node : Node}
    (h : (location, block) ∈ node.entries here place) :
    PassesThrough here place location := by
  obtain ⟨declaration, hdeclaration⟩ := node.exists_mem_located here place h
  cases node with
  | declaration content => cases h
  | rule selector children =>
      exact ⟨.rule selector, isPrefix_of_mem_locatedFrom children _ 0 hdeclaration⟩
  | atRule head children =>
      exact ⟨.atRule head, isPrefix_of_mem_locatedFrom children _ 0 hdeclaration⟩

theorem passesThrough_of_mem_entriesFrom {nodes : List Node}
    (h : (location, block) ∈ entriesFrom here place nodes) :
    ∃ other, place ≤ other ∧ PassesThrough here other location := by
  induction nodes generalizing place with
  | nil => cases h
  | cons node rest ih =>
      rcases List.mem_append.mp h with hnode | hrest
      · exact ⟨place, Nat.le_refl _, node.passesThrough_of_mem_entries hnode⟩
      · obtain ⟨other, hle, hthrough⟩ := ih hrest
        exact ⟨other, Nat.le_of_succ_le hle, hthrough⟩

/-! The declarations at a location are those of one parent. -/

@[simp] theorem declarationsAt_append (location : List Enclosure)
    (first second : List (List Enclosure × Declaration)) :
    declarationsAt location (first ++ second) =
      declarationsAt location first ++ declarationsAt location second := by
  simp [declarationsAt]

theorem declarationsAt_eq_nil {entries : List (List Enclosure × Declaration)}
    (h : ∀ declaration, (location, declaration) ∉ entries) :
    declarationsAt location entries = [] := by
  rw [declarationsAt, List.map_eq_nil_iff, List.filter_eq_nil_iff]
  rintro ⟨other, declaration⟩ hentry heq
  rw [decide_eq_true_eq] at heq
  subst heq
  exact h declaration hentry

theorem declarationsAt_locatedFrom (here : List Enclosure) (place : Nat)
    (nodes : List Node) :
    declarationsAt here (locatedFrom here place nodes) = ownDeclarations nodes := by
  induction nodes generalizing place with
  | nil => rfl
  | cons node rest ih =>
      rw [locatedFrom, declarationsAt_append, ih]
      cases node with
      | declaration content => simp [Node.located, declarationsAt, ownDeclarations]
      | rule selector children =>
          rw [declarationsAt_eq_nil]
          · rfl
          · intro declaration hmem
            exact PassesThrough.ne
              ⟨.rule selector, isPrefix_of_mem_locatedFrom children _ 0 hmem⟩ rfl
      | atRule head children =>
          rw [declarationsAt_eq_nil]
          · rfl
          · intro declaration hmem
            exact PassesThrough.ne
              ⟨.atRule head, isPrefix_of_mem_locatedFrom children _ 0 hmem⟩ rfl

theorem declarationsAt_cons_of_mem_node {node : Node} {rest : List Node}
    (h : (location, block) ∈ node.entries here place) :
    declarationsAt location (locatedFrom here place (node :: rest)) =
      declarationsAt location (node.located here place) := by
  have hthrough := node.passesThrough_of_mem_entries h
  have hrest : declarationsAt location (locatedFrom here (place + 1) rest) = [] := by
    apply declarationsAt_eq_nil
    intro declaration hmem
    rcases eq_or_passesThrough_of_mem_locatedFrom hmem with heq | ⟨other, hle, hother⟩
    · exact hthrough.ne heq
    · have := hthrough.place_eq hother
      omega
  rw [locatedFrom, declarationsAt_append, hrest, List.append_nil]

theorem declarationsAt_cons_of_mem_rest {node : Node} {rest : List Node}
    (h : (location, block) ∈ entriesFrom here (place + 1) rest) :
    declarationsAt location (locatedFrom here place (node :: rest)) =
      declarationsAt location (locatedFrom here (place + 1) rest) := by
  obtain ⟨other, hle, hthrough⟩ := passesThrough_of_mem_entriesFrom h
  have hnode : declarationsAt location (node.located here place) = [] := by
    apply declarationsAt_eq_nil
    intro declaration hmem
    rcases node.eq_or_passesThrough_of_mem_located hmem with heq | hnode
    · exact hthrough.ne heq
    · have := hthrough.place_eq hnode
      omega
  rw [locatedFrom, declarationsAt_append, hnode, List.nil_append]

/-- A block holds what stands at its location. -/
structure Describes (entries : List (List Enclosure × Declaration))
    (location : List Enclosure) (block : PlacedBlock) : Prop where
  selector_eq : selector? location = some block.selector
  wrappers_eq : block.wrappers = atRules location
  declarations_eq : block.declarations = declarationsAt location entries
  declarations_ne : block.declarations ≠ []

theorem describes_of_mem_ownEntry {children : List Node}
    (h : (location, block) ∈ ownEntry here children) :
    Describes (locatedFrom here 0 children) location block := by
  obtain ⟨rfl, hselector, hwrappers, hown, hne⟩ := mem_ownEntry h
  refine ⟨hselector, hwrappers, ?_, hne⟩
  rw [hown, declarationsAt_locatedFrom]

mutual

theorem Node.describes_of_mem_entries {location : List Enclosure} {block : PlacedBlock} :
    ∀ (node : Node) (here : List Enclosure) (place : Nat),
      (location, block) ∈ node.entries here place →
        Describes (node.located here place) location block
  | .rule selector children, here, place, h => by
      rcases List.mem_append.mp h with hown | hinner
      · exact describes_of_mem_ownEntry hown
      · exact describes_of_mem_entriesFrom children _ 0 hinner
  | .atRule head children, here, place, h => by
      rcases List.mem_append.mp h with hown | hinner
      · exact describes_of_mem_ownEntry hown
      · exact describes_of_mem_entriesFrom children _ 0 hinner

theorem describes_of_mem_entriesFrom {location : List Enclosure} {block : PlacedBlock} :
    ∀ (nodes : List Node) (here : List Enclosure) (place : Nat),
      (location, block) ∈ entriesFrom here place nodes →
        Describes (locatedFrom here place nodes) location block
  | node :: rest, here, place, h => by
      rcases List.mem_append.mp h with hnode | hrest
      · have hdescribes := node.describes_of_mem_entries here place hnode
        refine { hdescribes with declarations_eq := ?_ }
        rw [declarationsAt_cons_of_mem_node hnode]
        exact hdescribes.declarations_eq
      · have hdescribes := describes_of_mem_entriesFrom rest here (place + 1) hrest
        refine { hdescribes with declarations_eq := ?_ }
        rw [declarationsAt_cons_of_mem_rest hrest]
        exact hdescribes.declarations_eq

end

/-! Each location has one block, and each that calls for a block has one. -/

theorem nodup_ownEntry_append {children : List Node}
    (h : ((entriesFrom here 0 children).map Prod.fst).Nodup) :
    ((ownEntry here children ++ entriesFrom here 0 children).map Prod.fst).Nodup := by
  have hown : ((ownEntry here children).map Prod.fst).Nodup := by
    rw [ownEntry.eq_def]
    split
    · simp
    · exact List.nodup_nil
  rw [List.map_append, List.nodup_append]
  refine ⟨hown, h, ?_⟩
  rintro first hfirst second hsecond rfl
  obtain ⟨⟨location, block⟩, hblock, rfl⟩ := List.mem_map.mp hfirst
  obtain ⟨⟨other, inner⟩, hinner, heq⟩ := List.mem_map.mp hsecond
  dsimp only at heq
  subst heq
  obtain ⟨place, -, hthrough⟩ := passesThrough_of_mem_entriesFrom hinner
  exact hthrough.ne (mem_ownEntry hblock).1

mutual

theorem Node.nodup_entries : ∀ (node : Node) (here : List Enclosure) (place : Nat),
    ((node.entries here place).map Prod.fst).Nodup
  | .declaration _, _, _ => List.nodup_nil
  | .rule _ children, _, _ =>
      nodup_ownEntry_append (nodup_entriesFrom children _ 0)
  | .atRule _ children, _, _ =>
      nodup_ownEntry_append (nodup_entriesFrom children _ 0)

theorem nodup_entriesFrom : ∀ (nodes : List Node) (here : List Enclosure) (place : Nat),
    ((entriesFrom here place nodes).map Prod.fst).Nodup
  | [], _, _ => List.nodup_nil
  | node :: rest, here, place => by
      rw [entriesFrom, List.map_append, List.nodup_append]
      refine ⟨node.nodup_entries here place, nodup_entriesFrom rest here (place + 1), ?_⟩
      rintro first hfirst second hsecond rfl
      obtain ⟨⟨location, block⟩, hblock, rfl⟩ := List.mem_map.mp hfirst
      obtain ⟨⟨other, later⟩, hlater, heq⟩ := List.mem_map.mp hsecond
      dsimp only at heq
      subst heq
      obtain ⟨otherPlace, hle, hthrough⟩ := passesThrough_of_mem_entriesFrom hlater
      have := (node.passesThrough_of_mem_entries hblock).place_eq hthrough
      omega

end

theorem mem_ownEntry_append {children : List Node} (hselector : (selector? location).isSome)
    (hmem : (location, declaration) ∈ locatedFrom here 0 children)
    (hinner : location = here ∨ location ∈ (entriesFrom here 0 children).map Prod.fst) :
    location ∈ (ownEntry here children ++ entriesFrom here 0 children).map Prod.fst := by
  rw [List.map_append, List.mem_append]
  rcases hinner with rfl | hinner
  · left
    have hown : ownDeclarations children ≠ [] := by
      rw [← declarationsAt_locatedFrom location 0]
      exact List.ne_nil_of_mem (List.mem_map.mpr
        ⟨_, List.mem_filter.mpr ⟨hmem, decide_eq_true rfl⟩, rfl⟩)
    obtain ⟨block, hblock⟩ := exists_mem_ownEntry hselector hown
    exact List.mem_map.mpr ⟨_, hblock, rfl⟩
  · exact .inr hinner

mutual

theorem Node.eq_or_mem_entries {location : List Enclosure} {declaration : Declaration}
    (hselector : (selector? location).isSome) :
    ∀ (node : Node) (here : List Enclosure) (place : Nat),
      (location, declaration) ∈ node.located here place →
        location = here ∨ location ∈ (node.entries here place).map Prod.fst
  | .declaration content, here, place, h => by
      cases List.mem_singleton.mp h
      exact .inl rfl
  | .rule selector children, here, place, h =>
      .inr (mem_ownEntry_append hselector h (eq_or_mem_entriesFrom hselector children _ 0 h))
  | .atRule head children, here, place, h =>
      .inr (mem_ownEntry_append hselector h (eq_or_mem_entriesFrom hselector children _ 0 h))

theorem eq_or_mem_entriesFrom {location : List Enclosure} {declaration : Declaration}
    (hselector : (selector? location).isSome) :
    ∀ (nodes : List Node) (here : List Enclosure) (place : Nat),
      (location, declaration) ∈ locatedFrom here place nodes →
        location = here ∨ location ∈ (entriesFrom here place nodes).map Prod.fst
  | node :: rest, here, place, h => by
      rw [entriesFrom, List.map_append, List.mem_append]
      rcases List.mem_append.mp h with hnode | hrest
      · rcases node.eq_or_mem_entries hselector here place hnode with heq | hmem
        · exact .inl heq
        · exact .inr (.inl hmem)
      · rcases eq_or_mem_entriesFrom hselector rest here (place + 1) hrest with heq | hmem
        · exact .inl heq
        · exact .inr (.inr hmem)

end

end Entries

theorem mem_entries_iff (nodes : List Node) (location : List Enclosure) :
    location ∈ (entriesFrom [] 0 nodes).map Prod.fst ↔
      (selector? location).isSome ∧
        ∃ declaration, (location, declaration) ∈ located nodes := by
  constructor
  · intro hmem
    obtain ⟨⟨location, block⟩, hentry, rfl⟩ := List.mem_map.mp hmem
    have hdescribes := describes_of_mem_entriesFrom nodes [] 0 hentry
    refine ⟨?_, exists_mem_locatedFrom nodes [] 0 hentry⟩
    rw [hdescribes.selector_eq]
    rfl
  · rintro ⟨hselector, declaration, hmem⟩
    rcases eq_or_mem_entriesFrom hselector nodes [] 0 hmem with rfl | hentry
    · cases hselector
    · exact hentry

theorem readBlocks?_events (nodes : List Node) :
    readBlocks? [] (events nodes) = some ((entriesFrom [] 0 nodes).map Prod.snd) := by
  have hread : readBlocks? [] (events nodes ++ []) =
      (readBlocks? [] []).map ((entriesFrom [] 0 nodes).map Prod.snd ++ ·) :=
    readBlocks?_eventsList [] 0 nodes []
  rw [List.append_nil] at hread
  simpa [readBlocks?] using hread

/-- Both texts of a sheet render one sequence of events. It has one block for each location inside a
rule that holds declarations: these declarations in order, under the selectors of the rules around
them, between the at-rules around them. -/
theorem written_blocks (nodes : List Node) :
    ∃ events : List Event,
      render false nodes = renderPretty 0 events ∧
      render true nodes = renderMinified events ∧
      ∃ blocks : List PlacedBlock, readBlocks? [] events = some blocks ∧
        (∀ block ∈ blocks, block.declarations ≠ []) ∧
        ∃ locations : List (List Enclosure), locations.Nodup ∧
          (∀ location, location ∈ locations ↔
            (selector? location).isSome ∧
              ∃ declaration, (location, declaration) ∈ located nodes) ∧
          blocks.map some = locations.map (blockAt? nodes) := by
  refine ⟨events nodes, render_pretty nodes, render_minified nodes, _, readBlocks?_events nodes, ?_,
    (entriesFrom [] 0 nodes).map Prod.fst, nodup_entriesFrom nodes [] 0,
    mem_entries_iff nodes, ?_⟩
  · intro block hblock
    obtain ⟨⟨location, block⟩, hentry, rfl⟩ := List.mem_map.mp hblock
    exact (describes_of_mem_entriesFrom nodes [] 0 hentry).declarations_ne
  · rw [List.map_map, List.map_map]
    apply List.map_congr_left
    rintro ⟨location, wrappers, selector, declarations⟩ hentry
    obtain ⟨hselector, rfl, rfl, -⟩ := describes_of_mem_entriesFrom nodes [] 0 hentry
    simp [blockAt?, hselector, located]

example :
    let sheet : List Node :=
      [.rule ".a"
        [.declare "color" "red",
          .atRule ⟨.media, "print"⟩
            [.rule "&:hover" [.declare "width" "0"], .declare "color" "black"]]]
    render false sheet =
        ".a \x7b color:red; \x7d\n@media print \x7b\n  .a \x7b color:black; \x7d\n" ++
          "  .a:hover \x7b width:0; \x7d\n\x7d\n" ∧
      render true sheet =
        ".a\x7bcolor:red\x7d@media print\x7b.a\x7bcolor:black\x7d.a:hover\x7bwidth:0\x7d\x7d" := by
  decide +kernel

end AtomicCss.Sheet
