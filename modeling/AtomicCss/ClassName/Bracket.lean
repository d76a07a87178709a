import AtomicCss.Text.Cut

/-!
Brackets in class names: `[...]` and `(...)` hold text that is not cut any further.
-/

namespace AtomicCss.ClassName

/-- Whether each closing bracket has an opening one before it, with `depth` open at the start and
none at the end. -/
def isBalanced (opening closing : Char) : (depth : Nat) → List Char → Bool
  | depth, [] => depth == 0
  | depth, c :: rest =>
      if c = opening then isBalanced opening closing (depth + 1) rest
      else if c = closing then
        match depth with
        | 0 => false
        | depth + 1 => isBalanced opening closing depth rest
      else isBalanced opening closing depth rest

/-- The non-empty content of a text that is one bracketed span as a whole. -/
def inside? (opening closing : Char) (text : List Char) : Option (List Char) := do
  let inner ← (Text.after? [opening] text).bind (Text.before? [closing])
  if isBalanced opening closing 0 inner && !inner.isEmpty then some inner else none

def insideSquare? (text : List Char) : Option (List Char) :=
  inside? '[' ']' text

def insideRound? (text : List Char) : Option (List Char) :=
  inside? '(' ')' text

structure Depth where
  square : Nat
  round : Nat
  deriving DecidableEq, Repr

namespace Depth

def zero : Depth := ⟨0, 0⟩

def step (depth : Depth) (c : Char) : Depth :=
  if c = '[' then { depth with square := depth.square + 1 }
  else if c = ']' then { depth with square := depth.square - 1 }
  else if c = '(' then { depth with round := depth.round + 1 }
  else if c = ')' then { depth with round := depth.round - 1 }
  else depth

end Depth

/-- Cuts a text at its last `/` outside brackets. -/
def cutModifierFrom? : Depth → List Char → Option (List Char × List Char)
  | _, [] => none
  | depth, c :: rest =>
      match cutModifierFrom? (depth.step c) rest with
      | some (head, modifier) => some (c :: head, modifier)
      | none => if c = '/' ∧ depth = Depth.zero then some ([], rest) else none

/-- A text without its modifier, and the modifier: what follows the last `/` outside brackets. -/
def splitModifier (text : List Char) : List Char × Option (List Char) :=
  match cutModifierFrom? Depth.zero text with
  | some (head, modifier) => (head, some modifier)
  | none => (text, none)

theorem eq_append_of_cutModifierFrom? {depth : Depth} {text head modifier : List Char}
    (h : cutModifierFrom? depth text = some (head, modifier)) :
    text = head ++ '/' :: modifier := by
  induction text generalizing depth head with
  | nil => simp [cutModifierFrom?] at h
  | cons c text ih =>
      simp only [cutModifierFrom?] at h
      split at h
      · rename_i hcut
        cases h
        simp [ih hcut]
      · split at h
        · simp_all
        · simp at h

theorem eq_append_of_splitModifier {text head modifier : List Char}
    (h : splitModifier text = (head, some modifier)) : text = head ++ '/' :: modifier := by
  unfold splitModifier at h
  split at h
  · rename_i hcut
    cases h
    exact eq_append_of_cutModifierFrom? hcut
  · cases h

theorem infix_splitModifier (text : List Char) :
    (splitModifier text).1 <:+: text ∧
      ∀ modifier ∈ (splitModifier text).2, modifier <:+: text := by
  unfold splitModifier
  split
  · rename_i head modifier hcut
    rw [eq_append_of_cutModifierFrom? hcut]
    refine ⟨(List.prefix_append _ _).isInfix, fun found hfound => ?_⟩
    cases hfound
    exact ((List.suffix_cons _ _).trans (List.suffix_append _ _)).isInfix
  · exact ⟨List.infix_rfl, nofun⟩

theorem eq_of_inside? {opening closing : Char} {text inner : List Char}
    (h : inside? opening closing text = some inner) :
    text = opening :: (inner ++ [closing]) ∧ isBalanced opening closing 0 inner = true := by
  simp only [inside?, Option.bind_eq_bind, Option.bind_eq_some_iff] at h
  obtain ⟨content, ⟨rest, hafter, hbefore⟩, hinner⟩ := h
  split at hinner
  · rename_i hbalanced
    cases hinner
    rw [Text.eq_append_of_after? hafter, Text.eq_append_of_before? hbefore]
    exact ⟨rfl, (Bool.and_eq_true_iff.mp hbalanced).1⟩
  · cases hinner

theorem length_lt_of_inside? {opening closing : Char} {text inner : List Char}
    (h : inside? opening closing text = some inner) : inner.length < text.length := by
  rw [(eq_of_inside? h).1, List.length_cons, List.length_append]
  omega

end AtomicCss.ClassName
