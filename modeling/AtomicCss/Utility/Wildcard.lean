import AtomicCss.Dictionary
import AtomicCss.Text.Cut

/-!
Wildcard patterns. Each `*` stands for a non-empty text without line breaks; of the ways in which a
subject fits a pattern, the one counts in which the first `*` takes most, then the second, and so
on.
-/

namespace AtomicCss.Utility.Wildcard

/-- The ways to cut a text after a non-empty beginning without line breaks, the longest first. -/
def beginnings : List Char → List (List Char × List Char)
  | [] => []
  | c :: rest =>
      if c = '\n' then []
      else (beginnings rest).map (fun parts => (c :: parts.1, parts.2)) ++ [([c], rest)]

/-- What each `*` stands for, if the texts after the `*`s are these. -/
def captureRest? : (literals : List (List Char)) → List Char → Option (List (List Char))
  | [], [] => some []
  | [], _ :: _ => none
  | literal :: literals, subject =>
      (beginnings subject).findSome? fun parts =>
        ((Text.after? literal parts.2).bind (captureRest? literals)).map (parts.1 :: ·)

/-- A pattern made ready for matching: the text in front of its first `*` and those after each. -/
structure Matcher where
  literals : List (List Char)
  deriving DecidableEq, Repr

namespace Matcher

def ofPattern (pattern : List Char) : Matcher :=
  ⟨Text.splitOn '*' pattern⟩

def captures? (matcher : Matcher) (subject : List Char) : Option (List (List Char)) :=
  match matcher.literals with
  | [] => none
  | first :: literals => (Text.after? first subject).bind (captureRest? literals)

def texts? (matcher : Matcher) (subject : String) : Option (List String) :=
  (matcher.captures? subject.toList).map fun parts => parts.map String.ofList

end Matcher

def captures? (pattern subject : List Char) : Option (List (List Char)) :=
  (Matcher.ofPattern pattern).captures? subject

structure Cache where
  matchers : Dictionary Matcher

namespace Cache

def empty : Cache := ⟨.empty⟩

def size (cache : Cache) : Nat :=
  cache.matchers.size

/-- The matcher of a pattern, which is made when the pattern is looked up for the first time. -/
def lookup (cache : Cache) (pattern : String) : (String → Option (List String)) × Cache :=
  match cache.matchers.get? pattern with
  | some matcher => (matcher.texts?, cache)
  | none =>
      let matcher := Matcher.ofPattern pattern.toList
      (matcher.texts?, ⟨cache.matchers.insert pattern matcher⟩)

end Cache

theorem mem_beginnings_append {beginning : List Char} (hnonempty : beginning ≠ [])
    (hline : '\n' ∉ beginning) (rest : List Char) :
    (beginning, rest) ∈ beginnings (beginning ++ rest) := by
  induction beginning with
  | nil => exact (hnonempty rfl).elim
  | cons c beginning ih =>
      have hc : ¬c = '\n' := fun hc => hline (hc ▸ List.mem_cons_self)
      rw [List.cons_append, beginnings, if_neg hc, List.mem_append]
      cases beginning with
      | nil => exact .inr List.mem_cons_self
      | cons d beginning =>
          have hlater := ih (List.cons_ne_nil d beginning) (mt (List.mem_cons_of_mem c) hline)
          exact .inl (List.mem_map.mpr ⟨_, hlater, rfl⟩)

theorem mem_beginnings {text : List Char} {parts : List Char × List Char} :
    parts ∈ beginnings text ↔ text = parts.1 ++ parts.2 ∧ parts.1 ≠ [] ∧ '\n' ∉ parts.1 := by
  constructor
  · intro h
    induction text generalizing parts with
    | nil => cases h
    | cons c rest ih =>
        rw [beginnings] at h
        split at h
        · cases h
        · rename_i hc
          have hline : '\n' ≠ c := fun hline => hc hline.symm
          rcases List.mem_append.mp h with hlonger | hshort
          · obtain ⟨shorter, hshorter, rfl⟩ := List.mem_map.mp hlonger
            obtain ⟨htext, -, hline'⟩ := ih hshorter
            exact ⟨congrArg (c :: ·) htext, List.cons_ne_nil c _,
              List.not_mem_cons_of_ne_of_not_mem hline hline'⟩
          · rw [List.mem_singleton.mp hshort]
            exact ⟨rfl, List.cons_ne_nil c [], by simp [hline]⟩
  · intro h
    rw [h.1]
    exact mem_beginnings_append h.2.1 h.2.2 parts.2

theorem pairwise_beginnings (text : List Char) :
    (beginnings text).Pairwise fun longer shorter => shorter.1.length < longer.1.length := by
  induction text with
  | nil => exact .nil
  | cons c text ih =>
      rw [beginnings]
      split
      · exact .nil
      · refine List.pairwise_append.mpr ⟨?_, List.pairwise_singleton .., ?_⟩
        · exact List.pairwise_map.mpr (ih.imp fun h => Nat.succ_lt_succ h)
        · intro parts hparts last hlast
          obtain ⟨later, hlater, rfl⟩ := List.mem_map.mp hparts
          rw [List.mem_singleton.mp hlast]
          exact Nat.succ_lt_succ (List.length_pos_iff.mpr (mem_beginnings.mp hlater).2.1)

end AtomicCss.Utility.Wildcard
