import AtomicCss.Text.Word
import AtomicCss.Variant.Condition

/-!
Feature queries. In a query of several conditions, the operators between them are set off by blanks.
-/

namespace AtomicCss.Variant.Supports

def operators : List (List Char) :=
  ["and".toList, "or".toList, "not".toList]

def leadingOperator? (text : List Char) : Option (List Char × List Char) :=
  operators.findSome? fun operator =>
    (Text.after? operator text).map fun rest => (operator, rest)

def stepDepth (depth : Nat) (c : Char) : Nat :=
  if c = '(' then depth + 1 else if c = ')' then depth - 1 else depth

theorem of_leadingOperator?_eq_some {text operator rest : List Char}
    (h : leadingOperator? text = some (operator, rest)) :
    operator ∈ operators ∧ text = operator ++ rest := by
  obtain ⟨found, hfound, hafter⟩ := List.exists_of_findSome?_eq_some h
  obtain ⟨after, hafter, heq⟩ := Option.map_eq_some_iff.mp hafter
  cases heq
  exact ⟨hfound, Text.eq_append_of_after? hafter⟩

theorem length_lt_of_leadingOperator? {text operator rest : List Char}
    (h : leadingOperator? text = some (operator, rest)) : rest.length < text.length := by
  obtain ⟨hoperator, htext⟩ := of_leadingOperator?_eq_some h
  have hpositive : ∀ operator ∈ operators, 0 < operator.length := by decide
  have hlength := hpositive operator hoperator
  rw [htext, List.length_append]
  omega

/-- Whether no word goes on at either end of what stands between two characters. -/
def isWhole (previous next : Option Char) : Bool :=
  !previous.any Text.isWordChar && !next.any Text.isWordChar

/-- An operator that is a whole word of a query. With the blanks around it, it goes from `start` to
`stop`. -/
structure Match where
  before : List Char
  operator : List Char
  isOperator : operator ∈ operators
  after : List Char
  start : Nat
  stop : Nat

/-- Whether the operator joins conditions: it stands outside parentheses and is no part of a longer
name. -/
def Match.joins (found : Match) : Bool :=
  let previous := found.before.getLast?
  found.before.foldl stepDepth 0 == 0 && previous != some ':' && previous != some '-' &&
    found.after.head? != some '-'

/-- The matches in `text`, which stands behind `before` in the query. The last match before them
ends at `stop`. -/
def matchesFrom (stop : Nat) (before text : List Char) : List Match :=
  match text with
  | [] => []
  | c :: rest =>
      match _hoperator : leadingOperator? (c :: rest) with
      | some (operator, after) =>
          if isWhole before.getLast? after.head? then
            let passed := before ++ operator ++ after.takeWhile Text.isBlank
            { before, operator, after
              isOperator := (of_leadingOperator?_eq_some _hoperator).1
              start := stop + (Text.trimEnd (before.drop stop)).length
              stop := passed.length } ::
              matchesFrom passed.length passed (after.dropWhile Text.isBlank)
          else matchesFrom stop (before ++ [c]) rest
      | none => matchesFrom stop (before ++ [c]) rest
termination_by text.length
decreasing_by
  · exact Nat.lt_of_le_of_lt (List.dropWhile_sublist _).length_le
      (length_lt_of_leadingOperator? _hoperator)
  · simp
  · simp

structure Rewriting where
  out : List Char
  cursor : Nat

/-- Writes the query up to a match, and the operator between blanks. -/
def Rewriting.step (query : List Char) (rewriting : Rewriting) (found : Match) : Rewriting :=
  if found.joins then
    { out := rewriting.out ++ (query.take found.start).drop rewriting.cursor ++
        ' ' :: found.operator ++ [' ']
      cursor := found.stop }
  else rewriting

def Rewriting.finish (query : List Char) (rewriting : Rewriting) : List Char :=
  rewriting.out ++ query.drop rewriting.cursor

/-- Puts blanks around the operators between conditions. -/
def setOffOperators (query : List Char) : List Char :=
  ((matchesFrom 0 [] query).foldl (Rewriting.step query) ⟨[], 0⟩).finish query

def normalize (query : List Char) : List Char :=
  Text.join [' '] (Text.words (setOffOperators query))

def isFunctionChar (c : Char) : Bool :=
  c.isAlpha || c == '-'

def startsWithCall (query : List Char) : Bool :=
  Text.startsWith ['('] (query.dropWhile isFunctionChar)

/-- The test that a property is known, by a value that any property takes. -/
def propertyQuery (internalPrefix property : String) : String :=
  "(" ++ property ++ ": var(--" ++ internalPrefix ++ "))"

def query? (internalPrefix : String) : Value → Option String
  | .named property => some (propertyQuery internalPrefix property)
  | .arbitrary text =>
      let content := Css.decodeBracketed text.toList
      if content.isEmpty then none
      else if startsWithCall content then some (String.ofList (normalize content))
      else
        match Text.cut? ':' content with
        | some (property, value) =>
            some ("(" ++ String.ofList (Text.trim property) ++ ": " ++
              String.ofList (Text.trim value) ++ ")")
        | none => some (propertyQuery internalPrefix (String.ofList content))

end AtomicCss.Variant.Supports
