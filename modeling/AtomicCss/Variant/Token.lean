import AtomicCss.ClassName.Bracket
import AtomicCss.ClassName.Segment

/-!
Variant tokens: the segments of a class string in front of its base utility, classified.
-/

namespace AtomicCss.Variant

inductive Value where
  | named (text : String)
  | arbitrary (text : String)
  deriving DecidableEq, Repr

def Value.text : Value → String
  | .named text => text
  | .arbitrary text => text

inductive Function where
  | nthLastOfType
  | nthOfType
  | nthLast
  | supports
  | whereSelector
  | aria
  | data
  | has
  | not
  | nth
  | max
  | min
  | is
  deriving DecidableEq, Repr

namespace Function

def name : Function → String
  | .nthLastOfType => "nth-last-of-type"
  | .nthOfType => "nth-of-type"
  | .nthLast => "nth-last"
  | .supports => "supports"
  | .whereSelector => "where"
  | .aria => "aria"
  | .data => "data"
  | .has => "has"
  | .not => "not"
  | .nth => "nth"
  | .max => "max"
  | .min => "min"
  | .is => "is"

/-- The order in which names are tried: a longer name stands before those it extends. -/
def all : List Function :=
  [.nthLastOfType, .nthOfType, .nthLast, .supports, .whereSelector, .aria, .data, .has, .not, .nth,
    .max, .min, .is]

end Function

inductive Marker where
  | group
  | peer
  deriving DecidableEq, Repr

def Marker.name : Marker → String
  | .group => "group"
  | .peer => "peer"

/-- Which side of a container size a container variant tests; `plain` is written without a word. -/
inductive Bound where
  | plain
  | min
  | max
  deriving DecidableEq, Repr

def Bound.name : Bound → String
  | .plain => "@"
  | .min => "@min"
  | .max => "@max"

inductive Shape where
  | plain (name : String)
  | function (function : Function) (value : Value)
  | container (bound : Bound) (value : Option Value) (label : Option String)
  | compound (marker : Marker) (inner : String) (label : Option String)
  | arbitrary (content : String)
  deriving DecidableEq, Repr

structure Token where
  shape : Shape
  /-- The segment as written. -/
  raw : String
  deriving DecidableEq, Repr

namespace Token

def name (token : Token) : String :=
  match token.shape with
  | .plain name => name
  | .function function _ => function.name
  | .container bound _ _ => bound.name
  | .compound marker _ _ => marker.name
  | .arbitrary _ => ""

def value (token : Token) : Option Value :=
  match token.shape with
  | .plain _ => none
  | .function _ value => some value
  | .container _ value _ => value
  | .compound _ inner _ => some (.named inner)
  | .arbitrary content => some (.arbitrary content)

def label (token : Token) : Option String :=
  match token.shape with
  | .container _ _ label => label
  | .compound _ _ label => label
  | _ => none

end Token

/-- Bracketed text is an arbitrary value, any other a named one. -/
def Value.ofText (text : List Char) : Value :=
  match ClassName.insideSquare? text with
  | some inner => .arbitrary (String.ofList inner)
  | none => .named (String.ofList text)

def nonEmpty? (text : List Char) : Option (List Char) :=
  if text.isEmpty then none else some text

/-- Reads what follows `group` or `peer`: `-inner`, `-inner/label` or `/label-inner`. -/
def compoundShape? (marker : Marker) (rest : List Char) : Option Shape :=
  match rest with
  | '/' :: named =>
      match Text.cut? '-' named with
      | some (label, inner) =>
          if label.isEmpty || inner.isEmpty then none
          else some (.compound marker (String.ofList inner) (some (String.ofList label)))
      | none => none
  | '-' :: body =>
      let plain := (nonEmpty? body).map fun inner => .compound marker (String.ofList inner) none
      match ClassName.splitModifier body with
      | (inner, some label) =>
          if label.isEmpty || inner.isEmpty then plain
          else some (.compound marker (String.ofList inner) (some (String.ofList label)))
      | (_, none) => plain
  | _ => none

def markerShape? (segment : List Char) : Option Shape :=
  [Marker.group, Marker.peer].findSome? fun marker =>
    (Text.after? marker.name.toList segment).bind (compoundShape? marker)

/-- Reads a function name, a dash and a value. Only the first name that fits is considered. -/
def functionShape? (segment : List Char) : Option Shape := do
  let (function, rest) ← Function.all.findSome? fun function =>
    (Text.after? (function.name.toList ++ ['-']) segment).map fun rest => (function, rest)
  let rest ← nonEmpty? rest
  some (.function function (Value.ofText rest))

def containerShape (rest : List Char) : Shape :=
  let (body, label) := ClassName.splitModifier rest
  let label := (label.bind nonEmpty?).map String.ofList
  let sized (bound : Bound) (size : List Char) : Shape :=
    .container bound ((nonEmpty? size).map Value.ofText) label
  match Text.after? "min-".toList body, Text.after? "max-".toList body with
  | some size, _ => sized .min size
  | none, some size => sized .max size
  | none, none => sized .plain body

def shapeOf (segment : List Char) : Shape :=
  match ClassName.insideSquare? segment with
  | some content => .arbitrary (String.ofList content)
  | none =>
      match markerShape? segment with
      | some shape => shape
      | none =>
          match functionShape? segment with
          | some shape => shape
          | none =>
              match segment with
              | '@' :: rest => containerShape rest
              | _ => .plain (String.ofList segment)

/-- Classifies one segment. Text of no other shape is a plain name. -/
def classify (segment : String) : Token :=
  ⟨shapeOf segment.toList, segment⟩

def Token.inner? (token : Token) : Option Token :=
  match token.shape with
  | .compound _ inner _ => some (classify inner)
  | _ => none

def tokenize (separator : Char) (text : String) : List Token × String :=
  let segments := ClassName.segments separator text.toList
  (segments.dropLast.map fun segment => classify (String.ofList segment),
    String.ofList (segments.getLast?.getD []))

theorem length_ofText_le (text : List Char) : (Value.ofText text).text.length ≤ text.length := by
  unfold Value.ofText
  split
  · rename_i hinner
    simpa [Value.text] using Nat.le_of_lt (ClassName.length_lt_of_inside? hinner)
  · simp [Value.text]

theorem length_lt_of_functionShape? {segment : List Char} {shape : Shape} {function : Function}
    {value : Value} (h : functionShape? segment = some shape)
    (hshape : shape = .function function value) : value.text.length < segment.length := by
  subst hshape
  simp only [functionShape?, Option.bind_eq_bind, Option.bind_eq_some_iff] at h
  obtain ⟨⟨found, rest⟩, hfound, tail, htail, hvalue⟩ := h
  obtain ⟨candidate, _, hafter⟩ := List.exists_of_findSome?_eq_some hfound
  obtain ⟨after, hafter, heq⟩ := Option.map_eq_some_iff.mp hafter
  cases heq
  cases hvalue
  have htail : tail = rest := by
    simp only [nonEmpty?] at htail
    split at htail <;> simp_all
  subst htail
  have hlength := Text.length_lt_of_after? (by simp) hafter
  exact Nat.lt_of_le_of_lt (length_ofText_le tail) hlength

theorem compoundShape?_ne_function (marker : Marker) (rest : List Char) (function : Function)
    (value : Value) : compoundShape? marker rest ≠ some (.function function value) := by
  intro h
  unfold compoundShape? at h
  repeat' split at h
  all_goals simp_all [nonEmpty?]

theorem length_lt_of_classify {segment : String} {function : Function} {value : Value}
    (h : (classify segment).shape = .function function value) :
    value.text.length < segment.length := by
  simp only [classify, shapeOf] at h
  rw [← String.length_toList]
  split at h
  · simp at h
  · split at h
    · rename_i hmarker
      obtain ⟨marker, _, hshape⟩ := List.exists_of_findSome?_eq_some hmarker
      obtain ⟨rest, _, hshape⟩ := Option.bind_eq_some_iff.mp hshape
      exact absurd (h ▸ hshape) (compoundShape?_ne_function marker rest function value)
    · split at h
      · rename_i hfunction
        exact length_lt_of_functionShape? hfunction h
      · split at h
        · unfold containerShape at h
          dsimp only at h
          split at h <;> simp at h
        · simp at h

end AtomicCss.Variant
