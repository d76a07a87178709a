import AtomicCss.Css.Bracketed
import AtomicCss.Variant.Token

/-!
The condition a variant token puts on an element, as text that can be appended to a selector.
-/

namespace AtomicCss.Variant

def pseudoTable : List (String × String) :=
  [("first", ":first-child"),
    ("last", ":last-child"),
    ("only", ":only-child"),
    ("odd", ":nth-child(odd)"),
    ("even", ":nth-child(even)"),
    ("first-of-type", ":first-of-type"),
    ("last-of-type", ":last-of-type"),
    ("only-of-type", ":only-of-type"),
    ("visited", ":visited"),
    ("target", ":target"),
    ("open", ":is([open], :popover-open)"),
    ("default", ":default"),
    ("checked", ":checked"),
    ("indeterminate", ":indeterminate"),
    ("placeholder-shown", ":placeholder-shown"),
    ("autofill", ":autofill"),
    ("optional", ":optional"),
    ("required", ":required"),
    ("valid", ":valid"),
    ("invalid", ":invalid"),
    ("user-valid", ":user-valid"),
    ("user-invalid", ":user-invalid"),
    ("in-range", ":in-range"),
    ("out-of-range", ":out-of-range"),
    ("read-only", ":read-only"),
    ("empty", ":empty"),
    ("focus-within", ":focus-within"),
    ("hover", ":hover"),
    ("focus", ":focus"),
    ("focus-visible", ":focus-visible"),
    ("active", ":active"),
    ("enabled", ":enabled"),
    ("disabled", ":disabled"),
    ("inert", ":is([inert], [inert] *)"),
    ("rtl", ":where(:dir(rtl), [dir=\"rtl\"], [dir=\"rtl\"] *)"),
    ("ltr", ":where(:dir(ltr), [dir=\"ltr\"], [dir=\"ltr\"] *)"),
    ("before", "::before"),
    ("after", "::after"),
    ("first-letter", "::first-letter"),
    ("first-line", "::first-line"),
    ("marker", "::marker"),
    ("selection", "::selection"),
    ("file", "::file-selector-button"),
    ("placeholder", "::placeholder"),
    ("backdrop", "::backdrop"),
    ("details-content", "::details-content")]

def pseudo? (name : String) : Option String :=
  pseudoTable.lookup name

def decoded (content : String) : String :=
  String.ofList (Css.decodeBracketed content.toList)

def nonEmptyText? (text : String) : Option String :=
  if text = "" then none else some text

namespace Value

def content : Value → String
  | .named text => text
  | .arbitrary text => decoded text

end Value

def dataCondition? (value : Value) : Option String :=
  (nonEmptyText? value.content).map fun key => "[data-" ++ key ++ "]"

/-- An attribute without a value is compared with `true`. -/
def ariaCondition? (value : Value) : Option String :=
  (nonEmptyText? value.content).map fun key =>
    if key.toList.contains '=' then "[aria-" ++ key ++ "]" else "[aria-" ++ key ++ "=\"true\"]"

/-- A named position is a number; a bracketed one is any text. -/
def nthCondition? (pseudoClass : String) (value : Value) : Option String :=
  let argument :=
    match value with
    | .named text => if text.toList.all Char.isDigit then some text else none
    | .arbitrary _ => some value.content
  (argument.bind nonEmptyText?).map fun argument => ":" ++ pseudoClass ++ "(" ++ argument ++ ")"

/-- A bracketed condition is used as it stands, if it is about the element itself. -/
def arbitraryCondition? (content : String) : Option String :=
  (nonEmptyText? (decoded content)).filter fun content =>
    !content.toList.contains '&' && !Text.startsWith ['@'] content.toList

/-- How often a value can still be read as a segment. -/
def Shape.rank : Shape → Nat
  | .function _ value => value.text.length + 1
  | _ => 0

theorem rank_classify_lt (function : Function) (name : String) :
    (classify name).shape.rank < Shape.rank (.function function (.named name)) := by
  cases hshape : (classify name).shape with
  | function other value =>
      have := length_lt_of_classify hshape
      simp only [Shape.rank]
      exact Nat.succ_lt_succ this
  | _ => simp [Shape.rank]

/-- The text a token appends to a selector. A token that is no condition on the element has none. -/
def Shape.condition? : Shape → Option String
  | .plain name => pseudo? name
  | .function kind value =>
      let argument : Option String :=
        match value with
        | .named name => (classify name).shape.condition?
        | .arbitrary _ => nonEmptyText? value.content
      match kind with
      | .data => dataCondition? value
      | .aria => ariaCondition? value
      | .nth => nthCondition? "nth-child" value
      | .nthLast => nthCondition? "nth-last-child" value
      | .nthOfType => nthCondition? "nth-of-type" value
      | .nthLastOfType => nthCondition? "nth-last-of-type" value
      | .has => argument.map fun argument => ":has(" ++ argument ++ ")"
      | .not => argument.map fun argument => ":not(" ++ argument ++ ")"
      | .is => argument.map fun argument => ":is(" ++ argument ++ ")"
      | .whereSelector => argument.map fun argument => ":where(" ++ argument ++ ")"
      | .supports | .min | .max => none
  | .container _ _ _ => none
  | .compound _ _ _ => none
  | .arbitrary content => arbitraryCondition? content
termination_by shape => shape.rank
decreasing_by exact rank_classify_lt kind name

def Token.condition? (token : Token) : Option String :=
  token.shape.condition?

end AtomicCss.Variant
