import AtomicCss.Sheet.Node
import AtomicCss.Stylesheet.Settings

/-!
The variables that a stylesheet declares.
-/

namespace AtomicCss.Stylesheet

def endsName (c : Char) : Bool :=
  c == ',' || c == ')' || Text.isBlank c

def nameAfter (text : List Char) : Option String :=
  let text := Text.trimStart text
  if Text.startsWith "--".toList text then
    some (String.ofList (text.takeWhile fun c => !endsName c))
  else none

def referencesIn : List Char → List String
  | [] => []
  | c :: rest =>
      match Text.after? "var(".toList (c :: rest) with
      | some after => (nameAfter after).toList ++ referencesIn rest
      | none => referencesIn rest

def references (value : String) : List String :=
  referencesIn value.toList

def referencesOf (entries : List (String × String)) (name : String) : List String :=
  match entries.find? (·.1 == name) with
  | some entry => references entry.2
  | none => []

def unreached (entries : List (String × String)) (reached : List String) :
    List (String × String) :=
  entries.filter fun entry => !reached.contains entry.1

theorem unreached_cons (entries : List (String × String)) (name : String)
    (reached : List String) :
    unreached entries (name :: reached) = (unreached entries reached).filter (·.1 != name) := by
  rw [unreached, unreached, List.filter_filter]
  apply List.filter_congr
  intro entry _
  rw [List.contains_cons, Bool.not_or]
  rfl

theorem length_unreached_le (entries : List (String × String)) (name : String)
    (reached : List String) :
    (unreached entries (name :: reached)).length ≤ (unreached entries reached).length := by
  rw [unreached_cons]
  exact List.length_filter_le ..

theorem length_unreached_lt {entries : List (String × String)} {name : String}
    {reached : List String} {entry : String × String}
    (hentry : entries.find? (·.1 == name) = some entry) (hreached : name ∉ reached) :
    (unreached entries (name :: reached)).length < (unreached entries reached).length := by
  have hname : entry.1 = name := by simpa using List.find?_some hentry
  rw [unreached_cons]
  apply List.length_filter_lt_length_iff_exists.mpr
  refine ⟨entry, List.mem_filter.mpr ⟨List.mem_of_find?_eq_some hentry, ?_⟩, ?_⟩
  · simp [hname, hreached]
  · simp [hname]

/-- Adds the names that can be reached from the pending ones through the values of entries. The
name that became pending last is the first. -/
def reach (entries : List (String × String)) (reached pending : List String) : List String :=
  match pending with
  | [] => reached
  | name :: pending =>
      if _hreached : name ∈ reached then reach entries reached pending
      else reach entries (name :: reached) ((referencesOf entries name).reverse ++ pending)
termination_by ((unreached entries reached).length, pending.length)
decreasing_by
  · apply Prod.Lex.right
    simp
  · cases hentry : entries.find? (·.1 == name) with
    | some entry => exact Prod.Lex.left _ _ (length_unreached_lt hentry _hreached)
    | none =>
        apply Prod.Lex.right' _ (length_unreached_le ..)
        simp [referencesOf, hentry]

def writtenEntries (theme : Theme) : List (String × String) :=
  theme.entries.map fun entry => (theme.varName entry.1, theme.prefixReferences entry.2)

def emittedEntries (emission : ThemeEmission) (theme : Theme) (nodes : List Sheet.Node) :
    List (String × String) :=
  let entries := writtenEntries theme
  match emission with
  | .none => []
  | .all => entries
  | .used =>
      let names := (nodes.flatMap Sheet.Node.declarations).flatMap fun declaration =>
        references declaration.value
      let reached := reach entries [] names.reverse
      entries.filter fun entry => reached.contains entry.1

def themeRule? (emission : ThemeEmission) (theme : Theme) (nodes : List Sheet.Node) :
    Option Sheet.Node :=
  match emittedEntries emission theme nodes with
  | [] => none
  | entries =>
      some (.rule ":root, :host" (entries.map fun entry => Sheet.Node.declare entry.1 entry.2))

end AtomicCss.Stylesheet
