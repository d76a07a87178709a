import AtomicCss.Dictionary
import AtomicCss.Text.Cut

/-!
A theme holds design tokens: named values in the order of their first insertion. Each name starts
with `--`, and a name prefix may be put on all names where they are written out.
-/

namespace AtomicCss

namespace Theme

/-- Names hold no dots: the step `2.5` of a scale is called `2_5`. -/
def underscored (text : String) : String :=
  String.ofList (Text.replaceChar '.' ['_'] text.toList)

/-- The key of a name, which may be written with or without its leading dashes. -/
def keyOf (name : String) : String :=
  let name := Text.trim name.toList
  let body := (Text.after? "--".toList name).getD name
  "--" ++ underscored (String.ofList body)

def keyBody (name : String) : List Char :=
  let name := Text.trim name.toList
  Text.replaceChar '.' ['_'] ((Text.after? "--".toList name).getD name)

theorem toList_keyOf (name : String) :
    (keyOf name).toList = '-' :: '-' :: keyBody name := by
  simp [keyOf, keyBody, underscored]

theorem isBlank_getLast?_keyBody {name : String} {c : Char}
    (h : (keyBody name).getLast? = some c) : Text.isBlank c = false := by
  rw [keyBody, Text.replaceChar_singleton, List.getLast?_map, Option.map_eq_some_iff] at h
  obtain ⟨last, hlast, rfl⟩ := h
  have hname : (Text.trim name.toList).getLast? = some last := by
    cases hafter : Text.after? "--".toList (Text.trim name.toList) with
    | none => rwa [hafter] at hlast
    | some rest =>
        rw [hafter, Option.getD_some] at hlast
        rw [Text.eq_append_of_after? hafter, List.getLast?_append, hlast]
        rfl
  split
  · decide
  · exact Text.isBlank_getLast?_trimEnd hname

theorem trim_keyOf (name : String) :
    Text.trim (keyOf name).toList = (keyOf name).toList := by
  have hstart : Text.trimStart ('-' :: '-' :: keyBody name) = '-' :: '-' :: keyBody name :=
    List.dropWhile_cons_of_neg (by decide)
  rw [toList_keyOf, Text.trim, hstart]
  apply Text.trimEnd_eq_self
  intro c hlast
  rw [List.getLast?_cons, List.getLast?_cons, Option.getD_some, Option.some.injEq] at hlast
  cases hbody : (keyBody name).getLast? with
  | none =>
      rw [hbody] at hlast
      subst hlast
      decide
  | some last =>
      rw [hbody] at hlast
      subst hlast
      exact isBlank_getLast?_keyBody hbody

theorem keyBody_keyOf (name : String) : keyBody (keyOf name) = keyBody name := by
  have hafter : Text.after? "--".toList (keyOf name).toList = some (keyBody name) := by
    rw [toList_keyOf]
    exact Text.after?_append ['-', '-'] _
  rw [keyBody, trim_keyOf, hafter, Option.getD_some, keyBody, Text.replaceChar_singleton,
    Text.replaceChar_singleton, List.map_map]
  apply List.map_congr_left
  intro c _
  by_cases hdot : c = '.' <;> simp [hdot]

theorem keyOf_keyOf (name : String) : keyOf (keyOf name) = keyOf name := by
  apply String.toList_inj.mp
  rw [toList_keyOf, keyBody_keyOf, ← toList_keyOf]

end Theme

structure Theme where
  values : Dictionary String
  namePrefix : Option String
  /-- Names are stored as keys. -/
  keyOf_eq : ∀ key ∈ values.keys, Theme.keyOf key = key
  deriving DecidableEq

namespace Theme

def namespaceKey (space : String) : String :=
  "--" ++ String.ofList (space.toList.dropWhile (· == '-'))

def empty : Theme where
  values := Dictionary.empty
  namePrefix := none
  keyOf_eq := nofun

/-- Sets a value. A key that is already present keeps its place. -/
def add (theme : Theme) (name value : String) : Theme :=
  { theme with
    values := theme.values.insert (keyOf name) (Text.trimmed value)
    keyOf_eq := by
      intro key hkey
      rcases Dictionary.eq_or_mem_of_mem_keys_insert hkey with rfl | hkey
      · exact keyOf_keyOf name
      · exact theme.keyOf_eq key hkey }

def addMany (theme : Theme) (entries : List (String × String)) : Theme :=
  entries.foldl (fun theme entry => theme.add entry.1 entry.2) theme

/-- Puts a prefix on all names, without the dashes at its ends; an empty one means none. -/
def withPrefix (theme : Theme) (namePrefix : String) : Theme :=
  let isDash (c : Char) : Bool := c == '-'
  let text := (Text.trim namePrefix.toList).dropWhile isDash
  let text := (text.reverse.dropWhile isDash).reverse
  { theme with namePrefix := if text.isEmpty then none else some (String.ofList text) }

def entries (theme : Theme) : List (String × String) :=
  theme.values.entries

def size (theme : Theme) : Nat :=
  theme.values.size

def isEmpty (theme : Theme) : Bool :=
  theme.values.isEmpty

def get? (theme : Theme) (name : String) : Option String :=
  theme.values.get? (keyOf name)

def contains (theme : Theme) (name : String) : Bool :=
  (theme.get? name).isSome

def restsAfter (theme : Theme) (lead : String) : List String :=
  theme.values.keys.filterMap fun key =>
    (Text.after? lead.toList key.toList).map String.ofList

/-- The names in a namespace. Names with a double dash belong to no namespace. -/
def namesIn (theme : Theme) (space : String) : List String :=
  (theme.restsAfter (namespaceKey space ++ "-")).filter fun name =>
    !Text.contains "--".toList name.toList

def varName (theme : Theme) (name : String) : String :=
  let key := keyOf name
  match theme.namePrefix with
  | some namePrefix => "--" ++ namePrefix ++ "-" ++ String.ofList (key.toList.drop 2)
  | none => key

def varRef (theme : Theme) (name : String) : String :=
  "var(" ++ theme.varName name ++ ")"

def colorLead (palette : String) : String :=
  "--color-" ++ palette ++ "-"

def addPalette (theme : Theme) (name : String) (shades : List (String × String)) : Theme :=
  shades.foldl (fun theme shade => theme.add (colorLead name ++ shade.1) shade.2) theme

/-- Adds to each shade of a color a shade of another name that refers to it, so that the second
follows later changes of the first. -/
def aliasPalette (theme : Theme) (source target : String) : Theme :=
  (theme.restsAfter (colorLead source)).foldl
    (fun theme shade =>
      theme.add (colorLead target ++ shade) (theme.varRef (colorLead source ++ shade))) theme

/-- The first key of the namespaces with this name in it; without a name, the key of the namespace
itself. A name with leading dashes is a key of its own. -/
def resolveKey? (theme : Theme) (name : Option String) (spaces : List String) : Option String :=
  match name with
  | some name =>
      if Text.startsWith "--".toList name.toList then
        if theme.contains name then some (keyOf name) else none
      else
        (spaces.map fun space => namespaceKey space ++ "-" ++ underscored name).find?
          theme.values.contains
  | none => (spaces.map namespaceKey).find? theme.values.contains

def resolve? (theme : Theme) (name : Option String) (spaces : List String) : Option String :=
  (theme.resolveKey? name spaces).map theme.varRef

def resolveValue? (theme : Theme) (name : Option String) (spaces : List String) :
    Option String :=
  (theme.resolveKey? name spaces).bind theme.values.get?

/-- The tokens that every theme starts from: spacing, breakpoints and container sizes. -/
def standard : Theme :=
  empty.addMany
    [("--spacing", "0.25rem"),
      ("--breakpoint-sm", "40rem"),
      ("--breakpoint-md", "48rem"),
      ("--breakpoint-lg", "64rem"),
      ("--breakpoint-xl", "80rem"),
      ("--breakpoint-2xl", "96rem"),
      ("--container-3xs", "16rem"),
      ("--container-2xs", "18rem"),
      ("--container-xs", "20rem"),
      ("--container-sm", "24rem"),
      ("--container-md", "28rem"),
      ("--container-lg", "32rem"),
      ("--container-xl", "36rem"),
      ("--container-2xl", "42rem"),
      ("--container-3xl", "48rem"),
      ("--container-4xl", "56rem"),
      ("--container-5xl", "64rem"),
      ("--container-6xl", "72rem"),
      ("--container-7xl", "80rem"),
      ("--color-black", "#000"),
      ("--color-white", "#fff")]

@[simp] theorem addMany_nil (theme : Theme) : theme.addMany [] = theme := rfl

@[simp] theorem addMany_cons (theme : Theme) (entry : String × String)
    (entries : List (String × String)) :
    theme.addMany (entry :: entries) = (theme.add entry.1 entry.2).addMany entries := rfl

theorem addMany_append (theme : Theme) (first second : List (String × String)) :
    theme.addMany (first ++ second) = (theme.addMany first).addMany second := by
  simp [addMany]

theorem toList_varName (theme : Theme) (name : String) :
    (theme.varName name).toList =
      match theme.namePrefix with
      | some namePrefix => "--".toList ++ namePrefix.toList ++ '-' :: keyBody name
      | none => "--".toList ++ keyBody name := by
  rw [varName]
  cases theme.namePrefix with
  | none => exact toList_keyOf name
  | some namePrefix => simp [toList_keyOf]

/-- Different keys are written out under different names. -/
theorem keyOf_eq_of_varName_eq {theme : Theme} {first second : String}
    (h : theme.varName first = theme.varName second) : keyOf first = keyOf second := by
  have hlist := congrArg String.toList h
  rw [toList_varName, toList_varName] at hlist
  apply String.toList_inj.mp
  rw [toList_keyOf, toList_keyOf]
  cases hname : theme.namePrefix with
  | none => simpa [hname] using hlist
  | some namePrefix => simpa [hname] using hlist

end Theme

end AtomicCss
