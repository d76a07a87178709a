import AtomicCss.ClassName.Segment
import AtomicCss.Theme.Source
import AtomicCss.Variant.Standard

/-!
What a compiler is built from.
-/

namespace AtomicCss

inductive ThemeEmission where
  /-- Those that its rules refer to, directly or through other tokens. -/
  | used
  | all
  | none
  deriving DecidableEq, Repr

structure Settings where
  theme : Theme := Theme.standard
  /-- The character between the segments of a class. -/
  separator : Char := ClassName.defaultSeparator
  minify : Bool := false
  darkMode : Variant.DarkMode := .standard
  /-- The first part of the names of helper variables. -/
  internalPrefix : String := "monorail"
  /-- Whether all declarations of classes are important. -/
  important : Bool := false
  /-- The classes of each component selector. -/
  applies : Dictionary (List String) := .empty
  definitions : List Utility.Definition := []
  themeEmission : ThemeEmission := .used
  deriving DecidableEq

namespace Settings

/-- Adds a theme source: its tokens to the theme, its components at the end, its utilities after
those that are there. -/
def withSource (settings : Settings) (source : ThemeSource) : Settings :=
  { settings with
    theme := settings.theme.addMany source.customProperties
    applies := source.applies.entries.foldl
      (fun applies entry => applies.insertLast entry.1 entry.2) settings.applies
    definitions := settings.definitions ++ source.utilities }

def isReservedSeparator (c : Char) : Bool :=
  "[]()-/!\\.#".toList.contains c

def isPrefixChar (c : Char) : Bool :=
  c.isAlphanum || c == '-' || c == '_'

def isInternalPrefix (text : String) : Bool :=
  text != "" && text.toList.all isPrefixChar

def hasDarkSelector (settings : Settings) : Bool :=
  match settings.darkMode with
  | .marker selector => Text.trimmed selector != ""
  | .media => true

def validate (settings : Settings) : Except ConstructionError Unit :=
  if Text.isBlank settings.separator || isReservedSeparator settings.separator then
    .error (.unusableSeparator settings.separator)
  else if !settings.hasDarkSelector then .error .emptyDarkSelector
  else if !isInternalPrefix settings.internalPrefix then
    .error (.invalidInternalPrefix settings.internalPrefix)
  else .ok ()

end Settings

end AtomicCss
