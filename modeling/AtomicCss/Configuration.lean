import AtomicCss.Failure
import AtomicCss.Stylesheet.Settings
import AtomicCss.Toml.Document

/-!
The configuration of a project, which a TOML file holds, and the settings it stands for.
-/

namespace AtomicCss

structure ThemeConfiguration where
  /-- The theme to start from: `default` or `empty`. -/
  name : String := "default"
  /-- The shades of each palette. -/
  colors : List (String × List (String × String)) := []
  customProperties : List (String × String) := []
  deriving DecidableEq, Repr

structure Configuration where
  namePrefix : Option String := none
  separator : Char := ClassName.defaultSeparator
  minify : Bool := false
  important : Bool := false
  /-- `media`, `class` or a selector. -/
  darkMode : Option String := none
  themeEmission : ThemeEmission := .used
  theme : ThemeConfiguration := {}
  /-- For each new palette, the one it repeats. -/
  palettes : List (String × String) := []
  applies : List (String × List String) := []
  /-- Theme sources, by their paths from the directory of the configuration. -/
  sources : List String := []
  deriving DecidableEq, Repr

namespace Toml.Value

def text? : Value → Option String
  | .text value => some value
  | _ => none

def boolean? : Value → Option Bool
  | .boolean value => some value
  | _ => none

def char? (value : Value) : Option Char :=
  value.text?.bind fun text =>
    match text.toList with
    | [c] => some c
    | _ => none

def listOf? {α : Type} (item? : Value → Option α) : Value → Option (List α)
  | .array items => items.mapM item?
  | _ => none

def tableOf? {α : Type} (item? : Value → Option α) : Value → Option (List (String × α))
  | .table _ entries => entries.mapM fun entry => (item? entry.2).map (entry.1, ·)
  | _ => none

def isEmptyCollection : Value → Bool
  | .array items => items.isEmpty
  | .table _ entries => entries.isEmpty
  | _ => false

end Toml.Value

def ThemeEmission.ofName? (name : String) : Option ThemeEmission :=
  if name = "used" then some .used
  else if name = "all" then some .all
  else if name = "none" then some .none
  else Option.none

/-- An emission is written as its name, or as a table that has the name for its key and nothing in
it. -/
def ThemeEmission.ofValue? : Toml.Value → Option ThemeEmission
  | .text name => ofName? name
  | .table _ [(name, value)] => if value.isEmptyCollection then ofName? name else Option.none
  | _ => Option.none

namespace ThemeConfiguration

def withField (theme : ThemeConfiguration) (name : String) (value : Toml.Value) :
    Option ThemeConfiguration :=
  match name with
  | "name" => value.text?.map fun name => { theme with name }
  | "colors" =>
      (value.tableOf? (Toml.Value.tableOf? Toml.Value.text?)).map fun colors =>
        { theme with colors }
  | "variables" =>
      (value.tableOf? Toml.Value.text?).map fun customProperties => { theme with customProperties }
  | _ => none

/-- A theme is written as a table of its fields, or as an array of them in order, from which the
last ones may be missing and which may be longer. -/
def ofValue? : Toml.Value → Option ThemeConfiguration
  | .table _ entries => entries.foldlM (fun theme entry => theme.withField entry.1 entry.2) {}
  | .array items =>
      (["name", "colors", "variables"].zip items).foldlM
        (fun theme entry => theme.withField entry.1 entry.2) {}
  | _ => none

end ThemeConfiguration

namespace Configuration

def withField (configuration : Configuration) (name : String) (value : Toml.Value) :
    Option Configuration :=
  match name with
  | "prefix" => value.text?.map fun text => { configuration with namePrefix := some text }
  | "separator" => value.char?.map fun separator => { configuration with separator }
  | "minify" => value.boolean?.map fun minify => { configuration with minify }
  | "important" => value.boolean?.map fun important => { configuration with important }
  | "dark_mode" => value.text?.map fun text => { configuration with darkMode := some text }
  | "theme_emission" =>
      (ThemeEmission.ofValue? value).map fun themeEmission => { configuration with themeEmission }
  | "theme" => (ThemeConfiguration.ofValue? value).map fun theme => { configuration with theme }
  | "palettes" =>
      (value.tableOf? Toml.Value.text?).map fun palettes => { configuration with palettes }
  | "applies" =>
      (value.tableOf? (Toml.Value.listOf? Toml.Value.text?)).map fun applies =>
        { configuration with applies }
  | "sources" =>
      (value.listOf? Toml.Value.text?).map fun sources => { configuration with sources }
  | _ => none

def parse? (text : String) : Option Configuration :=
  (Toml.parse? text).bind fun entries =>
    entries.foldlM (fun configuration entry => configuration.withField entry.1 entry.2) {}

def load (tree : FileTree) (path : String) : Except Failure Configuration :=
  match tree.readText path with
  | .error error => .error (.file path error)
  | .ok text =>
      match parse? text with
      | some configuration => .ok configuration
      | none => .error (.configuration path .malformed)

def baseTheme? (configuration : Configuration) : Option Theme :=
  match configuration.theme.name with
  | "default" => some Theme.standard
  | "empty" => some Theme.empty
  | _ => none

/-- The theme with what the configuration adds to it: palettes, then tokens, then palettes that
repeat others. -/
def extendTheme (configuration : Configuration) (theme : Theme) : Theme :=
  let theme := configuration.namePrefix.elim theme theme.withPrefix
  let theme := configuration.theme.colors.foldl
    (fun theme palette => theme.addPalette palette.1 palette.2) theme
  let theme := theme.addMany configuration.theme.customProperties
  configuration.palettes.foldl (fun theme palette => theme.aliasPalette palette.2 palette.1) theme

def darkModeSetting (configuration : Configuration) : Variant.DarkMode :=
  match configuration.darkMode with
  | none => .standard
  | some mode =>
      match Text.trimmed mode with
      | "media" => .media
      | "class" => .standard
      | selector => .marker selector

def readSources (configuration : Configuration) (tree : FileTree) (directory : String) :
    Except Failure ThemeSource :=
  configuration.sources.foldlM (fun source relative =>
    let path := Path.join directory relative
    match tree.readText path with
    | .error error => .error (.file path error)
    | .ok text => .ok (source.extend (ThemeSource.parse text))) ThemeSource.empty

def settings (configuration : Configuration) (tree : FileTree) (directory : String) :
    Except Failure Settings :=
  match configuration.baseTheme? with
  | none => .error (.configuration directory (.unknownTheme configuration.theme.name))
  | some theme =>
      (configuration.readSources tree directory).map fun source =>
        Settings.withSource
          { theme := configuration.extendTheme theme
            separator := configuration.separator
            minify := configuration.minify
            darkMode := configuration.darkModeSetting
            important := configuration.important
            applies := .ofList configuration.applies
            themeEmission := configuration.themeEmission } source

end Configuration

end AtomicCss
