import AtomicCss.Command.Arguments
import AtomicCss.Configuration
import AtomicCss.Files.Scan
import AtomicCss.Log
import AtomicCss.Stylesheet.Output

/-!
What a command does with the files of the working directory.
-/

namespace AtomicCss

/-- The files, and what has been printed, written and reported. -/
structure Session where
  tree : FileTree
  printed : String := ""
  written : List (String × String) := []
  log : List LogEvent := []

/-- Steps that can fail. What was done before a failure stays done. -/
abbrev Action := ExceptT Failure (StateM Session)

namespace Action

def report (event : LogEvent) : Action Unit :=
  modify fun session => { session with log := session.log ++ [event] }

def print (text : String) : Action Unit :=
  modify fun session => { session with printed := session.printed ++ text }

def ask {α : Type} (answer : FileTree → Except Failure α) : Action α := do
  match answer (← get).tree with
  | .ok value => pure value
  | .error error => throw error

def readText (path : String) : Action String :=
  ask fun tree =>
    match tree.readText path with
    | .ok text => .ok text
    | .error error => .error (.file path error)

def writeText (path text : String) : Action Unit := do
  let tree ← ask fun tree =>
    match tree.write path text with
    | .ok tree => .ok tree
    | .error error => .error (.file path error)
  modify fun session => { session with tree, written := session.written ++ [(path, text)] }

end Action

namespace Command

def defaultConfiguration : String := "monorail.toml"

def directoryOf (path : String) : String :=
  let isIdle (name : List Char) : Bool := name.isEmpty || name == ['.']
  let names := ((Text.splitOn '/' path.toList).reverse.dropWhile isIdle).drop 1
  let directory :=
    match names.dropWhile isIdle with
    | [] => if names.getLast? = some ['.'] then ['.'] else []
    | names => Text.join ['/'] names.reverse
  if directory.isEmpty then "." else String.ofList directory

/-- The settings of the configuration that is named, or else of the usual one if it is there. -/
def loadSettings (named : Option String) : Action Settings := do
  let tree := (← get).tree
  if named.isNone && !tree.isFile defaultConfiguration then return {}
  let path := named.getD defaultConfiguration
  let configuration ← Action.ask fun tree => Configuration.load tree path
  Action.report (.loadedConfiguration path)
  Action.ask fun tree => configuration.settings tree (directoryOf path)

def sorted (classes : List String) : List String :=
  classes.mergeSort fun first second => first ≤ second

def runScan (arguments : ScanArguments) : Action Unit := do
  let result ← Action.ask fun tree => tree.scanGlobs arguments.patterns arguments.ignored {}
  Action.print (String.join ((sorted result.classes).map (· ++ "\n")))
  Action.report (.scanFinished result.files result.classes.length)

def addSource (settings : Settings) : Option String → Action Settings
  | none => pure settings
  | some path => do
      let text ← Action.readText path
      return settings.withSource (ThemeSource.parse text)

/-- The file that is written is not scanned. -/
def runBuild (arguments : BuildArguments) : Action Unit := do
  let settings ← loadSettings arguments.configuration
  let settings ← addSource settings arguments.source
  let compiler ←
    match Compiler.build { settings with minify := settings.minify || arguments.minify } with
    | .ok compiler => pure compiler
    | .error error => throw (.construction error)
  compiler.warnings.forM Action.report
  let ignored := arguments.ignored ++ arguments.output.toList
  let result ← Action.ask fun tree => tree.scanGlobs arguments.patterns ignored {}
  let css := compiler.process result.classes
  match arguments.output with
  | some path => Action.writeText path css
  | none => Action.print css
  Action.report (.buildFinished result.files result.classes.length css.utf8ByteSize)

def action : Command → Action Unit
  | .scan arguments => runScan arguments
  | .build arguments => runBuild arguments

def run (command : Command) (tree : FileTree) : Except Failure Unit × Session :=
  command.action.run.run { tree }

end Command

end AtomicCss
