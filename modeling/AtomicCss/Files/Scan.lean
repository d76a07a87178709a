import AtomicCss.Extract.Basic
import AtomicCss.Failure
import AtomicCss.Files.Ignore

/-!
Finding class names in files: in files that are named, or in those below a directory that globs
choose.
-/

namespace AtomicCss

structure ScanOptions where
  basePath : String := "."
  respectGitignore : Bool := true
  includeNodeModules : Bool := false
  includeBinaryFiles : Bool := false
  includeCssFiles : Bool := false
  includeLockFiles : Bool := false

structure ScanResult where
  classes : List String
  files : Nat
  deriving DecidableEq, Repr

namespace ScanOptions

def cssExtensions : List String :=
  ["css", "scss", "sass", "less", "pcss"]

def binaryExtensions : List String :=
  ["png", "jpg", "jpeg", "gif", "webp", "ico", "avif", "mp4", "webm", "mp3", "wav", "zip", "gz",
    "pdf", "woff", "woff2", "ttf", "otf"]

def lockFiles : List String :=
  ["package-lock.json", "pnpm-lock.yaml", "yarn.lock", "bun.lockb", "bun.lock", "Cargo.lock",
    "composer.lock", "Gemfile.lock", "poetry.lock"]

def skips (options : ScanOptions) (path : String) : Bool :=
  (!options.includeNodeModules && (Path.names path).contains "node_modules") ||
    (!options.includeLockFiles && lockFiles.contains ((Path.fileName? path).getD "")) ||
    match Path.extension? path with
    | none => false
    | some extension =>
        (!options.includeCssFiles && cssExtensions.contains extension) ||
          (!options.includeBinaryFiles && binaryExtensions.contains extension)

end ScanOptions

namespace FileTree

mutual

/-- The files of a tree that no scope leaves out, by their way from the tree. -/
def walk (versions : Bool) (scopes : List IgnoreScope) : FileTree → List (List String)
  | .file _ => [[]]
  | .directory entries => walkEntries versions scopes entries

def walkEntries (versions : Bool) (scopes : List IgnoreScope) :
    List (String × FileTree) → List (List String)
  | [] => []
  | (name, tree) :: entries =>
      (if IgnoreScope.ignores scopes name tree.isDirectory then []
        else
          (walk versions (IgnoreScope.ofDirectory versions name tree :: scopes) tree).map
            (name :: ·)) ++
        walkEntries versions scopes entries

end

def filesBelow (tree : FileTree) (versions : Bool) (path : String) : List (List String) :=
  match tree.locate path with
  | .error _ => []
  | .ok location =>
      if path = "-" then []
      else location.tree.walk versions (IgnoreScope.ofLocation versions location)

/-- Reads files in order. Files that are no text are passed over. -/
def scanFiles (tree : FileTree) (paths : List String) : Except Failure ScanResult :=
  paths.foldlM (fun result path =>
    match tree.read path with
    | .error error => .error (.file path error)
    | .ok content =>
        match String.fromUTF8? content with
        | none => .ok result
        | some text =>
            .ok ⟨(result.classes ++ Extract.classesIn (Path.extension? path) text).eraseDups,
              result.files + 1⟩) ⟨[], 0⟩

def parseGlobs (patterns : List String) : Except Failure (List Glob) :=
  patterns.mapM fun pattern =>
    match Glob.parse? false pattern with
    | some glob => .ok glob
    | none => .error (.scan (.invalidGlob pattern))

/-- Whether globs choose a file, by its path or by its way from the base. -/
def chooses (globs : List Glob) (relative path : String) : Bool :=
  globs.any fun glob => glob.isMatch relative || glob.isMatch path

/-- The paths below the base that the included globs choose and the excluded ones do not. -/
def chosenPaths (tree : FileTree) (included excluded : List Glob) (options : ScanOptions) :
    List String :=
  (tree.filesBelow options.respectGitignore options.basePath).filterMap fun names =>
    let relative := "/".intercalate names
    let path := if names.isEmpty then options.basePath else Path.join options.basePath relative
    if chooses included relative path && !chooses excluded relative path && !options.skips path then
      some path
    else none

def scanGlobs (tree : FileTree) (patterns ignored : List String) (options : ScanOptions) :
    Except Failure ScanResult :=
  if patterns.isEmpty then .error (.scan .noPatterns)
  else do
    let included ← parseGlobs patterns
    let excluded ← parseGlobs ignored
    tree.scanFiles (tree.chosenPaths included excluded options)

end FileTree

end AtomicCss
