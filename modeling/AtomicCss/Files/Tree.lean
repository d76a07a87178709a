import AtomicCss.Dictionary
import AtomicCss.Text.Cut

/-!
A tree of files and directories, and the paths into it. Paths are relative to the root of the tree.
-/

namespace AtomicCss

inductive FileTree where
  | file (content : ByteArray)
  | directory (entries : List (String × FileTree))

inductive FileError where
  | notFound
  | notDirectory
  | isDirectory
  | invalidText
  deriving DecidableEq, Repr

def FileError.message : FileError → String
  | .notFound => "No such file or directory (os error 2)"
  | .notDirectory => "Not a directory (os error 20)"
  | .isDirectory => "Is a directory (os error 21)"
  | .invalidText => "stream did not contain valid UTF-8"

namespace Path

/-- The names in a path. Empty ones and `.` mean nothing. -/
def names (path : String) : List String :=
  ((Text.splitOn '/' path.toList).map String.ofList).filter fun name => name != "" && name != "."

def isAbsolute (path : String) : Bool :=
  Text.startsWith ['/'] path.toList

def namesDirectory (path : String) : Bool :=
  match (Text.splitOn '/' path.toList).getLast? with
  | some last => last == [] || last == ['.'] || last == ['.', '.']
  | none => true

def join (base path : String) : String :=
  if isAbsolute path then path
  else if base = "" || base.toList.getLast? = some '/' then base ++ path
  else base ++ "/" ++ path

def fileName? (path : String) : Option String :=
  match (names path).getLast? with
  | some ".." => none
  | last => last

/-- What follows the last dot of the last name, unless that dot starts it, with capital letters made
small. -/
def extension? (path : String) : Option String :=
  (fileName? path).bind fun name =>
    match (Text.cutsAt '.' name.toList).getLast? with
    | some (stem, extension) =>
        if stem.isEmpty then none else some (String.ofList (extension.map Char.toLower))
    | none => none

end Path

namespace FileTree

def empty : FileTree := .directory []

def isDirectory : FileTree → Bool
  | .file _ => false
  | .directory _ => true

def entries : FileTree → List (String × FileTree)
  | .file _ => []
  | .directory entries => entries

def child? (tree : FileTree) (name : String) : Option FileTree :=
  tree.entries.lookup name

def insert (content : ByteArray) : List String → FileTree → FileTree
  | [], _ => .file content
  | name :: rest, tree =>
      .directory (Dictionary.put name (insert content rest ((tree.child? name).getD empty))
        tree.entries)

def ofFiles (files : List (String × ByteArray)) : FileTree :=
  files.foldl (fun tree file => tree.insert file.2 (Path.names file.1)) empty

/-- A place in the tree: what is there, and the names and trees on the way to it, nearest first. -/
structure Location where
  tree : FileTree
  above : List (String × FileTree)

def Location.names (location : Location) : List String :=
  (location.above.map Prod.fst).reverse

/-- Follows names from a location. What lies above the root is not found. -/
def follow (location : Location) : List String → Except FileError Location
  | [] => .ok location
  | name :: rest =>
      if location.tree.isDirectory then
        if name = ".." then
          match location.above with
          | [] => .error .notFound
          | (_, parent) :: above => follow ⟨parent, above⟩ rest
        else
          match location.tree.child? name with
          | none => .error .notFound
          | some child => follow ⟨child, (name, location.tree) :: location.above⟩ rest
      else .error .notDirectory

def locate (tree : FileTree) (path : String) : Except FileError Location :=
  if path = "" || Path.isAbsolute path then .error .notFound
  else
    match follow ⟨tree, []⟩ (Path.names path) with
    | .error error => .error error
    | .ok location =>
        if Path.namesDirectory path && !location.tree.isDirectory then .error .notDirectory
        else .ok location

def isFile (tree : FileTree) (path : String) : Bool :=
  match tree.locate path with
  | .ok location => !location.tree.isDirectory
  | .error _ => false

def read (tree : FileTree) (path : String) : Except FileError ByteArray :=
  match tree.locate path with
  | .error error => .error error
  | .ok location =>
      match location.tree with
      | .file content => .ok content
      | .directory _ => .error .isDirectory

def readText (tree : FileTree) (path : String) : Except FileError String :=
  match tree.read path with
  | .error error => .error error
  | .ok content =>
      match String.fromUTF8? content with
      | some text => .ok text
      | none => .error .invalidText

/-- Writes a file. The directory that holds it must exist, and its path must not name a
directory. -/
def write (tree : FileTree) (path text : String) : Except FileError FileTree :=
  let names := Path.names path
  if path = "" || Path.isAbsolute path then .error .notFound
  else
    match follow ⟨tree, []⟩ names.dropLast, names.getLast? with
    | .error error, _ => .error error
    | .ok _, none => .error .isDirectory
    | .ok parent, some name =>
        if !parent.tree.isDirectory then .error .notDirectory
        else if Path.namesDirectory path then .error .isDirectory
        else
          match parent.tree.child? name with
          | some (.directory _) => .error .isDirectory
          | _ => .ok (tree.insert text.toUTF8 (parent.names ++ [name]))

end FileTree

end AtomicCss
