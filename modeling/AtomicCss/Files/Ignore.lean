import AtomicCss.Files.Tree
import AtomicCss.Glob.Parse
import AtomicCss.Text.Blank

/-!
Files that say which paths to leave out. Each line of such a file is a glob; `!` in front of it
takes paths back in, a slash at its end makes it one for directories, and a glob without other
slashes matches below every directory.
-/

namespace AtomicCss

structure IgnoreRule where
  glob : Glob
  keeps : Bool
  directoryOnly : Bool

inductive Verdict where
  | ignored
  | kept
  deriving DecidableEq, Repr

namespace IgnoreRule

/-- The line without trailing blanks. A blank after a backslash stays, and all before it. -/
def trimLine (line : List Char) : List Char :=
  match Text.before? ['\\', ' '] line with
  | some _ => line
  | none => Text.trimEnd line

/-- The glob that stands for a pattern: below every directory if it is neither anchored nor has a
slash, and only what lies inside for a pattern that ends in `/**`. -/
def expand (anchored : Bool) (pattern : List Char) : List Char :=
  let pattern :=
    if anchored || pattern.contains '/' || pattern == ['*', '*'] then pattern
    else ['*', '*', '/'] ++ pattern
  match Text.before? ['/', '*', '*'] pattern with
  | some _ => pattern ++ ['/', '*']
  | none => pattern

/-- Takes off a slash at the end, and a backslash in front of it. -/
def splitDirectory (pattern : List Char) : Bool × List Char :=
  match Text.before? ['/'] pattern with
  | none => (false, pattern)
  | some rest => (true, (Text.before? ['\\'] rest).getD rest)

/-- Whether the pattern keeps paths, whether it is anchored, and what is left of it. -/
def splitMarks (line : List Char) : Bool × Bool × List Char :=
  match line with
  | '\\' :: '!' :: rest => (false, false, '!' :: rest)
  | '\\' :: '#' :: rest => (false, false, '#' :: rest)
  | '!' :: '/' :: rest => (true, true, rest)
  | '!' :: rest => (true, false, rest)
  | '/' :: rest => (false, true, rest)
  | _ => (false, false, line)

/-- Reads a line. Comments, empty lines and globs that cannot be read say nothing. -/
def parse? (line : List Char) : Option IgnoreRule :=
  if Text.startsWith ['#'] line then none
  else
    let line := trimLine line
    if line.isEmpty then none
    else
      let (keeps, anchored, pattern) := splitMarks line
      let (directoryOnly, pattern) := splitDirectory pattern
      (Glob.parse? true (String.ofList (expand anchored pattern))).map fun glob =>
        ⟨glob, keeps, directoryOnly⟩

def textLines (bytes : List UInt8) : List (List Char) :=
  let lines := (bytes.splitOn 10).map fun line => String.fromUTF8? ⟨line.toArray⟩
  (lines.takeWhile Option.isSome).filterMap fun line =>
    line.map fun text => (Text.before? ['\r'] text.toList).getD text.toList

/-- Reads a file; a byte order mark in front of it says nothing. -/
def parseFile (content : ByteArray) : List IgnoreRule :=
  match textLines content.toList with
  | [] => []
  | first :: lines => (((Text.after? ['\ufeff'] first).getD first) :: lines).filterMap parse?

def verdict? (rules : List IgnoreRule) (path : String) (isDirectory : Bool) : Option Verdict :=
  (rules.reverse.find? fun rule =>
      (isDirectory || !rule.directoryOnly) && rule.glob.isMatch path).map fun rule =>
    if rule.keeps then .kept else .ignored

end IgnoreRule

structure IgnoreScope where
  name : String
  always : List IgnoreRule
  versioned : List IgnoreRule
  excluded : List IgnoreRule
  /-- Whether the directory is the top of a working copy. -/
  isTop : Bool

namespace IgnoreScope

def rulesAt (tree : FileTree) (path : List String) : List IgnoreRule :=
  match FileTree.follow ⟨tree, []⟩ path with
  | .ok ⟨.file content, _⟩ => IgnoreRule.parseFile content
  | _ => []

/-- The scope of a directory. Without `versions`, only its `.ignore` file counts. -/
def ofDirectory (versions : Bool) (name : String) (tree : FileTree) : IgnoreScope where
  name := name
  always := rulesAt tree [".ignore"]
  versioned := if versions then rulesAt tree [".gitignore"] else []
  excluded := if versions then rulesAt tree [".git", "info", "exclude"] else []
  isTop := versions && (tree.child? ".git").isSome

/-- The scopes of a location and of the directories above it, nearest first. -/
def ofLocation (versions : Bool) (location : FileTree.Location) : List IgnoreScope :=
  List.zipWith (ofDirectory versions) (location.above.map Prod.fst ++ [""])
    (location.tree :: location.above.map Prod.snd)

def withPaths (path : String) : List IgnoreScope → List (IgnoreScope × String)
  | [] => []
  | scope :: scopes => (scope, path) :: withPaths (scope.name ++ "/" ++ path) scopes

/-- The scopes up to the nearest top of a working copy, or none if there is no top. -/
def workingCopy (scopes : List (IgnoreScope × String)) : List (IgnoreScope × String) :=
  match scopes.span fun scope => !scope.1.isTop with
  | (_, []) => []
  | (below, top :: _) => below ++ [top]

/-- Whether scopes leave out an entry of the nearest one. Rules that always count come first, then
those of the working copy, then its excluded ones; of each kind the nearest verdict counts. -/
def ignores (scopes : List IgnoreScope) (name : String) (isDirectory : Bool) : Bool :=
  let all := withPaths name scopes
  let versioned := workingCopy all
  let first (rules : IgnoreScope → List IgnoreRule) (scopes : List (IgnoreScope × String)) :=
    scopes.findSome? fun scope => IgnoreRule.verdict? (rules scope.1) scope.2 isDirectory
  ((first always all).or ((first (·.versioned) versioned).or (first excluded versioned))) ==
    some .ignored

end IgnoreScope

end AtomicCss
