import AtomicCss.Command.Run

/-!
The program: it reads the working directory, runs the command of its arguments, and carries out what
the command printed, wrote and reported.
-/

namespace AtomicCss

def usageText : String :=
  "Compile utility classes found in your sources into CSS\n\n" ++
  "Usage: monorail [OPTIONS] <COMMAND>\n\n" ++
  "Commands:\n" ++
  "  scan   List the candidate classes found in files matching the globs\n" ++
  "  build  Compile the classes found in files matching the globs into CSS\n" ++
  "  help   Print this message\n\n" ++
  "Options:\n" ++
  "  -v, --verbose...       Increase log verbosity\n" ++
  "  -I, --ignore <GLOB>    Glob patterns to leave out\n" ++
  "  -i, --input <PATH>     CSS with @theme, @utility and @apply blocks (build)\n" ++
  "  -c, --config <PATH>    Project configuration (build)\n" ++
  "  -o, --output <PATH>    Output file (build)\n" ++
  "      --minify           Leave out needless blanks (build)\n" ++
  "  -h, --help             Print help\n" ++
  "  -V, --version          Print version\n"

def versionText : String := "monorail 0.1.0\n"

def UsageError.message : UsageError → String
  | .help => usageText
  | .version => versionText
  | .nothingGiven => usageText
  | .missingCommand => "error: a command is required\n"
  | .unknownCommand => "error: unrecognized command\n"
  | .unknownParameter => "error: unexpected argument\n"
  | .missingPattern => "error: a glob pattern is required\n"
  | .missingValue => "error: a value is required\n"
  | .unneededValue => "error: unexpected value\n"
  | .repeated => "error: an argument cannot be used multiple times\n"

/-- A path of 4096 bytes has no more names than this. -/
def maxDepth : Nat := 2048

def readTree? (entry : IO.FS.DirEntry) : Nat → IO (Option FileTree)
  | 0 => return none
  | depth + 1 =>
      try
        match (← entry.path.symlinkMetadata).type with
        | .dir =>
            let children ← (← entry.path.readDir).toList.filterMapM fun child => do
              return (← readTree? child depth).map (child.fileName, ·)
            return some (.directory children)
        | .file => return some (.file (← IO.FS.readBinFile entry.path))
        | _ => return none
      catch _ => return none

def runInvocation (invocation : Invocation) : IO UInt32 := do
  let tree ← readTree? { root := ".", fileName := "." } maxDepth
  let (result, session) := invocation.command.run (tree.getD .empty)
  for (path, text) in session.written do
    IO.FS.writeFile path text
  IO.print session.printed
  for event in session.log do
    IO.eprintln event.render
  match result with
  | .ok _ => return 0
  | .error error =>
      IO.eprintln ("error: " ++ error.message)
      return 1

end AtomicCss

def main (arguments : List String) : IO UInt32 :=
  match AtomicCss.Invocation.parse arguments with
  | .ok invocation => AtomicCss.runInvocation invocation
  | .error error =>
      if error = .help || error = .version then do
        IO.print error.message
        return 0
      else do
        IO.eprint error.message
        return 2
