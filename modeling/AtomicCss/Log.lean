import AtomicCss.Utility.Definition

/-!
What is reported while the program works.
-/

namespace AtomicCss

inductive LogEvent where
  | loadedConfiguration (path : String)
  | rejectedDefinition (pattern : String) (error : Utility.DefinitionError)
  | scanFinished (files classes : Nat)
  | buildFinished (files classes bytes : Nat)
  deriving DecidableEq, Repr

def LogEvent.render : LogEvent → String
  | .loadedConfiguration path => "INFO loaded config path=" ++ path
  | .rejectedDefinition pattern error =>
      "WARN rejected @utility definition pattern=" ++ pattern ++ " error=" ++ error.message
  | .scanFinished files classes =>
      "INFO scan finished files=" ++ Nat.repr files ++ " classes=" ++ Nat.repr classes
  | .buildFinished files classes bytes =>
      "INFO build finished files=" ++ Nat.repr files ++ " classes=" ++ Nat.repr classes ++
        " bytes=" ++ Nat.repr bytes

inductive LogLevel where
  | info
  | debug
  | trace
  deriving DecidableEq, Repr

structure LogFormat where
  level : LogLevel
  /-- Whether a line names the part of the program that it comes from. -/
  showsTarget : Bool
  colored : Bool
  deriving DecidableEq, Repr

/-- Each request for more detail shows one more level. -/
def LogFormat.ofVerbosity (verbosity : Nat) : LogFormat where
  level :=
    match verbosity with
    | 0 => .info
    | 1 => .debug
    | _ => .trace
  showsTarget := false
  colored := true

end AtomicCss
