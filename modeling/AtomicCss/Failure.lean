import AtomicCss.Error
import AtomicCss.Files.Tree

/-!
Everything that can stop the program, with its wording.
-/

namespace AtomicCss

inductive ScanError where
  | noPatterns
  | invalidGlob (pattern : String)
  deriving DecidableEq, Repr

inductive ConfigurationError where
  /-- The text is no configuration. -/
  | malformed
  | unknownTheme (name : String)
  deriving DecidableEq, Repr

inductive Failure where
  | construction (error : ConstructionError)
  | configuration (path : String) (error : ConfigurationError)
  | scan (error : ScanError)
  | file (path : String) (error : FileError)
  deriving DecidableEq, Repr

def ScanError.message : ScanError → String
  | .noPatterns => "scan error: at least one input pattern is required"
  | .invalidGlob pattern => "scan error: invalid glob pattern '" ++ pattern ++ "'"

def Failure.message : Failure → String
  | .construction error => error.message
  | .configuration path .malformed => "failed to load config " ++ path
  | .configuration path (.unknownTheme name) =>
      "failed to load config " ++ path ++ ": unknown base theme '" ++ name ++ "'"
  | .scan error => error.message
  | .file path error => "io error on " ++ path ++ ": " ++ error.message

end AtomicCss
