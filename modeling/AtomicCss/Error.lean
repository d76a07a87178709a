/-!
Why a compiler cannot be built.
-/

namespace AtomicCss

inductive ConstructionError where
  | duplicateUtility (name : String)
  | rootlessUtility (name : String)
  | duplicateVariant (name : String)
  | unusableSeparator (separator : Char)
  | emptyDarkSelector
  | invalidInternalPrefix (internalPrefix : String)
  deriving DecidableEq, Repr

namespace ConstructionError

def reason : ConstructionError → String
  | .duplicateUtility name => "utility handler '" ++ name ++ "' registered twice"
  | .rootlessUtility name => "utility handler '" ++ name ++ "' declares no roots"
  | .duplicateVariant name => "variant handler '" ++ name ++ "' registered twice"
  | .unusableSeparator separator =>
      "'" ++ separator.toString ++ "' cannot be used as the variant separator"
  | .emptyDarkSelector => "dark mode class selector is empty"
  | .invalidInternalPrefix internalPrefix =>
      "invalid internal prefix '" ++ internalPrefix ++ "'"

def message (error : ConstructionError) : String :=
  "construction error: " ++ error.reason

end ConstructionError

end AtomicCss
