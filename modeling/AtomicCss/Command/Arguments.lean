import AtomicCss.Text.Cut

/-!
The command line. Parameters are written `--name value`, `--name=value`, `-n value`, `-nvalue` or
`-n=value`, and flags of one letter may share a dash; what follows `--` is taken as it is.
-/

namespace AtomicCss

structure ScanArguments where
  patterns : List String
  ignored : List String
  deriving DecidableEq, Repr

structure BuildArguments extends ScanArguments where
  /-- A theme source to add. -/
  source : Option String
  configuration : Option String
  /-- The file to write; without it the stylesheet is printed. -/
  output : Option String
  minify : Bool
  deriving DecidableEq, Repr

inductive Command where
  /-- List the classes that files hold. -/
  | scan (arguments : ScanArguments)
  /-- Make the stylesheet of the classes that files hold. -/
  | build (arguments : BuildArguments)
  deriving DecidableEq, Repr

structure Invocation where
  verbosity : Nat
  command : Command
  deriving DecidableEq, Repr

/-- Why arguments make no invocation. Asking for help or for the version is such a reason. -/
inductive UsageError where
  | help
  | version
  /-- There are no arguments at all. -/
  | nothingGiven
  | missingCommand
  | unknownCommand
  | unknownParameter
  | missingPattern
  /-- A parameter has no value, or an empty one where a path is needed. -/
  | missingValue
  /-- A flag has a value. -/
  | unneededValue
  /-- A parameter that is given once is given twice. -/
  | repeated
  deriving DecidableEq, Repr

namespace Command

inductive Parameter where
  | help
  | version
  | verbose
  | minify
  | ignore
  | source
  | configuration
  | output
  deriving DecidableEq, Repr

namespace Parameter

def all : List Parameter :=
  [.help, .version, .verbose, .minify, .ignore, .source, .configuration, .output]

def long : Parameter → String
  | .help => "help"
  | .version => "version"
  | .verbose => "verbose"
  | .minify => "minify"
  | .ignore => "ignore"
  | .source => "input"
  | .configuration => "config"
  | .output => "output"

def short? : Parameter → Option Char
  | .help => some 'h'
  | .version => some 'V'
  | .verbose => some 'v'
  | .minify => none
  | .ignore => some 'I'
  | .source => some 'i'
  | .configuration => some 'c'
  | .output => some 'o'

def takesValue : Parameter → Bool
  | .ignore => true
  | .source => true
  | .configuration => true
  | .output => true
  | _ => false

end Parameter

/-- Where on the command line an argument stands: in front of the command, or after it. -/
inductive Level where
  | top
  | scan
  | build
  deriving DecidableEq, Repr

def Level.accepts : Level → Parameter → Bool
  | _, .help => true
  | _, .verbose => true
  | level, .version => level = .top
  | level, .ignore => level ≠ .top
  | level, _ => level = .build

def Level.ofCommand? (name : String) : Option Level :=
  if name = "scan" then some .scan else if name = "build" then some .build else none

structure Reader where
  level : Level := .top
  /-- How often more detail is asked for in front of the command, and after it. -/
  topVerbosity : Nat := 0
  verbosity : Nat := 0
  patterns : List String := []
  ignored : List String := []
  source : Option String := none
  configuration : Option String := none
  output : Option String := none
  minify : Bool := false
  /-- The last parameter, with its value if that has been read; it is not set yet. -/
  pending : Option (Parameter × Option String) := none
  /-- Whether `--` has been read. -/
  verbatim : Bool := false

namespace Reader

/-- Counts stop at 255. -/
def count (number : Nat) : Nat :=
  min (number + 1) 255

def setFlag (reader : Reader) : Parameter → Except UsageError Reader
  | .help => .error .help
  | .version => .error .version
  | .verbose =>
      .ok (if reader.level = .top then { reader with topVerbosity := count reader.topVerbosity }
        else { reader with verbosity := count reader.verbosity })
  | .minify => if reader.minify then .error .repeated else .ok { reader with minify := true }
  | _ => .error .missingValue

def single (given : Option String) (value : String) : Except UsageError (Option String) :=
  if given.isSome then .error .repeated
  else if value = "" then .error .missingValue
  else .ok (some value)

def setValue (reader : Reader) (parameter : Parameter) (value : String) :
    Except UsageError Reader :=
  match parameter with
  | .ignore => .ok { reader with ignored := reader.ignored ++ [value] }
  | .source => (single reader.source value).map fun source => { reader with source }
  | .configuration =>
      (single reader.configuration value).map fun configuration => { reader with configuration }
  | .output => (single reader.output value).map fun output => { reader with output }
  | _ => .error .unneededValue

def settle (reader : Reader) : Except UsageError Reader :=
  match reader.pending with
  | none => .ok reader
  | some (_, none) => .error .missingValue
  | some (parameter, some value) => ({ reader with pending := none }).setValue parameter value

def takeParameter (reader : Reader) (parameter : Parameter) (attached : Option String) :
    Except UsageError Reader := do
  let settled ← reader.settle
  if parameter.takesValue then
    match attached with
    | some value => settled.setValue parameter value
    | none => .ok { settled with pending := some (parameter, none) }
  else settled.setFlag parameter

def parameterOfName? (reader : Reader) (name : String) : Option Parameter :=
  Parameter.all.find? fun parameter => parameter.long == name && reader.level.accepts parameter

def parameterOfLetter? (reader : Reader) (letter : Char) : Option Parameter :=
  Parameter.all.find? fun parameter =>
    parameter.short? == some letter && reader.level.accepts parameter

def takeLong (reader : Reader) (text : List Char) : Except UsageError Reader :=
  let (name, attached) :=
    match Text.cut? '=' text with
    | some (name, value) => (name, some (String.ofList value))
    | none => (text, none)
  match reader.parameterOfName? (String.ofList name) with
  | none => .error .unknownParameter
  | some parameter =>
      if attached.isSome && !parameter.takesValue then .error .unneededValue
      else reader.takeParameter parameter attached

/-- Reads what follows one dash: flags, and at the end perhaps a parameter with its value. -/
def takeLetters (reader : Reader) : List Char → Except UsageError Reader
  | [] => .ok reader
  | letter :: rest =>
      match reader.parameterOfLetter? letter with
      | none => .error .unknownParameter
      | some parameter =>
          if parameter.takesValue then
            reader.takeParameter parameter
              (if rest.isEmpty then none
                else some (String.ofList ((Text.after? ['='] rest).getD rest)))
          else
            match reader.takeParameter parameter none with
            | .error error => .error error
            | .ok next => takeLetters next rest

/-- Reads a word that is no parameter: the command in front of which there is none, else a
pattern. -/
def takeWord (reader : Reader) (word : String) : Except UsageError Reader :=
  match reader.level with
  | .top =>
      match Level.ofCommand? word with
      | some level =>
          if reader.verbatim then .error .unknownParameter else .ok { reader with level }
      | none =>
          .error (if reader.verbatim && word == "help" then .unknownParameter else .unknownCommand)
  | _ => reader.settle.map fun settled => { settled with patterns := settled.patterns ++ [word] }

def takeValueOrWord (reader : Reader) (word : String) : Except UsageError Reader :=
  match reader.pending with
  | some (parameter, none) => .ok { reader with pending := some (parameter, some word) }
  | _ => reader.takeWord word

def take (reader : Reader) (argument : String) : Except UsageError Reader :=
  if reader.verbatim then reader.takeWord argument
  else
    match argument.toList with
    | ['-', '-'] => .ok { reader with verbatim := true }
    | '-' :: '-' :: rest => reader.takeLong rest
    | ['-'] => reader.takeValueOrWord argument
    | '-' :: rest => reader.takeLetters rest
    | _ => reader.takeValueOrWord argument

def helpOn : List String → UsageError
  | [] => .help
  | [name] => if name = "help" || (Level.ofCommand? name).isSome then .help else .unknownCommand
  | _ => .unknownCommand

def takeAll (reader : Reader) : List String → Except UsageError Reader
  | [] => reader.settle
  | argument :: rest =>
      if reader.level = .top && !reader.verbatim && argument = "help" then .error (helpOn rest)
      else
        match reader.take argument with
        | .error error => .error error
        | .ok next => takeAll next rest

/-- The invocation that all arguments together make. Detail that is asked for after the command
counts alone. -/
def finish (reader : Reader) : Except UsageError Invocation :=
  let scan : ScanArguments := ⟨reader.patterns, reader.ignored⟩
  let verbosity := if reader.verbosity = 0 then reader.topVerbosity else reader.verbosity
  match reader.level with
  | .top => .error (if reader.topVerbosity = 0 then .nothingGiven else .missingCommand)
  | .scan =>
      if reader.patterns.isEmpty then .error .missingPattern
      else .ok ⟨verbosity, .scan scan⟩
  | .build =>
      if reader.patterns.isEmpty then .error .missingPattern
      else
        .ok ⟨verbosity, .build
          ⟨scan, reader.source, reader.configuration, reader.output, reader.minify⟩⟩

end Reader

end Command

def Invocation.parse (arguments : List String) : Except UsageError Invocation := do
  let reader ← Command.Reader.takeAll {} arguments
  reader.finish

end AtomicCss
