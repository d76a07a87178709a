import AtomicCss.Toml.Token
import AtomicCss.Toml.Value

/-!
TOML documents. A document is read token by token, with a stack of the arrays and inline tables that
are open. Texts, booleans, integers, arrays and tables are read; other values and arrays of tables
are refused.
-/

namespace AtomicCss.Toml

/-- The digits of an integer in a base; an underscore may stand between two digits. -/
def integerDigits? (base : Nat) (text : List Char) : Option Nat :=
  let parts := Text.splitOn '_' text
  if parts.any List.isEmpty then none else numeral? base parts.flatten

/-- A decimal integer has no needless zero in front. -/
def decimal? (text : List Char) : Option Nat :=
  match text with
  | '0' :: _ :: _ => none
  | _ => integerDigits? 10 text

def integer? (word : List Char) : Option Int :=
  let number : Option Int :=
    match word with
    | '0' :: 'x' :: digits => (integerDigits? 16 digits).map Int.ofNat
    | '0' :: 'o' :: digits => (integerDigits? 8 digits).map Int.ofNat
    | '0' :: 'b' :: digits => (integerDigits? 2 digits).map Int.ofNat
    | '+' :: digits => (decimal? digits).map Int.ofNat
    | '-' :: digits => (decimal? digits).map fun number => -Int.ofNat number
    | digits => (decimal? digits).map Int.ofNat
  number.filter fun number => -9223372036854775808 ≤ number && number ≤ 9223372036854775807

def wordValue? (word : String) : Option Value :=
  if word = "true" then some (.boolean true)
  else if word = "false" then some (.boolean false)
  else (integer? word.toList).map .integer

def Token.keyPart? : Token → Option String
  | .bare word => if word.toList.contains '+' then none else some word
  | .quoted value multiline => if multiline then none else some value
  | _ => none

inductive KeyUse where
  | header
  | line
  /-- A member of an inline table with these entries. -/
  | member (entries : Entries)

inductive Frame where
  | line (key : List String)
  | array (items : List Value)
  | member (entries : Entries) (key : List String)

inductive Position where
  | lineStart
  | lineEnd
  | keyPart (use : KeyUse) (parts : List String)
  /-- A dot, or what ends the key. -/
  | keyEnd (use : KeyUse) (parts : List String)
  | value
  /-- A value of an array, or the end of the array. -/
  | element (items : List Value)
  /-- A comma, or the end of the array. -/
  | elementEnd (items : List Value)
  /-- A first key, or the end of the inline table. -/
  | firstMember
  /-- A comma, or the end of the inline table. -/
  | memberEnd (entries : Entries)

structure Reader where
  /-- What the lines before this one say. -/
  entries : Entries
  /-- The key of the last header. -/
  header : List String
  /-- What the open values are for, innermost first. -/
  stack : List Frame
  position : Position

namespace Reader

def start : Reader := ⟨[], [], [], .lineStart⟩

def withEntries (reader : Reader) (document : Value) : Option Reader :=
  match document with
  | .table _ entries => some { reader with entries, position := .lineEnd }
  | _ => none

def deliver (reader : Reader) (value : Value) : Option Reader :=
  match reader.stack with
  | [] => none
  | .line key :: stack =>
      (alterAt false (addEntry key value) reader.header .header reader.entries).bind
        ({ reader with stack }).withEntries
  | .array items :: stack =>
      some { reader with stack, position := .elementEnd (items ++ [value]) }
  | .member entries key :: stack =>
      match addEntry key value .inline entries with
      | some (.table _ entries) => some { reader with stack, position := .memberEnd entries }
      | _ => none

def beginValue (reader : Reader) (token : Token) : Option Reader :=
  match token with
  | .quoted value _ => reader.deliver (.text value)
  | .bare word => (wordValue? word).bind reader.deliver
  | .mark '[' => some { reader with position := .element [] }
  | .mark '{' => some { reader with position := .firstMember }
  | _ => none

def beginKey (reader : Reader) (use : KeyUse) (parts : List String) (token : Token) :
    Option Reader :=
  token.keyPart?.map fun part => { reader with position := .keyEnd use (parts ++ [part]) }

def endKey (reader : Reader) (key : List String) : KeyUse → Token → Option Reader
  | .header, .mark ']' =>
      (openSection key .header reader.entries).bind ({ reader with header := key }).withEntries
  | .line, .mark '=' =>
      some { reader with stack := .line key :: reader.stack, position := .value }
  | .member entries, .mark '=' =>
      some { reader with stack := .member entries key :: reader.stack, position := .value }
  | _, _ => none

def step (reader : Reader) (token : Token) : Option Reader :=
  match reader.position with
  | .lineStart =>
      match token with
      | .newline => some reader
      | .mark '[' => some { reader with position := .keyPart .header [] }
      | _ => reader.beginKey .line [] token
  | .lineEnd =>
      match token with
      | .newline => some { reader with position := .lineStart }
      | _ => none
  | .keyPart use parts => reader.beginKey use parts token
  | .keyEnd use parts =>
      match token with
      | .mark '.' => some { reader with position := .keyPart use parts }
      | _ => reader.endKey parts use token
  | .value => reader.beginValue token
  | .element items =>
      match token with
      | .newline => some reader
      | .mark ']' => reader.deliver (.array items)
      | _ => ({ reader with stack := .array items :: reader.stack }).beginValue token
  | .elementEnd items =>
      match token with
      | .newline => some reader
      | .mark ',' => some { reader with position := .element items }
      | .mark ']' => reader.deliver (.array items)
      | _ => none
  | .firstMember =>
      match token with
      | .mark '}' => reader.deliver (.table .inline [])
      | _ => reader.beginKey (.member []) [] token
  | .memberEnd entries =>
      match token with
      | .mark ',' => some { reader with position := .keyPart (.member entries) [] }
      | .mark '}' => reader.deliver (.table .inline entries)
      | _ => none

def finish? (reader : Reader) : Option Entries :=
  match reader.position with
  | .lineStart => some reader.entries
  | _ => none

end Reader

/-- Reads a document. A byte order mark in front of it says nothing. -/
def parse? (text : String) : Option Entries :=
  let text := (Text.after? ['\ufeff'] text.toList).getD text.toList
  (tokens? text).bind fun tokens =>
    ((tokens ++ [Token.newline]).foldlM Reader.step Reader.start).bind Reader.finish?

end AtomicCss.Toml
