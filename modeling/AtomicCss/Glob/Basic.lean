import AtomicCss.Text.Cut

/-!
Globs match the bytes of paths. `?` is one byte, `*` any bytes, `**` as a whole component any number
of components; classes stand in brackets and alternatives in braces, and a backslash takes the next
character literally.
-/

namespace AtomicCss.Glob

inductive Token where
  | literal (c : Char)
  | any
  | zeroOrMore
  /-- `**` at the start, and the slash after it. -/
  | leadingComponents
  /-- `**` at the end, and the slash before it. -/
  | trailingComponents
  /-- `**` between two slashes. -/
  | innerComponents
  | oneOf (negated : Bool) (ranges : List (UInt8 × UInt8))
  | alternatives (branches : List (List Token))
  deriving Repr, Inhabited

def slash : UInt8 := 47

def bytes (c : Char) : List UInt8 :=
  String.utf8EncodeChar c

def ends : List UInt8 → List (List UInt8)
  | [] => [[]]
  | byte :: rest => (byte :: rest) :: ends rest

def endsBeforeSlash : List UInt8 → List (List UInt8)
  | [] => [[]]
  | byte :: rest => (byte :: rest) :: if byte = slash then [] else endsBeforeSlash rest

def endsAfterSlash : List UInt8 → List (List UInt8)
  | [] => []
  | byte :: rest => if byte = slash then rest :: endsAfterSlash rest else endsAfterSlash rest

mutual

/-- Whether a token is nothing but alternatives without content. -/
def Token.isVoid : Token → Bool
  | .alternatives branches => areVoid branches
  | _ => false

def isVoid : List Token → Bool
  | [] => true
  | token :: tokens => token.isVoid && isVoid tokens

def areVoid : List (List Token) → Bool
  | [] => true
  | branch :: branches => isVoid branch && areVoid branches

end

mutual

/-- What can follow a token in a path. With `bounded`, `*` and `?` do not match slashes.
Alternatives without content do not count beside others. -/
def Token.rests (bounded : Bool) : Token → List UInt8 → List (List UInt8)
  | .literal c, path => ((bytes c).isPrefixOf? path).toList
  | .any, path =>
      match path with
      | [] => []
      | byte :: rest => if bounded && byte == slash then [] else [rest]
  | .zeroOrMore, path => if bounded then endsBeforeSlash path else ends path
  | .leadingComponents, path => path :: endsAfterSlash path
  | .trailingComponents, path =>
      match path with
      | [] => []
      | byte :: rest => if byte = slash then ends rest else []
  | .innerComponents, path =>
      match path with
      | [] => []
      | byte :: rest => if byte = slash then rest :: endsAfterSlash rest else []
  | .oneOf negated ranges, path =>
      match path with
      | [] => []
      | byte :: rest =>
          if ranges.any (fun range => range.1 ≤ byte && byte ≤ range.2) != negated then [rest]
          else []
  | .alternatives branches, path =>
      if areVoid branches then [path] else branchRests bounded branches path

def tokenRests (bounded : Bool) : List Token → List (List UInt8) → List (List UInt8)
  | [], paths => paths
  | token :: tokens, paths =>
      tokenRests bounded tokens (paths.flatMap fun path => token.rests bounded path).eraseDups

def branchRests (bounded : Bool) : List (List Token) → List UInt8 → List (List UInt8)
  | [], _ => []
  | branch :: branches, path =>
      (if isVoid branch then [] else tokenRests bounded branch [path]) ++
        branchRests bounded branches path

end

end AtomicCss.Glob

namespace AtomicCss

structure Glob where
  tokens : List Glob.Token
  /-- Whether `*` and `?` do not match slashes. -/
  bounded : Bool

/-- Whether a glob matches a whole path. The glob `**` matches every path. -/
def Glob.isMatch (glob : Glob) (path : String) : Bool :=
  match glob.tokens with
  | [.leadingComponents] => true
  | tokens => (Glob.tokenRests glob.bounded tokens [path.toUTF8.toList]).any List.isEmpty

end AtomicCss
