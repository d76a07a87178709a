import AtomicCss.Sheet.Writer

/-!
A sheet as a sequence of events: an at-rule opens or closes, or a selector gets a block of
declarations. Pretty and minified text are two renderings of one sequence.
-/

namespace AtomicCss.Sheet

inductive Event where
  | opening (head : AtRule)
  | block (selector : String) (declarations : List Declaration)
  | closing
  deriving DecidableEq, Repr

/-- The block of the declarations that stand directly in `children`, under the selector of the rule
around them. -/
def ownBlock (selector : Option String) (children : List Node) : List Event :=
  match selector, ownDeclarations children with
  | some selector, declaration :: declarations => [.block selector (declaration :: declarations)]
  | _, _ => []

mutual

/-- The events of a node inside the rule of `parent`. A declaration outside every rule has none. -/
def Node.events (parent : Option String) : Node → List Event
  | .declaration _ => []
  | .rule selector children =>
      let selector := resolveSelector parent selector
      ownBlock (some selector) children ++ Node.eventsList (some selector) children
  | .atRule head children =>
      .opening head ::
        (ownBlock parent children ++ Node.eventsList parent children ++ [.closing])

def Node.eventsList (parent : Option String) : List Node → List Event
  | [] => []
  | node :: rest => node.events parent ++ Node.eventsList parent rest

end

def events (nodes : List Node) : List Event :=
  Node.eventsList none nodes

def indentation : Nat → String
  | 0 => ""
  | depth + 1 => "  " ++ indentation depth

def renderPretty : (depth : Nat) → List Event → String
  | _, [] => ""
  | depth, .opening head :: rest =>
      indentation depth ++ head.render ++ " \x7b\n" ++ renderPretty (depth + 1) rest
  | depth, .block selector declarations :: rest =>
      indentation depth ++ selector ++ " \x7b" ++
        String.join (declarations.map fun declaration => " " ++ declaration.render ++ ";") ++
        " \x7d\n" ++ renderPretty depth rest
  | depth, .closing :: rest =>
      indentation (depth - 1) ++ "\x7d\n" ++ renderPretty (depth - 1) rest

def Event.renderMinified : Event → String
  | .opening head => head.render ++ "\x7b"
  | .block selector declarations =>
      selector ++ "\x7b" ++ ";".intercalate (declarations.map Declaration.render) ++ "\x7d"
  | .closing => "\x7d"

def renderMinified (events : List Event) : String :=
  String.join (events.map Event.renderMinified)

end AtomicCss.Sheet
