import AtomicCss.Text.Cut

/-!
Trees of style rules and at-rules.
-/

namespace AtomicCss.Sheet

structure Declaration where
  property : String
  value : String
  important : Bool := false
  deriving DecidableEq, Repr, Inhabited

namespace Declaration

def markImportant (declaration : Declaration) : Declaration :=
  { declaration with important := true }

def render (declaration : Declaration) : String :=
  declaration.property ++ ":" ++ declaration.value ++
    if declaration.important then " !important" else ""

end Declaration

inductive AtRuleKind where
  | media
  | container
  | supports
  | other (name : String)
  deriving DecidableEq, Repr

namespace AtRuleKind

/-- The kind of an at-rule; `@`s in front of its name do not count. -/
def ofName (name : String) : AtRuleKind :=
  let name := String.ofList (name.toList.dropWhile (· == '@'))
  if name = "media" then .media
  else if name = "container" then .container
  else if name = "supports" then .supports
  else .other name

def name : AtRuleKind → String
  | .media => "media"
  | .container => "container"
  | .supports => "supports"
  | .other name => name

end AtRuleKind

/-- The head of an at-rule: what stands in front of its block. -/
structure AtRule where
  kind : AtRuleKind
  params : String
  deriving DecidableEq, Repr

def AtRule.render (atRule : AtRule) : String :=
  "@" ++ atRule.kind.name ++ if atRule.params = "" then "" else " " ++ atRule.params

inductive Node where
  | declaration (content : Declaration)
  /-- The selector of a rule inside another rule is relative to it. -/
  | rule (selector : String) (children : List Node)
  | atRule (head : AtRule) (children : List Node)
  deriving Repr, Inhabited

namespace Node

def declare (property value : String) : Node :=
  .declaration { property, value }

mutual

def mapDeclarations (change : Declaration → Declaration) : Node → Node
  | .declaration content => .declaration (change content)
  | .rule selector children => .rule selector (mapDeclarationsList change children)
  | .atRule head children => .atRule head (mapDeclarationsList change children)

def mapDeclarationsList (change : Declaration → Declaration) : List Node → List Node
  | [] => []
  | node :: rest => node.mapDeclarations change :: mapDeclarationsList change rest

end

def markImportant (node : Node) : Node :=
  node.mapDeclarations Declaration.markImportant

mutual

def declarations : Node → List Declaration
  | .declaration content => [content]
  | .rule _ children => declarationsList children
  | .atRule _ children => declarationsList children

def declarationsList : List Node → List Declaration
  | [] => []
  | node :: rest => node.declarations ++ declarationsList rest

end

theorem mapDeclarationsList_eq_map (change : Declaration → Declaration) (nodes : List Node) :
    mapDeclarationsList change nodes = nodes.map (mapDeclarations change) := by
  induction nodes with
  | nil => rfl
  | cons node rest ih => simp [mapDeclarationsList, ih]

end Node

def ownDeclarations (nodes : List Node) : List Declaration :=
  nodes.filterMap fun node =>
    match node with
    | .declaration content => some content
    | _ => none

/-- Changes the children of the first at-rule with this head, or appends such an at-rule. -/
def placeUnder (head : AtRule) (change : List Node → List Node) : List Node → List Node
  | [] => [.atRule head (change [])]
  | node :: rest =>
      match node with
      | .atRule other children =>
          if other = head then .atRule other (change children) :: rest
          else .atRule other children :: placeUnder head change rest
      | _ => node :: placeUnder head change rest

/-- Appends a node inside at-rules, outermost first, opening only those that are not there yet. -/
def insertWrapped : List AtRule → Node → List Node → List Node
  | [], node, nodes => nodes ++ [node]
  | outer :: rest, node, nodes => placeUnder outer (insertWrapped rest node) nodes

end AtomicCss.Sheet
