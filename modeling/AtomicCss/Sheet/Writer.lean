import AtomicCss.Selector
import AtomicCss.Sheet.Node

/-!
The text of a sheet. A rule inside a rule is written after it with its selector resolved, and an
at-rule keeps what stands in it between its braces.
-/

namespace AtomicCss.Sheet

def resolveSelector (parent : Option String) (selector : String) : String :=
  match parent with
  | some parent => Selector.nested parent selector
  | none => selector

structure Writer where
  minify : Bool
  out : String := ""

namespace Writer

def push (writer : Writer) (text : String) : Writer :=
  { writer with out := writer.out ++ text }

def indent (depth : Nat) (writer : Writer) : Writer :=
  if writer.minify then writer else (List.replicate depth "  ").foldl push writer

def openBlock (writer : Writer) : Writer :=
  writer.push (if writer.minify then "\x7b" else " \x7b\n")

def closeBlock (depth : Nat) (writer : Writer) : Writer :=
  (writer.indent depth).push (if writer.minify then "\x7d" else "\x7d\n")

def pushDeclaration (writer : Writer) (declaration : Declaration) : Writer :=
  ((writer.push " ").push declaration.render).push ";"

def block (selector : String) (declarations : List Declaration) (depth : Nat)
    (writer : Writer) : Writer :=
  let writer := (writer.indent depth).push selector
  if writer.minify then
    ((writer.push "\x7b").push (";".intercalate (declarations.map Declaration.render))).push "\x7d"
  else
    (declarations.foldl pushDeclaration (writer.push " \x7b")).push " \x7d\n"

/-- Writes the declarations that stand directly in `children`, under the selector of the rule
around them. Outside every rule they are left out. -/
def ownBlock (selector : Option String) (children : List Node) (depth : Nat)
    (writer : Writer) : Writer :=
  match selector, ownDeclarations children with
  | some selector, declaration :: declarations =>
      writer.block selector (declaration :: declarations) depth
  | _, _ => writer

mutual

def node (parent : Option String) (depth : Nat) (writer : Writer) : Node → Writer
  | .declaration _ => writer
  | .rule selector children =>
      let selector := resolveSelector parent selector
      (writer.ownBlock (some selector) children depth).nodes (some selector) depth children
  | .atRule head children =>
      let writer := ((writer.indent depth).push head.render).openBlock
      let writer := writer.ownBlock parent children (depth + 1)
      (writer.nodes parent (depth + 1) children).closeBlock depth

def nodes (parent : Option String) (depth : Nat) (writer : Writer) : List Node → Writer
  | [] => writer
  | node :: rest => (writer.node parent depth node).nodes parent depth rest

end

/-- What is written. Text that is not minified ends with a line break. -/
def finish (writer : Writer) : String :=
  if writer.minify || writer.out == "" || writer.out.toList.getLast? == some '\n' then writer.out
  else writer.out ++ "\n"

end Writer

def render (minify : Bool) (nodes : List Node) : String :=
  (({ minify } : Writer).nodes none 0 nodes).finish

end AtomicCss.Sheet
