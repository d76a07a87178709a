import AtomicCss.Sheet.Merge
import AtomicCss.Sheet.Writer
import AtomicCss.Stylesheet.Compiler
import AtomicCss.Stylesheet.Variables

/-!
The stylesheet of a list of classes: the tokens it needs, the components, the classes.
-/

namespace AtomicCss.Compiler

structure ComponentPart where
  hasVariants : Bool
  placement : Placement
  nodes : List Sheet.Node

def componentPart? (compiler : Compiler) (selector name : String) : Option ComponentPart :=
  let (tokens, base) := Variant.tokenize compiler.settings.separator name
  (compiler.parts? base tokens (Placement.ofSelector ⟨selector⟩)).map fun parts =>
    ⟨!tokens.isEmpty, parts.outcome.placement, parts.nodes⟩

def isDeclaration : Sheet.Node → Bool
  | .declaration _ => true
  | _ => false

/-- The rule of a component from its classes without variants: their declarations are merged. -/
def baseRule? (selector : String) (parts : List ComponentPart) : Option Sheet.Node :=
  match (parts.filter (!·.hasVariants)).flatMap ComponentPart.nodes with
  | [] => none
  | nodes =>
      let merged := Sheet.mergeDeclarations .smart (Sheet.ownDeclarations nodes)
      some (.rule selector (merged.map .declaration ++ nodes.filter (!isDeclaration ·)))

/-- Adds a component: its own rule, then a rule for each class with variants. -/
def addComponent (compiler : Compiler) (nodes : List Sheet.Node)
    (component : String × List String) : List Sheet.Node :=
  let parts := component.2.filterMap (compiler.componentPart? component.1)
  (parts.filter (·.hasVariants)).foldl
    (fun nodes part =>
      Sheet.insertWrapped part.placement.wrappers (.rule part.placement.selector.text part.nodes)
        nodes)
    (nodes ++ (baseRule? component.1 parts).toList)

def components (compiler : Compiler) : List Sheet.Node :=
  compiler.settings.applies.entries.foldl compiler.addComponent []

def classRules (compiler : Compiler) (classes : List String) : List Sheet.Node :=
  (compiler.compile classes).foldl
    (fun nodes rule => Sheet.insertWrapped rule.placement.wrappers rule.toNode nodes) []

def nodes (compiler : Compiler) (classes : List String) : List Sheet.Node :=
  let rules := compiler.components ++ compiler.classRules classes
  (Stylesheet.themeRule? compiler.settings.themeEmission compiler.settings.theme rules).toList ++
    rules

def process (compiler : Compiler) (classes : List String) : String :=
  Sheet.render compiler.settings.minify (compiler.nodes classes)

end AtomicCss.Compiler
