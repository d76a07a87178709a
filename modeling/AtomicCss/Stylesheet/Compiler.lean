import AtomicCss.Log
import AtomicCss.Stylesheet.Settings
import AtomicCss.Utility.Catalogue
import AtomicCss.Utility.Custom

/-!
A compiler turns classes into rules and puts these in order.
-/

namespace AtomicCss

structure CompiledRule where
  name : String
  placement : Placement
  nodes : List Sheet.Node
  /-- The weights of its variants, in order. -/
  weights : List Nat
  /-- The place of its utility in the registry. -/
  index : Nat

namespace CompiledRule

def hasVariants (rule : CompiledRule) : Bool :=
  !rule.weights.isEmpty

def signature (rule : CompiledRule) : List Nat :=
  rule.weights.mergeSort fun left right => decide (right ≤ left)

/-- Rules without variants come first, then lighter variants, earlier utilities, smaller names. -/
def order (left right : CompiledRule) : Ordering :=
  (compare left.hasVariants right.hasVariants).then <|
    (compare left.signature right.signature).then <|
      (compare left.index right.index).then (compare left.name right.name)

def toNode (rule : CompiledRule) : Sheet.Node :=
  .rule rule.placement.selector.text rule.nodes

end CompiledRule

structure Compiler where
  settings : Settings
  utilities : Utility.Registry
  variants : Variant.Registry
  /-- The patterns whose definitions were not valid, and why. -/
  rejected : List (String × Utility.DefinitionError)

namespace Compiler

def lastDefinitions (definitions : List Utility.Definition) : List Utility.Definition :=
  (definitions.foldl
    (fun (kept : Dictionary Utility.Definition) definition =>
      kept.insertLast definition.pattern definition) .empty).values

def customUtilities (definitions : List Utility.Definition) : List Utility :=
  (lastDefinitions definitions).filterMap fun definition =>
    (Utility.ofDefinition definition).toOption

def rejections (definitions : List Utility.Definition) :
    List (String × Utility.DefinitionError) :=
  (lastDefinitions definitions).filterMap fun definition =>
    match Utility.ofDefinition definition with
    | .ok _ => none
    | .error error => some (definition.pattern, error)

/-- Builds a compiler. User-defined utilities stand before the built-in ones. -/
def build (settings : Settings) : Except ConstructionError Compiler := do
  settings.validate
  let utilities ← Utility.Registry.empty.registerAll
    (customUtilities settings.definitions ++ Utility.Catalogue.all settings.internalPrefix)
  let variants ← Variant.Registry.standard settings.theme settings.darkMode
    settings.internalPrefix
  pure { settings, utilities, variants, rejected := rejections settings.definitions }

def warnings (compiler : Compiler) : List LogEvent :=
  compiler.rejected.map fun entry => .rejectedDefinition entry.1 entry.2

structure Parts where
  nodes : List Sheet.Node
  index : Nat
  outcome : Variant.Outcome

/-- Compiles a base and applies all its variants to a placement; each must match. -/
def parts? (compiler : Compiler) (base : String) (tokens : List Variant.Token)
    (start : Placement) : Option Parts :=
  if base = "" then none
  else
    match compiler.utilities.resolve? compiler.settings.theme base with
    | none => none
    | some resolved =>
        let outcome := compiler.variants.run start tokens
        if outcome.isComplete then some ⟨resolved.nodes, resolved.index, outcome⟩ else none

/-- Compiles one class. A class with an unknown base or variant compiles to nothing. -/
def compileClass? (compiler : Compiler) (name : String) : Option CompiledRule :=
  let (tokens, base) := Variant.tokenize compiler.settings.separator name
  (compiler.parts? base tokens (Placement.ofClass name)).map fun parts =>
    { name
      placement := parts.outcome.placement
      nodes :=
        if compiler.settings.important then parts.nodes.map Sheet.Node.markImportant
        else parts.nodes
      weights := parts.outcome.weights
      index := parts.index }

def compile (compiler : Compiler) (classes : List String) : List CompiledRule :=
  ((classes.filter (· != "")).eraseDups.filterMap compiler.compileClass?).mergeSort
    fun left right => (CompiledRule.order left right).isLE

end Compiler

end AtomicCss
