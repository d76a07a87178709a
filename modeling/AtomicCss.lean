import AtomicCss.Candidate.Parse
import AtomicCss.Command.Run
import AtomicCss.Configuration
import AtomicCss.Css.Bracketed
import AtomicCss.Css.Comment
import AtomicCss.Css.Lexical
import AtomicCss.Css.TopLevel
import AtomicCss.Dictionary
import AtomicCss.Extract.Basic
import AtomicCss.Failure
import AtomicCss.Files.Scan
import AtomicCss.Glob.Parse
import AtomicCss.Log
import AtomicCss.Main
import AtomicCss.Number.Decimal
import AtomicCss.Proofs.Cascade
import AtomicCss.Proofs.ClassOrder
import AtomicCss.Proofs.Compilation
import AtomicCss.Proofs.ComponentOrder
import AtomicCss.Proofs.DocumentOrder
import AtomicCss.Proofs.Grouping
import AtomicCss.Proofs.Merging
import AtomicCss.Proofs.RuleOrder
import AtomicCss.Selector
import AtomicCss.Sheet.Event
import AtomicCss.Sheet.Merge
import AtomicCss.Sheet.Node
import AtomicCss.Sheet.Writer
import AtomicCss.Stylesheet.Output
import AtomicCss.Theme.Reference
import AtomicCss.Theme.Source
import AtomicCss.Utility.Basic
import AtomicCss.Utility.Catalogue
import AtomicCss.Utility.Color
import AtomicCss.Utility.Custom
import AtomicCss.Variant.Condition
import AtomicCss.Variant.Standard
import AtomicCss.Variant.Token
import AtomicCss.Proofs.Reachability
import AtomicCss.Proofs.Serialization
import AtomicCss.Proofs.Renaming
import AtomicCss.Proofs.References
import AtomicCss.Proofs.PrefixedTheme
import AtomicCss.Proofs.PrefixedUtility
import AtomicCss.Proofs.PrefixedRules
import AtomicCss.Proofs.Dispatch
import AtomicCss.Proofs.Escaping
import AtomicCss.Proofs.Inert
import AtomicCss.Proofs.VariantStep
import AtomicCss.Proofs.InertVariant
import AtomicCss.Proofs.InertUtility
import AtomicCss.Proofs.InertRules
import AtomicCss.Proofs.Nesting
import AtomicCss.Proofs.Brackets
import AtomicCss.Proofs.ClassScope
import AtomicCss.Proofs.Segmentation
import AtomicCss.Proofs.Construction
import AtomicCss.Proofs.VariantFactors
import AtomicCss.Proofs.TidyText
import AtomicCss.Proofs.SourceText
import AtomicCss.Proofs.SourceRoundTrip
import AtomicCss.Proofs.MergeStrategies
import AtomicCss.Proofs.Extraction
import AtomicCss.Proofs.ClassAttributes
import AtomicCss.Proofs.NameScanning
import AtomicCss.Proofs.Inlining
import AtomicCss.Proofs.RenamedReferences
import AtomicCss.Proofs.PaletteAlias
import AtomicCss.Proofs.CandidateReadings
import AtomicCss.Proofs.WildcardMatching
import AtomicCss.Proofs.WildcardUtility
import AtomicCss.Proofs.Importance
import AtomicCss.Proofs.Opacity
import AtomicCss.Proofs.NamedValues
import AtomicCss.Proofs.BlockBodies
import AtomicCss.Proofs.SelectorLists
import AtomicCss.Proofs.Comments
import AtomicCss.Proofs.SourceFolding
import AtomicCss.Proofs.NameSpelling
import AtomicCss.Proofs.Fractions
import AtomicCss.Proofs.VariantPriority
import AtomicCss.Proofs.BracketedContent
import AtomicCss.Proofs.Substitution
import AtomicCss.Proofs.BlockScanning
import AtomicCss.Proofs.PatternGrammar
import AtomicCss.Proofs.ThemeHistory
import AtomicCss.Proofs.SelectorFunctions
import AtomicCss.Proofs.Words
import AtomicCss.Proofs.OperatorPass
import AtomicCss.Proofs.SupportsQuery
