import SchemaLoom.Module
import SchemaLoom.Path
import SchemaLoom.Document.Decode
import SchemaLoom.JsonSchema.Traverse
import SchemaLoom.Main
import SchemaLoom.Proofs.Grouping
import SchemaLoom.Proofs.Uses
import SchemaLoom.Proofs.Search
import SchemaLoom.Proofs.Placement
import SchemaLoom.Proofs.PlanOrder
import SchemaLoom.Proofs.Chains
import SchemaLoom.Proofs.Completion
import SchemaLoom.Proofs.FreshNames
import SchemaLoom.Proofs.Imported
import SchemaLoom.Proofs.Linkable
import SchemaLoom.Proofs.Numerals
import SchemaLoom.Proofs.NumberLimits
import SchemaLoom.Proofs.Identifiers
import SchemaLoom.Proofs.WellFormed
import SchemaLoom.Proofs.FileReferences
import SchemaLoom.Proofs.Locations
import SchemaLoom.Proofs.Growth
import SchemaLoom.Proofs.Provenance
import SchemaLoom.Proofs.ImportTasks
import SchemaLoom.Proofs.ImportEnds
import SchemaLoom.Proofs.Inheritance
import SchemaLoom.Proofs.Origins
import SchemaLoom.Proofs.PlanFailures
import SchemaLoom.Proofs.Calls
import SchemaLoom.Proofs.CallChains
import SchemaLoom.Proofs.Merging
import SchemaLoom.Proofs.FieldOccurrence
import SchemaLoom.Proofs.DeferredCalls
import SchemaLoom.Proofs.BigIntegers
import SchemaLoom.Proofs.FieldNumbers
import SchemaLoom.Proofs.Materials
import SchemaLoom.Proofs.Recording
import SchemaLoom.Proofs.SourceOrder
import SchemaLoom.Proofs.HoistedNames
import SchemaLoom.Proofs.MergeOrder
import SchemaLoom.Proofs.Expansion
import SchemaLoom.Proofs.DeclarationOrder
import SchemaLoom.Proofs.Overrides
import SchemaLoom.Proofs.Fragments
import SchemaLoom.Proofs.ObjectKeys
import SchemaLoom.Proofs.Undeclared
import SchemaLoom.Proofs.Mirrors
import SchemaLoom.Proofs.Primitives
import SchemaLoom.Proofs.StringLiterals
import SchemaLoom.Proofs.Standard
import SchemaLoom.Proofs.FittingCalls
import SchemaLoom.Proofs.ModelBodies
import SchemaLoom.Proofs.CopyChains
import SchemaLoom.Proofs.Readings
import SchemaLoom.Proofs.DeclaredKeys
import SchemaLoom.Proofs.Narrowing
import SchemaLoom.Proofs.NumericLiterals
import SchemaLoom.Proofs.RegexLiterals
import SchemaLoom.Proofs.PrintedTokens
import SchemaLoom.Proofs.Traversal
import SchemaLoom.Proofs.RequiredProperties
import SchemaLoom.Proofs.Reloading
import SchemaLoom.Proofs.PointerEscapes
import SchemaLoom.Proofs.BindingNames
import SchemaLoom.Proofs.NodeRegions
import SchemaLoom.Proofs.Inquiries
import SchemaLoom.Proofs.ValueEnds
import SchemaLoom.Proofs.Detection
import SchemaLoom.Proofs.KeyArrangement
