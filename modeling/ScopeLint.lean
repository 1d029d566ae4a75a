import ScopeLint.Main
import ScopeLint.Inference.Infer
import ScopeLint.Source.Render
import ScopeLint.Template.Match
import ScopeLint.Template.Stock
import ScopeLint.Proofs.Scope.Table
import ScopeLint.Proofs.Scope.Shape
import ScopeLint.Proofs.Scope.Nesting
import ScopeLint.Proofs.Scope.Change
import ScopeLint.Proofs.Scope.Conservation
import ScopeLint.Proofs.Scope.Block
import ScopeLint.Proofs.Scope.Share
import ScopeLint.Proofs.Scope.Log
import ScopeLint.Proofs.Scope.Resolution
import ScopeLint.Proofs.Scope.Standing
import ScopeLint.Proofs.Scope.Following
import ScopeLint.Proofs.Scope.Reference
import ScopeLint.Proofs.Template.Instance
import ScopeLint.Proofs.Template.Bindings
import ScopeLint.Proofs.Template.Candidate
import ScopeLint.Proofs.Template.Search
import ScopeLint.Proofs.Scope.Attribution
import ScopeLint.Proofs.Usage.Remarks
import ScopeLint.Proofs.Usage.Undefined
import ScopeLint.Proofs.Usage.Uses
import ScopeLint.Proofs.Usage.Unused
import ScopeLint.Proofs.Usage.EntryPoint
import ScopeLint.Proofs.Scope.Tour
import ScopeLint.Proofs.Tree.Grammar
import ScopeLint.Proofs.Scope.Region
import ScopeLint.Proofs.Scope.Reading
import ScopeLint.Proofs.Scope.Recording
import ScopeLint.Proofs.Scope.Imports
import ScopeLint.Proofs.Scope.Stars
import ScopeLint.Proofs.Usage.StarImport
import ScopeLint.Proofs.Tree.Source
import ScopeLint.Proofs.Scope.Placement
import ScopeLint.Proofs.Scope.Entries
import ScopeLint.Proofs.Usage.Completion
import ScopeLint.Proofs.Usage.Accepted
import ScopeLint.Proofs.Usage.References
import ScopeLint.Proofs.Scope.Parameters
import ScopeLint.Proofs.Usage.Growth
import ScopeLint.Proofs.Usage.Includes
import ScopeLint.Proofs.Usage.NeverUsed
import ScopeLint.Proofs.Usage.Order
import ScopeLint.Proofs.Scope.Refusal
import ScopeLint.Proofs.Project.AttributePath
import ScopeLint.Proofs.Template.Context
import ScopeLint.Proofs.Scope.Acceptance
import ScopeLint.Proofs.Inference.Execution
import ScopeLint.Proofs.Inference.State
import ScopeLint.Proofs.Inference.Known
import ScopeLint.Proofs.Template.Parts
import ScopeLint.Proofs.Template.Soundness
import ScopeLint.Proofs.Scope.Exports
import ScopeLint.Proofs.Template.Captures
import ScopeLint.Proofs.Template.Constants
import ScopeLint.Proofs.Template.Holes
import ScopeLint.Proofs.Project.RelativeImport
import ScopeLint.Proofs.Project.HiddenDirectories
import ScopeLint.Proofs.Usage.IncludeCycles
import ScopeLint.Proofs.Inference.Unfolding
import ScopeLint.Proofs.Text.Quoting
import ScopeLint.Proofs.Tree.Spelling
import ScopeLint.Proofs.Tree.Outline
import ScopeLint.Proofs.Scope.Frozen
import ScopeLint.Proofs.Project.Collection
import ScopeLint.Proofs.Project.BaseDirectory
import ScopeLint.Proofs.Project.PackageClash
import ScopeLint.Proofs.Tree.NestedLiteral
