import Disposal.Command
import Disposal.Compilation
import Disposal.Config
import Disposal.Config.File
import Disposal.Config.Value
import Disposal.Diagnostic
import Disposal.Engine
import Disposal.Exclusion
import Disposal.Failure
import Disposal.Fixture
import Disposal.Framework
import Disposal.HandOff
import Disposal.Level
import Disposal.Lint
import Disposal.Listing
import Disposal.Main
import Disposal.Member
import Disposal.Node
import Disposal.Node.Declaration
import Disposal.Node.Expression
import Disposal.Order
import Disposal.Ownership
import Disposal.Ownership.Classify
import Disposal.Ownership.Sharing
import Disposal.Ownership.Visits
import Disposal.Path
import Disposal.Pragma
import Disposal.Proofs.Agreement
import Disposal.Proofs.Batches
import Disposal.Proofs.Bytes
import Disposal.Proofs.Declarations
import Disposal.Proofs.DisposingScope
import Disposal.Proofs.Edits
import Disposal.Proofs.Execution
import Disposal.Proofs.Finalization
import Disposal.Proofs.Findings
import Disposal.Proofs.DisposableTypes
import Disposal.Proofs.PragmaLines
import Disposal.Proofs.NewBlocks
import Disposal.Proofs.Patches
import Disposal.Proofs.Guards
import Disposal.Proofs.Members
import Disposal.Proofs.Nodes
import Disposal.Proofs.Places
import Disposal.Proofs.Precedence
import Disposal.Proofs.Reach
import Disposal.Proofs.Selections
import Disposal.Proofs.Sketch
import Disposal.Proofs.Structure
import Disposal.Proofs.Walk
import Disposal.Protocol
import Disposal.Protocol.Before
import Disposal.Registry
import Disposal.Repair
import Disposal.Rule
import Disposal.Rule.BaseCall
import Disposal.Rule.CreatedLocal
import Disposal.Rule.Finalizer
import Disposal.Rule.ForeignValue
import Disposal.Rule.IgnoredValue
import Disposal.Rule.OwnedMember
import Disposal.Rule.Placement
import Disposal.Rule.Reassignment
import Disposal.Selection
import Disposal.Session
import Disposal.Settings
import Disposal.Store
import Disposal.Suggestion.Batch
import Disposal.Suppression
import Disposal.Symbol
import Disposal.Symbol.Lookup
import Disposal.Symbol.Resolve
import Disposal.Text
import Disposal.Text.CaseFold
import Disposal.Text.CharSet
import Disposal.Text.Edit
import Disposal.Text.Layout
import Disposal.Text.Patch
import Disposal.Text.Pattern
import Disposal.Text.Position
import Disposal.Toml
import Disposal.Toml.Draft
import Disposal.Toml.Quoted
import Disposal.Tree
import Disposal.Tree.Dump
import Disposal.Tree.Kind
import Disposal.Tree.Rows
import Disposal.TypeRef
import Disposal.Write
import Disposal.Proofs.ValueFlow
import Disposal.Proofs.Output
import Disposal.Proofs.Rounds
import Disposal.Proofs.Search
import Disposal.Proofs.Factories
import Disposal.Proofs.Loops
import Disposal.Proofs.Origins
import Disposal.Proofs.Branches
import Disposal.Proofs.Releases
import Disposal.Proofs.Jumps
import Disposal.Proofs.ConditionalWrites
import Disposal.Proofs.StraightLine
import Disposal.Proofs.Overwrites
import Disposal.Proofs.Visibility
import Disposal.Proofs.Sites
import Disposal.Proofs.DisposingBranch
import Disposal.Proofs.CallChains
import Disposal.Proofs.Slices
import Disposal.Proofs.Suggestions
import Disposal.Proofs.Inheritance
import Disposal.Proofs.Dispatch
import Disposal.Proofs.Names
import Disposal.Proofs.Mentions
import Disposal.Proofs.Reorderings
import Disposal.Proofs.TypeText
import Disposal.Proofs.Questions
import Disposal.Proofs.Visits
import Disposal.Proofs.Circles
import Disposal.Proofs.Windows
