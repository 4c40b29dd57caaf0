import Lineage.Main
import Lineage.Proofs.Action
import Lineage.Proofs.Binding
import Lineage.Proofs.Canonical
import Lineage.Proofs.Collection.Containment
import Lineage.Proofs.Collection.Edits
import Lineage.Proofs.Collection.FailedEdits
import Lineage.Proofs.Collection.Index
import Lineage.Proofs.Collection.Listing
import Lineage.Proofs.Collection.Readding
import Lineage.Proofs.DepthFirst
import Lineage.Proofs.Disk.Atomic
import Lineage.Proofs.Disk.Directory
import Lineage.Proofs.Disk.Document
import Lineage.Proofs.Disk.Replace
import Lineage.Proofs.Disk.Spots
import Lineage.Proofs.Disk.Texts
import Lineage.Proofs.Disk.Walk
import Lineage.Proofs.Disk.Within
import Lineage.Proofs.Execution.Bookkeeping
import Lineage.Proofs.Execution.Descent
import Lineage.Proofs.Execution.History
import Lineage.Proofs.Execution.KeepGoing
import Lineage.Proofs.Execution.Records
import Lineage.Proofs.Execution.References
import Lineage.Proofs.Execution.Refinement
import Lineage.Proofs.Execution.Restart
import Lineage.Proofs.Execution.Targets
import Lineage.Proofs.Join
import Lineage.Proofs.Json.Numerals
import Lineage.Proofs.Json.RoundTrip
import Lineage.Proofs.Json.Tidy
import Lineage.Proofs.Json.Tree
import Lineage.Proofs.Json.Update
import Lineage.Proofs.Loop
import Lineage.Proofs.Overlay
import Lineage.Proofs.Path
import Lineage.Proofs.Pipeline.Concatenation
import Lineage.Proofs.Pipeline.Grammar
import Lineage.Proofs.Pipeline.Integers
import Lineage.Proofs.Pipeline.Split
import Lineage.Proofs.Pipeline.Tokens
import Lineage.Proofs.Pipeline.Values
import Lineage.Proofs.Registry.Alike
import Lineage.Proofs.Registry.Ancestry
import Lineage.Proofs.Registry.Arguments
import Lineage.Proofs.Registry.Calls
import Lineage.Proofs.Registry.Context
import Lineage.Proofs.Registry.Cycles
import Lineage.Proofs.Registry.Dispatch
import Lineage.Proofs.Registry.Editing
import Lineage.Proofs.Registry.Even
import Lineage.Proofs.Registry.Failures
import Lineage.Proofs.Registry.Faults
import Lineage.Proofs.Registry.Frame
import Lineage.Proofs.Registry.Hosts
import Lineage.Proofs.Registry.Identity
import Lineage.Proofs.Registry.Inheritance
import Lineage.Proofs.Registry.Listing
import Lineage.Proofs.Registry.Lookups
import Lineage.Proofs.Registry.Methods
import Lineage.Proofs.Registry.Numbers
import Lineage.Proofs.Registry.Parts
import Lineage.Proofs.Registry.Persistence
import Lineage.Proofs.Registry.Preservation
import Lineage.Proofs.Registry.Registration
import Lineage.Proofs.Registry.Resolution
import Lineage.Proofs.Registry.Roots
import Lineage.Proofs.Registry.Search
import Lineage.Proofs.Registry.SearchEnds
import Lineage.Proofs.Registry.SearchGraph
import Lineage.Proofs.Registry.Session
import Lineage.Proofs.Registry.Since
import Lineage.Proofs.Registry.Stability
import Lineage.Proofs.Registry.Verdicts
import Lineage.Proofs.Registry.WalkEnds
import Lineage.Proofs.Registry.World
import Lineage.Proofs.Shape
import Lineage.Proofs.Table
import Lineage.Proofs.Text
