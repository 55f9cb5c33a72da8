import LoomDB.Foundations.Bytes
import LoomDB.Foundations.Codec
import LoomDB.Foundations.FrameLog
import LoomDB.Foundations.OrderedMap
import LoomDB.Core.Error
import LoomDB.Refs.Refs
import LoomDB.Refs.Store
import LoomDB.Refs.Recovery
import LoomDB.Foundations.Replay
import LoomDB.Refs.Compaction
import LoomDB.Core.Value
import LoomDB.Core.Platform
import LoomDB.Core.Provenance
import LoomDB.Core.Envelope
import LoomDB.Core.Hex
import LoomDB.Foundations.SearchTree
import LoomDB.Foundations.StateExcept
import LoomDB.Branch.Tree
import LoomDB.Branch.TreeSpec
import LoomDB.Branch.TreeReads
import LoomDB.Foundations.KeyValue
import LoomDB.Branch.TreeStore
import LoomDB.Core.Describe
import LoomDB.Branch.Merge
import LoomDB.Branch.Pager
import LoomDB.Branch.Token
import LoomDB.Foundations.FallibleState
import LoomDB.Foundations.Ancestry
import LoomDB.Refs.RefStore
import LoomDB.Branch.Session
import LoomDB.Branch.SessionSpec
import LoomDB.Branch.MergeSpec
import LoomDB.Branch.Calls
import LoomDB.Branch.Steps
import LoomDB.Branch.Effects
import LoomDB.Branch.Durability
import LoomDB.Branch.Sweep
import LoomDB.Branch.History
import LoomDB.Branch.Keyspace
import LoomDB.Branch.Binding
import LoomDB.Branch.Atomicity
import LoomDB.Branch.Containment
import LoomDB.Branch.Capture
import LoomDB.Memory.Retrieval
import LoomDB.Memory.Disclosure
import LoomDB.Policy.Engine
import LoomDB.Provenance.Recall
import LoomDB.Provenance.Taint
import LoomDB.Action.Record
import LoomDB.Mcp.Protocol
import LoomDB.Mcp.Server
import LoomDB.Foundations.TwoRuns
import LoomDB.Mcp.Noninterference
import LoomDB.Foundations.Ledger
import LoomDB.Action.Gateway
import LoomDB.Action.Safety
import LoomDB.Action.Interleaving
import LoomDB.Provenance.Flood
import LoomDB.Provenance.TaintSpec
import LoomDB.Action.Justification
import LoomDB.Keys.Register
import LoomDB.Keys.Rotation
import LoomDB.Keys.Directory
import LoomDB.Keys.RotationSpec
import LoomDB.Keys.Revocation
import LoomDB.Branch.IndexSpec
import LoomDB.Memory.MergedFacts
import LoomDB.Branch.Maps
import LoomDB.Provenance.Staleness
import LoomDB.Memory.Forget
import LoomDB.Memory.Agreement
import LoomDB.Foundations.HashGraph
import LoomDB.Branch.Failures
import LoomDB.Provenance.Lineage
import LoomDB.Memory.DerivationCycle
import LoomDB.Keys.Standing
import LoomDB.Keys.Succession
import LoomDB.Provenance.Identity
import LoomDB.Branch.TreeRuns
import LoomDB.Branch.Prefilter
import LoomDB.Branch.Tenancy
import LoomDB.Backup.Files
import LoomDB.Backup.Backup
import LoomDB.Backup.BackupSpec
import LoomDB.Backup.RoundTrip
import LoomDB.Provenance.SourceIndex
import LoomDB.Query.AsOf
import LoomDB.Query.Beliefs
import LoomDB.Query.PastBeliefs
import LoomDB.Foundations.Framing
import LoomDB.Core.Signing
import LoomDB.Branch.MergeBases
import LoomDB.Provenance.Path
import LoomDB.Provenance.Marking
import LoomDB.Provenance.MergedNodes
import LoomDB.Branch.Nodes
import LoomDB.Provenance.Miscut
import LoomDB.Provenance.Walks
import LoomDB.Provenance.Panics
import LoomDB.Foundations.Deduplication
import LoomDB.Provenance.Listing
import LoomDB.Provenance.Descent
import LoomDB.Provenance.BuiltOn
import LoomDB.Branch.Faults
import LoomDB.Provenance.FaultyPlans
import LoomDB.Provenance.FaultyMerges
import LoomDB.Merge.Rules
import LoomDB.Merge.Untouched
import LoomDB.Refs.Replays
import LoomDB.Foundations.Slices
import LoomDB.Refs.Frames
import LoomDB.Branch.NodeSizes
import LoomDB.Branch.LiveTree
import LoomDB.Branch.TreeErrors
import LoomDB.Branch.Splits
import LoomDB.Branch.Rewrites
import LoomDB.Branch.NodeRules
import LoomDB.Branch.PageFit
import LoomDB.Policy.DenyOverrides
import LoomDB.Branch.CommitClock
import LoomDB.Mcp.Admission
import LoomDB.Foundations.Lines
import LoomDB.Foundations.RateWindow
import LoomDB.Query.Appends
import LoomDB.Memory.Packing
import LoomDB.Memory.PackingOrder
import LoomDB.Foundations.Comparison
import LoomDB.Foundations.BinaryHeap
import LoomDB.Foundations.BestFirst
import LoomDB.Foundations.LayeredGraph
import LoomDB.Ann.Embedding
import LoomDB.Ann.Hnsw
import LoomDB.Ann.HnswStore
import LoomDB.Ann.Searches
import LoomDB.Ann.Exact
import LoomDB.Ann.Reinsertion
import LoomDB.Ann.Built
import LoomDB.Ann.SearchAgreement
import LoomDB.Branch.Attestation
import LoomDB.Backup.Signature
import LoomDB.Backup.Retention
import LoomDB.Bundle.Bundle
import LoomDB.Foundations.InRange
import LoomDB.Ann.Shape
import LoomDB.Ann.Bounds
import LoomDB.Ann.Epochs
import LoomDB.Ann.Index
import LoomDB.Ann.TreeNodes
import LoomDB.Foundations.Versions
import LoomDB.Branch.Naive
import LoomDB.Branch.Refinement
import LoomDB.Branch.Dag
import LoomDB.Branch.VersionRuns
import LoomDB.Foundations.Exhaustive
import LoomDB.Ann.Exhausting
