import Skep.Address.Address
import Skep.Address.Arithmetic
import Skep.Address.Displacement
import Skep.Address.Increment
import Skep.Address.Span
import Skep.Address.SpanPairs
import Skep.Address.SpanSet
import Skep.Address.SpanSetAlgebra
import Skep.Address.Tumbler
import Skep.Arrangement.AddressForm
import Skep.Arrangement.Containment
import Skep.Arrangement.Provenance
import Skep.Arrangement.Reads
import Skep.Arrangement.Run
import Skep.Arrangement.RunList
import Skep.Arrangement.RunUnion
import Skep.Arrangement.Shot
import Skep.Arrangement.State
import Skep.Arrangement.VSpace
import Skep.Client.AddressText
import Skep.Client.Mapped
import Skep.Composition.Base
import Skep.Composition.Refinement
import Skep.Composition.Reorders
import Skep.Composition.Script
import Skep.Content.Store
import Skep.Coordination.Ast
import Skep.Coordination.Catalog
import Skep.Coordination.Cataloged
import Skep.Coordination.Check
import Skep.Coordination.Cycles
import Skep.Coordination.Denotation
import Skep.Coordination.Depth
import Skep.Coordination.Derive
import Skep.Coordination.Dynamics
import Skep.Coordination.Engine
import Skep.Coordination.Eval
import Skep.Coordination.Expand
import Skep.Coordination.Footprint
import Skep.Coordination.Guest
import Skep.Coordination.Judgment
import Skep.Coordination.Noninterference
import Skep.Coordination.Scheduler
import Skep.Coordination.ViewIndependence
import Skep.Coordination.Walk
import Skep.Discovery.Descriptor
import Skep.Discovery.Image
import Skep.Discovery.Pointwise
import Skep.Discovery.Region
import Skep.Discovery.Sets
import Skep.Dump.Disclosure
import Skep.Dump.Filter
import Skep.Dump.Tree
import Skep.Dump.World
import Skep.Feed.Window
import Skep.Identity.Custody
import Skep.Identity.Entry
import Skep.Identity.EntryCodes
import Skep.Identity.Filter
import Skep.Identity.Fold
import Skep.Identity.Key
import Skep.Identity.Lifecycle
import Skep.Identity.OneAct
import Skep.Identity.Payload
import Skep.Identity.Planted
import Skep.Identity.PublishBody
import Skep.Identity.PublishBytes
import Skep.Identity.Reading
import Skep.Identity.Seam
import Skep.Identity.Spelling
import Skep.Identity.Table
import Skep.Journal.Digests
import Skep.Journal.Frame
import Skep.Journal.Pinned
import Skep.Journal.Scan
import Skep.Kernel.Kernel
import Skep.Library.Bisection
import Skep.Library.Codec
import Skep.Library.CommonSubsequence
import Skep.Library.Components
import Skep.Library.Exchange
import Skep.Library.HalfOpen
import Skep.Library.Json
import Skep.Library.Lineage
import Skep.Library.ListOrder
import Skep.Library.Merge
import Skep.Library.Numbering
import Skep.Library.OneEdit
import Skep.Library.OrdMap
import Skep.Library.OrdSet
import Skep.Library.Outcome
import Skep.Library.Paging
import Skep.Library.Patience
import Skep.Library.PrefixCode
import Skep.Library.Reach
import Skep.Library.Refusal
import Skep.Library.Rotation
import Skep.Library.Runs
import Skep.Library.Stretches
import Skep.Library.Succession
import Skep.Library.Utf8
import Skep.Links.CoverageIdentity
import Skep.Links.Endset
import Skep.Links.Filed
import Skep.Links.Hints
import Skep.Links.HomeReads
import Skep.Links.Members
import Skep.Links.Registry
import Skep.Links.Scan
import Skep.Links.SlotStabs
import Skep.Links.Spanfilade
import Skep.Links.State
import Skep.Links.Steps
import Skep.Links.Store
import Skep.Links.Streams
import Skep.Links.Supersession
import Skep.Links.Touching
import Skep.Links.Writes
import Skep.Namespace.Allocation
import Skep.Namespace.Chain
import Skep.Namespace.Documents
import Skep.Namespace.Ns
import Skep.Namespace.Ops
import Skep.Namespace.Ownership
import Skep.Namespace.State
import Skep.Ops.Call
import Skep.Ops.DraftBases
import Skep.Ops.Edit
import Skep.Ops.Effect
import Skep.Ops.Fork
import Skep.Ops.History
import Skep.Ops.Invariants
import Skep.Ops.MintedIdentity
import Skep.Ops.Moved
import Skep.Ops.Placement
import Skep.Ops.Publish
import Skep.Ops.Reminted
import Skep.Ops.SetArrangement
import Skep.Ops.SignedForm
import Skep.Ops.Staleness
import Skep.Publication.MemberEnd
import Skep.Publication.Plan
import Skep.Publication.Superseded
import Skep.Registry.Body
import Skep.Registry.OneSpelling
import Skep.Resolve.Ledger
import Skep.Resolve.Replay
import Skep.Retrieval.Compare
import Skep.Retrieval.Correspondence
import Skep.Retrieval.Delivery
import Skep.Retrieval.Gate
import Skep.Search.Fuzzy
import Skep.Search.NextToken
import Skep.Search.Rendering
import Skep.Search.Snippet
import Skep.Search.Tightest
import Skep.Search.Token
import Skep.Search.Unit
import Skep.World.World
import Skep.Coordination.Inlining
import Skep.Coordination.Arming
import Skep.Coordination.Soundness
import Skep.Coordination.Stability
import Skep.Coordination.Certified
import Skep.Coordination.ArmerGraph
import Skep.Coordination.DefStored
import Skep.Coordination.Permanence
