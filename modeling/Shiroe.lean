import Shiroe.Lib.Json
import Shiroe.Lib.JsonText
import Shiroe.Lib.JsonRead
import Shiroe.Lib.HashChain
import Shiroe.Lib.Framing
import Shiroe.Lib.Act
import Shiroe.Lib.Table
import Shiroe.Base
import Shiroe.Policy.Schema
import Shiroe.Outside
import Shiroe.Storage.Schema
import Shiroe.Storage.Events
import Shiroe.Storage.Chain
import Shiroe.Storage.Commitment
import Shiroe.Lib.Run
import Shiroe.Lib.Ranking
import Shiroe.Lib.LatestRow
import Shiroe.Storage.Recovery
import Shiroe.Storage.Projections
import Shiroe.Storage.Replay
import Shiroe.Storage.Records
import Shiroe.Storage.Acceptance
import Shiroe.Policy.Approvals
import Shiroe.Policy.Engine
import Shiroe.Policy.Containment
import Shiroe.Storage.FirstAppend
import Shiroe.Storage.Values
import Shiroe.Storage.Redaction
import Shiroe.Capabilities.Inspection
import Shiroe.Capabilities.Lifecycle
import Shiroe.Capabilities.Manifest
import Shiroe.Capabilities.Store
import Shiroe.Capabilities.Gate
import Shiroe.Capabilities.Onboarding
import Shiroe.Policy.Decisions
import Shiroe.Capabilities.Registry
import Shiroe.Capabilities.Authority
import Shiroe.Capabilities.Calls
import Shiroe.Capabilities.Requests
import Shiroe.Capabilities.Coverage
import Shiroe.Work.Compiler
import Shiroe.Work.Creation
import Shiroe.Work.Steps
import Shiroe.Work.Race
import Shiroe.Lib.JsonScan
import Shiroe.Lib.JsonTokens
import Shiroe.Memory.Service
import Shiroe.Storage.Order
import Shiroe.Verification.Engine
import Shiroe.Memory.Writes
import Shiroe.Memory.Reads
import Shiroe.Memory.Search
import Shiroe.Memory.Contradictions
import Shiroe.Atomicity
import Shiroe.Capabilities.Recorded
import Shiroe.Lib.Mutex
import Shiroe.Lib.Process
import Shiroe.Policy.Service
import Shiroe.Execution.Attempts
import Shiroe.Execution.Budget
import Shiroe.Execution.Supervisor
import Shiroe.Execution.Passes
import Shiroe.Execution.Spending
import Shiroe.Execution.Calls
import Shiroe.Execution.Recording
import Shiroe.Execution.Numbers
import Shiroe.Policy.Scopes
import Shiroe.Capabilities.Drift
import Shiroe.Lib.Digraph
import Shiroe.Work.Compiled
import Shiroe.Work.Progress
import Shiroe.Execution.Deadlock
import Shiroe.Lib.Interleave
import Shiroe.Nodes.Store
import Shiroe.Nodes.Leases
import Shiroe.Execution.Underway
import Shiroe.Execution.Termination
import Shiroe.Handoff.Compiler
import Shiroe.Handoff.Noninterference
import Shiroe.Lib.FileTree
import Shiroe.Transfer.Bundle
import Shiroe.Transfer.Extraction
import Shiroe.Transfer.Manifest
import Shiroe.Transfer.Members
import Shiroe.Transfer.RoundTrip
import Shiroe.Nodes.Protocol
import Shiroe.Storage.Lines
import Shiroe.Storage.Recorded
import Shiroe.Policy.Latest
import Shiroe.Lib.Filtered
import Shiroe.Lib.Spans
import Shiroe.Privacy.Spans
import Shiroe.Work.Cycles
import Shiroe.Lib.Raises
import Shiroe.Work.Validation
import Shiroe.Policy.Narrower
import Shiroe.Lib.Words
import Shiroe.Verification.Opposition
import Shiroe.Lib.BitGroups
import Shiroe.Lib.Codec
import Shiroe.Lib.Regex
import Shiroe.Privacy.Encoded
import Shiroe.Privacy.Providers
import Shiroe.Privacy.Collapsed
import Shiroe.Storage.Views
import Shiroe.Memory.Archived
import Shiroe.Storage.Contention
import Shiroe.Execution.Sustained
import Shiroe.Rebuild
import Shiroe.Lib.Rely
import Shiroe.Nodes.Dispatcher
import Shiroe.Nodes.Dispatched
import Shiroe.Transfer.Indented
import Shiroe.Policy.Egress
import Shiroe.Nodes.Worker
import Shiroe.Nodes.Receipts
import Shiroe.Lib.JsonLine
import Shiroe.Storage.LogTexts
