import Shiroe.Work.Schema
import Shiroe.Policy.Approvals

/-!
# The store of work graphs

`work/store.py` and `work/readiness.py`: a graph is written as one `run.created` event, its status
and the statuses and outputs of its nodes by further events, and everything is read back from the
tables.
-/

namespace Shiroe

open Act

variable (H : Host)

/-! ### Reading -/

/-- `_loads`. -/
def SqlVal.loadsOr (fallback : Json) : SqlVal → Except Exc Json
  | .null => .ok fallback
  | v => v.loads

/-- The order of `ORDER BY id`. -/
def idText (v : SqlVal) : String := v.text?.getD ""

/-- `_node_from_row`. -/
def NodeRow.load (r : NodeRow) : Except Exc WorkNode := do
  let retry ← r.retryJson.loadsOr (.mkObj [])
  let kind := r.kind.read
  if memberOf? NodeKind.all NodeKind.value kind = none then
    .error (.valueError (kind.pyRepr ++ " is not a valid NodeKind"))
  else
    let requires ← (← r.requiresJson.loadsOr (.arr [])).items
    let expectedOutputs ← (← r.expectedOutputsJson.loadsOr (.arr [])).items
    let retry ← RetryPolicy.make retry
    let placement ← Placement.make
      (← r.placementJson.loadsOr (.mkObj [("mode", .str "local"), ("node_id", .null)]))
    let metadata ← r.metadataJson.loadsOr (.mkObj [])
    WorkNode.make { id := r.id.read, graphId := r.graphId.read, kind, objective := r.objective.read,
                    metadata }
      requires r.risk.read r.approvalRequired r.independentReview r.evidenceRequired
      expectedOutputs retry placement

/-- The edge of a row. -/
def EdgeRow.load (r : EdgeRow) : Except Exc WorkEdge :=
  WorkEdge.make r.graphId.read r.srcId.read r.dstId.read

namespace Db

variable (db : Db) (graphId : String)

/-- The row of a graph. -/
def graph? : Option GraphRow := db.workGraphs.find? fun r => r.id = .text graphId

/-- The rows of the nodes of a graph. -/
def nodesOf : List NodeRow := db.workNodes.filter fun r => r.graphId = .text graphId

/-- The rows of the edges of a graph. -/
def edgesOf : List EdgeRow := db.workEdges.filter fun r => r.graphId = .text graphId

/-- The order of `ORDER BY src_id, dst_id`. -/
def EdgeLe (a b : EdgeRow) : Prop :=
  idText a.srcId < idText b.srcId ∨ idText a.srcId = idText b.srcId ∧
    idText a.dstId ≤ idText b.dstId

instance : DecidableRel EdgeLe := fun _ _ => inferInstanceAs (Decidable (_ ∨ _))

/-- The graph that a row and the rows of its nodes and edges stand for. -/
def loadGraph (row : GraphRow) (nodes : List NodeRow) (edges : List EdgeRow) :
    Except Exc WorkGraph := do
  let nodes ← (nodes.insertionSort fun a b => idText a.id ≤ idText b.id).mapM NodeRow.load
  let edges ← (edges.insertionSort EdgeLe).mapM EdgeRow.load
  let constraints ← (← row.constraintsJson.loadsOr (.arr [])).items
  let successCriteria ← (← row.successCriteriaJson.loadsOr (.arr [])).items
  let status ← GraphStatus.ofJson row.status.read
  let version ← pyInt row.version.read
  WorkGraph.make row.id.read row.objective.read (.str status.value) version nodes edges constraints
    successCriteria

/-- `WorkStore.get` on the tables. -/
def getGraph : Except Exc WorkGraph := do
  let _ ← bindText H (.str graphId)
  match db.graph? graphId with
  | none => .error (.keyError graphId)
  | some row => loadGraph row (db.nodesOf graphId) (db.edgesOf graphId)

/-- `_node_statuses`: the statuses of the nodes of a graph, by their ids. -/
def nodeStatuses : List (SqlVal × SqlVal) := (db.nodesOf graphId).map fun r => (r.id, r.status)

variable (nodeId : String)

/-- The row of a node. -/
def node? : Option NodeRow := db.workNodes.find? fun r => r.id = .text nodeId

/-- The row of a node, which has to be there. -/
def nodeRow : Except Exc NodeRow := do
  let _ ← bindText H (.str nodeId)
  match db.node? nodeId with
  | none => .error (.keyError nodeId)
  | some r => .ok r

end Db

/-- `StoredWorkNode`. -/
structure StoredWorkNode where
  node : WorkNode
  status : NodeStatus
  stateVersion : ℤ
  deriving DecidableEq

/-- `WorkStore.get_node` on the tables. -/
def Db.getNode (db : Db) (nodeId : String) : Except Exc StoredWorkNode := do
  let r ← db.nodeRow H nodeId
  let node ← r.load
  let status ← NodeStatus.ofJson r.status.read
  return { node, status, stateVersion := r.stateVersion }

/-- `WorkStore.node_state_version` on the tables. -/
def Db.nodeStateVersion (db : Db) (nodeId : String) : Except Exc ℤ := do
  let r ← db.nodeRow H nodeId
  return r.stateVersion

/-- `WorkStore.node_output` on the tables. -/
def Db.nodeOutput (db : Db) (nodeId : String) : Except Exc Json := do
  let r ← db.nodeRow H nodeId
  r.outputJson.loadsOr .null

/-! ### Readiness -/

/-- `statuses.get(node_id)`. -/
def statusOf (statuses : List (SqlVal × SqlVal)) (nodeId : String) : Option SqlVal :=
  statuses.reverse.lookup (.text nodeId)

/-- The node is pending, or has no status. -/
def isPending (statuses : List (SqlVal × SqlVal)) (nodeId : String) : Bool :=
  (statusOf statuses nodeId).getD (.text NodeStatus.pending.value) = .text NodeStatus.pending.value

/-- The node is completed or skipped. -/
def isDone (statuses : List (SqlVal × SqlVal)) (nodeId : String) : Bool :=
  [some (SqlVal.text NodeStatus.completed.value), some (.text NodeStatus.skipped.value)].contains
    (statusOf statuses nodeId)

namespace WorkGraph

variable (g : WorkGraph)

/-- The node under an id; of two nodes the later counts. -/
def nodeById (id : String) : Option WorkNode := g.nodes.reverse.find? (·.id = id)

/-- `predecessors[id]`. -/
def predecessors (id : String) : List String := (g.edges.filter (·.dstId = id)).map (·.srcId)

/-- The fill of `predecessors`: each edge ends at a node. -/
def checkPredecessors : Except Exc Unit :=
  g.edges.forM fun e =>
    if g.nodes.any (·.id = e.dstId) then .ok () else .error (.keyError e.dstId)

/-- The node waits for nothing but its turn. -/
def unblocked (statuses : List (SqlVal × SqlVal)) (id : String) : Bool :=
  isPending statuses id && (g.predecessors id).all (isDone statuses)

/-- `readiness.ready_node_ids`. -/
def calculateReady (statuses : List (SqlVal × SqlVal)) : Except Exc (List String) := do
  g.checkPredecessors
  return ((g.nodes.map (·.id)).dedup.insertionSort (· ≤ ·)).filter fun id =>
    (g.nodeById id).any (·.kind ≠ .approval) && g.unblocked statuses id

end WorkGraph

/-- `WorkStore.ready_node_ids` on the tables. -/
def Db.readyNodeIds (db : Db) (graphId : String) : Except Exc (List String) := do
  let graph ← db.getGraph H graphId
  let statuses := db.nodeStatuses graphId
  let ready ← graph.calculateReady statuses
  let approvals := (graph.nodes.filter (·.kind = .approval)).map (·.id) |>.filter
    (graph.unblocked statuses)
  return (ready ++ approvals).dedup.insertionSort (· ≤ ·)

/-- `WorkStore.get`. -/
def getGraph (graphId : String) : Op WorkGraph := readDb (·.getGraph H graphId)

/-- `WorkStore.get_node`. -/
def getNode (nodeId : String) : Op StoredWorkNode := readDb (·.getNode H nodeId)

/-- `WorkStore.node_state_version`. -/
def nodeStateVersion (nodeId : String) : Op ℤ := readDb (·.nodeStateVersion H nodeId)

/-- `WorkStore.node_output`. -/
def nodeOutput (nodeId : String) : Op Json := readDb (·.nodeOutput H nodeId)

/-- `WorkStore.ready_node_ids`. -/
def readyNodeIds (graphId : String) : Op (List String) := readDb (·.readyNodeIds H graphId)

/-! ### Writing -/

/-- The node of a `run.created` payload. -/
def WorkNode.toJson (n : WorkNode) : Json :=
  .mkObj [("id", .str n.id), ("kind", .str n.kind.value), ("objective", .str n.objective),
    ("requires", .arr n.requires), ("risk", n.risk),
    ("approval_required", .bool n.approvalRequired),
    ("independent_review", .bool n.independentReview),
    ("evidence_required", .bool n.evidenceRequired), ("expected_outputs", .arr n.expectedOutputs),
    ("retry", n.retry.toJson), ("placement", n.placement.toJson), ("metadata", n.metadata),
    ("status", .str NodeStatus.pending.value)]

/-- The edge of a `run.created` payload. -/
def WorkEdge.toJson (e : WorkEdge) : Json :=
  .mkObj [("src_id", .str e.srcId), ("dst_id", .str e.dstId)]

/-- The event of a new graph. -/
def WorkGraph.event (g : WorkGraph) (now : String) : EventEnvelope where
  eventType := "run.created"
  actor := "system"
  target := some ("graph:" ++ g.id)
  payload := .mkObj [("id", .str g.id), ("objective", .str g.objective),
    ("constraints", .arr g.constraints), ("success_criteria", .arr g.successCriteria),
    ("status", .str g.status.value), ("version", .int g.version), ("event_time", .str now),
    ("nodes", .arr (g.nodes.map WorkNode.toJson)), ("edges", .arr (g.edges.map WorkEdge.toJson))]

/-- `WorkStore.create`. -/
def createGraph (i : ℕ) (g : WorkGraph) : Op Unit := do
  let when ← now H
  let _ ← emit H i (g.event when)

/-- The event type of a change of the status of a graph. -/
def graphStatusEvent (current : SqlVal) (next : GraphStatus) : Except Exc String :=
  match next with
  | .running =>
    .ok (if current = .text GraphStatus.paused.value then "run.resumed" else "run.started")
  | .paused => .ok "run.paused"
  | .completed => .ok "run.completed"
  | .failed => .ok "run.failed"
  | .cancelled => .ok "run.cancelled"
  | .draft => .error (.valueError "unsupported graph status transition: 'draft'")
  | .ready => .error (.valueError "unsupported graph status transition: 'ready'")

/-- The event of a change of the status of a graph. -/
def runStatusEvent (eventType graphId when : String) (status : GraphStatus) : EventEnvelope where
  eventType := eventType
  actor := "system"
  target := some ("graph:" ++ graphId)
  payload := .mkObj [("id", .str graphId), ("status", .str status.value), ("event_time", .str when)]

/-- The status of the graph under an id. -/
def Db.graphStatus (db : Db) (graphId : String) : Except Exc SqlVal := do
  let _ ← bindText H (.str graphId)
  match db.graph? graphId with
  | none => .error (.keyError graphId)
  | some r => .ok r.status

/-- `WorkStore.set_graph_status`. -/
def setGraphStatus (i : ℕ) (graphId status : String) : Op Unit := do
  let next ← Act.ofExcept (GraphStatus.ofJson (.str status))
  let current ← readDb (·.graphStatus H graphId)
  let eventType ← Act.ofExcept (graphStatusEvent current next)
  let when ← now H
  let _ ← emit H i (runStatusEvent eventType graphId when next)

/-- The event type of a change of the status of a node. -/
def nodeStatusEvent : NodeStatus → String
  | .completed => "step.completed"
  | .failed => "step.failed"
  | _ => "step.started"

/-- The event of a change of the status of a node. -/
def stepEvent (nodeId : String) (next : NodeStatus) : EventEnvelope where
  eventType := nodeStatusEvent next
  actor := "system"
  target := some ("work_node:" ++ nodeId)
  payload := .mkObj [("node_id", .str nodeId), ("to", .str next.value)]

/-- `_emit_node_status`. -/
def emitNodeStatus (i : ℕ) (nodeId : String) (next : NodeStatus) : Op Unit := do
  let _ ← emit H i (stepEvent nodeId next)

/-- The check that the caller has read the state of the node as it is. -/
def checkVersion (nodeId : String) (expectedVersion : ℤ) : Op Unit := do
  let version ← nodeStateVersion H nodeId
  if version ≠ expectedVersion then throw (.concurrentWorkUpdate nodeId)

/-- `WorkStore.set_node_status`. -/
def setNodeStatus (i : ℕ) (nodeId : String) (status : String) (expectedVersion : ℤ) : Op Unit := do
  let next ← Act.ofExcept (NodeStatus.ofJson (.str status))
  checkVersion H nodeId expectedVersion
  emitNodeStatus H i nodeId next

/-- The event of the output of a node. -/
def outputEvent (nodeId : String) (output : Json) : EventEnvelope where
  eventType := "step.completed"
  actor := "system"
  target := some ("work_node:" ++ nodeId)
  payload := .mkObj [("node_id", .str nodeId), ("output", output)]

/-- `WorkStore.record_output`. -/
def recordOutput (i : ℕ) (nodeId : String) (output : Json) (expectedVersion : ℤ) : Op Unit := do
  checkVersion H nodeId expectedVersion
  let _ ← emit H i (outputEvent nodeId output)

/-! ### Approval nodes -/

/-- `_latest_approval_id` on the tables. -/
def Db.latestApproval? (db : Db) (graphId nodeId : String) : Option ApprovalRow :=
  latestRequested (db.approvalRequests.filter fun r =>
    r.graphId = .text graphId && r.nodeId = .text nodeId)

/-- `_latest_approval_id`. -/
def latestApprovalId (graphId nodeId : String) : Op (Option String) := readDb fun db => do
  let _ ← bindText H (.str graphId)
  let _ ← bindText H (.str nodeId)
  return (db.latestApproval? graphId nodeId).bind (·.id.text?)

/-- `_APPROVAL_TO_NODE_STATUS`. -/
def approvalToNodeStatus : ApprovalStatus → NodeStatus
  | .approved => .completed
  | .pending => .pending
  | .deferred => .pending
  | .stale => .pending
  | .rejected => .failed
  | .revise => .blocked

/-- The scope that a node names, `node.metadata.get("scope", {})`. -/
def WorkNode.scope (n : WorkNode) : Json := n.metadata.getD "scope" (.mkObj [])

/-- The pass of `refresh_readiness` for one node; `j` is the log of the approval service. -/
def refreshNode (i j : ℕ) (graphId : String) (n : WorkNode) : Op Unit := do
  if n.kind = .approval then
    match ← latestApprovalId H graphId n.id with
    | none => return ()
    | some approvalId =>
      let req ← assertCurrent H j approvalId n.scope
      let state ← getNode H n.id
      if approvalToNodeStatus req.status ≠ state.status then
        emitNodeStatus H i n.id (approvalToNodeStatus req.status)

/-- `WorkStore.refresh_readiness`. -/
def refreshReadiness (i : ℕ) (graphId : String) : Op Unit := do
  let graph ← getGraph H graphId
  let j ← newLog
  graph.nodes.forM (refreshNode H i j graphId)

end Shiroe
