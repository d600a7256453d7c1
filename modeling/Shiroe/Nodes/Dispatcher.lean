import Shiroe.Lib.Mutex
import Shiroe.Lib.Rely
import Shiroe.Nodes.Leases
import Shiroe.Nodes.Protocol
import Shiroe.Outside
import Shiroe.Work.Schema

/-!
# Work that is sent to other nodes

`nodes/dispatcher.py`.  A dispatch takes a lease, hands a package to the remote executor and ends
the lease by what comes back.  Other processes dispatch, acquire, expire and end leases and change
who is trusted in between, and any of them may die.

* `NodeDispatcher.invoke` : a dispatch, as the program of its statements;
* `dispatchesAt` : the processes after the first turns of a run.
-/

namespace Shiroe

/-! ### Rows -/

/-- The columns of `nodes` that leases do not depend on. -/
structure NodeColumns where
  name : String := ""
  transport : String := "tailscale"
  transportHost : String := ""
  sshUser : String := ""
  tailscaleStableId : Option String := none
  status : String := "unknown"
  capabilities : List String := []
  capabilityDigest : Option String := none
  lastSeenAt : Option String := none
  createdAt : String := ""
  updatedAt : String := ""
  deriving DecidableEq

/-- A row of `nodes`, and a `NodeRecord`. -/
structure NodeRecord extends WorkerRow, NodeColumns
  deriving DecidableEq

/-- The database and the log, and how often what is outside has been asked. -/
structure RemoteDb where
  leases : LeaseDb := {}
  /-- The other columns of the node with an id. -/
  columns : String → NodeColumns := fun _ => {}
  looked : ℕ := 0
  moments : ℕ := 0
  packages : ℕ := 0
  executed : ℕ := 0

/-- What the processes get from outside. -/
structure RemoteHost (T : Calendar) extends LeaseHost where
  /-- `current_digest` of a capability, if there is one. -/
  digest : ℕ → String → Option String
  /-- `self.clock()` of the dispatcher. -/
  moment : ℕ → T.Moment
  /-- `now + timedelta(seconds=timeout_s)`, which may leave the range of dates. -/
  later : T.Moment → ℤ → Except Exc T.Moment
  /-- `uuid.uuid4().hex`. -/
  uuid : ℕ → String
  /-- What the remote executor returns or raises. -/
  answer : ℕ → NodeRecord → Json → Except Exc AdapterResult
  /-- A process that dies answers nothing. -/
  answer_ne : ∀ n node package, answer n node package ≠ .error .killed

/-! ### Statements -/

/-- What a dispatch and the operations beside it ask for. -/
inductive RemoteStmt where
  | lease (m : LeaseStmt)
  /-- `SELECT * FROM nodes WHERE id=?`. -/
  | node (id : String)
  /-- `UPDATE nodes SET trusted=?, updated_at=? WHERE id=?`. -/
  | trust (id : String) (trusted : Bool) (now : String)
  /-- A look at the capability store. -/
  | capability
  | clock
  | uuid
  /-- A call of the remote executor. -/
  | execute (node : NodeRecord) (package : Json)

/-- What comes back: for what is outside, how often it has been asked. -/
def RemoteStmt.Answer : RemoteStmt → Type
  | .lease m => m.Answer
  | .node _ => Option NodeRecord
  -- whether there is such a row
  | .trust _ _ _ => Bool
  | .capability => ℕ
  | .clock => ℕ
  | .uuid => ℕ
  | .execute _ _ => ℕ

namespace RemoteDb

/-- The row of a node. -/
def node? (s : RemoteDb) (id : String) : Option NodeRecord :=
  (s.leases.nodes.find? (·.id = id)).map fun r => { r, s.columns id with }

/-- Execute a statement. -/
def exec : (m : RemoteStmt) → RemoteDb → m.Answer × RemoteDb
  | .lease m, s => ((LeaseDb.exec m s.leases).1, { s with leases := (LeaseDb.exec m s.leases).2 })
  | .node id, s => (s.node? id, s)
  | .trust id trusted now, s =>
    (s.leases.nodes.any (·.id = id), { s with
      leases := { s.leases with
        nodes := Table.update (·.id = id) (fun r => { r with trusted }) s.leases.nodes }
      columns := Function.update s.columns id { s.columns id with updatedAt := now } })
  | .capability, s => (s.looked, { s with looked := s.looked + 1 })
  | .clock, s => (s.moments, { s with moments := s.moments + 1 })
  | .uuid, s => (s.packages, { s with packages := s.packages + 1 })
  | .execute _ _, s => (s.executed, { s with executed := s.executed + 1 })

end RemoteDb

/-- A program of a dispatch. -/
abbrev RemoteProg (α : Type) := Prog RemoteStmt RemoteStmt.Answer Exc α

/-- Ask for one thing. -/
def request (m : RemoteStmt) : RemoteProg m.Answer := Prog.issue m

/-- An operation on leases, beside a dispatch. -/
def onLeases {α : Type} (x : LeaseProg α) : RemoteProg α := x.lift RemoteStmt.lease fun _ r => r

/-! ### Operations -/

/-- The arguments of `NodeDispatcher.invoke`. -/
structure DispatchArgs where
  graphId : String
  workNode : WorkNode
  capabilityId : String
  /-- A dict with string keys, that holds JSON values. -/
  inputs : Json
  inputs_obj : inputs.isObj = true
  inputs_wf : inputs.WF
  timeoutS : ℤ

variable (H : Host) {T : Calendar} (W : RemoteHost T)

/-- `NodeStore.get_node`. -/
def getNodeRecord (nodeId : String) : RemoteProg NodeRecord :=
  if isOpaqueId "node_" 64 nodeId then do
    let row : Option NodeRecord ← request (.node nodeId)
    match row with
    | some r => return r
    | none => .raise (.keyError nodeId)
  else .raise (.valueError "node_id must be Shiroe-generated opaque id")

/-- `NodeStore.trust_node`. -/
def trustNode (nodeId : String) (trusted : Bool) : RemoteProg NodeRecord :=
  if isOpaqueId "node_" 64 nodeId then do
    let now : String ← onLeases (leaseNow W.toLeaseHost)
    let found : Bool ← request (.trust nodeId trusted now)
    if found then do
      onLeases (emitLease {
        eventType := "node.trust_changed"
        payload := .mkObj [("node_id", .str nodeId), ("trusted", .bool trusted)]
        target := "node:" ++ nodeId })
      getNodeRecord nodeId
    else .raise (.keyError nodeId)
  else .raise (.valueError "node_id must be Shiroe-generated opaque id")

/-- `_capability_digest`. -/
def capabilityDigest (capabilityId : String) : RemoteProg String := do
  let n : ℕ ← request .capability
  match W.digest n capabilityId with
  | some digest => return digest
  | none => .raise (.keyError capabilityId)

/-- A text that is matched against a pattern. -/
def matchedText : Json → RemoteProg String
  | .str s => return s
  | _ => .raise .typeError

/-- The package of a dispatch. -/
def dispatchPackage (a : DispatchArgs) (nodeId leaseId capabilityDigest : String) :
    RemoteProg Json := do
  let n : ℕ ← request .clock
  let u : ℕ ← request .uuid
  let made := do
    let expiresAt ← W.later (W.moment n) a.timeoutS
    makeWorkPackage H T {
      packageId := "pkg_" ++ W.uuid u
      graphId := a.graphId
      workNodeId := a.workNode.id
      leaseId
      workerNodeId := nodeId
      capabilityId := a.capabilityId
      capabilityDigest
      inputs := a.inputs
      inputs_obj := a.inputs_obj
      inputs_wf := a.inputs_wf
      timeoutS := a.timeoutS
      createdAt := .moment (W.moment n)
      expiresAt := .moment expiresAt }
  match made with
  | .ok package => return package.toDict
  | .error e => .raise e

/-- The lease ends by what the executor answered. -/
def settle (leaseId : String) : Except Exc AdapterResult → RemoteProg AdapterResult
  | .error e => .raise e
  | .ok result =>
    if result.ok then do
      let _ ← onLeases (completeLease W.toLeaseHost leaseId)
      return result
    else do
      let _ ← onLeases (failLease W.toLeaseHost leaseId)
      return result

/-- The part of a dispatch under `try`, from the answer on, with its handler. -/
def settleOrFail (leaseId : String) (answer : Except Exc AdapterResult) :
    RemoteProg AdapterResult :=
  (settle W leaseId answer).onRaise (onLeases (failLease W.toLeaseHost leaseId))

/-- `NodeDispatcher.invoke`. -/
def NodeDispatcher.invoke (a : DispatchArgs) : RemoteProg AdapterResult :=
  if a.workNode.placement.mode ≠ "node" ∨ a.workNode.placement.nodeId.truthy = false then
    .raise (.valueError "NodeDispatcher requires node placement")
  else do
    let nodeId ← matchedText a.workNode.placement.nodeId
    let node ← getNodeRecord nodeId
    let currentDigest ← capabilityDigest W a.capabilityId
    if node.capabilityDigest ≠ some currentDigest then
      .raise (.runtimeError "worker capability digest does not match controller capability")
    else do
      let lease ← onLeases
        (acquireLease W.toLeaseHost a.graphId a.workNode.id node.id a.timeoutS)
      -- what is raised here leaves the lease active
      let package ← dispatchPackage H W a node.id lease.id currentDigest
      let n : ℕ ← request (.execute node package)
      settleOrFail W lease.id (W.answer n node package)

/-- What a process is called for. -/
inductive RemoteCall where
  | lease (c : LeaseCall)
  | trust (nodeId : String) (trusted : Bool)
  | invoke (a : DispatchArgs)

/-- The program of a call; of a dispatch it keeps the result. -/
def RemoteCall.prog : RemoteCall → RemoteProg (Option AdapterResult)
  | .lease c => do
    let _ ← onLeases (c.prog W.toLeaseHost)
    return none
  | .trust nodeId trusted => do
    let _ ← trustNode W nodeId trusted
    return none
  | .invoke a => do
    let result ← NodeDispatcher.invoke H W a
    return some result

/-- The processes that work on one project. -/
abbrev RemotePool := Pool RemoteStmt RemoteStmt.Answer Exc (Option AdapterResult) RemoteDb

/-- The processes after the first turns, from a project where nobody works yet. -/
def dispatchesAt (s : RemoteDb) (turns : List (Turn RemoteCall)) (k : ℕ) : RemotePool :=
  Run.stateAt (Pool.step RemoteDb.exec (RemoteCall.prog H W)) { shared := s } turns k

end Shiroe
