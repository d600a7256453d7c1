import Shiroe.Nodes.Dispatcher
import Shiroe.Nodes.Worker
import Shiroe.Policy.Egress
import Shiroe.Storage.Lines

/-!
# Remote execution

`transport/tailscale_ssh.py`.  The controller copies a package into the inbox of a worker, runs the
worker over SSH and reads its receipt.  Each of the commands may fail, the answer may be lost after
the package was executed, somebody may change the inbox in between, and an event may not be logged.

* `RemoteSite` : what a remote execution meets;
* `executeRemotePackage` : the execution, over the project and what the worker has executed.
-/

namespace Shiroe

open Act

/-! ### What is outside -/

/-- `ProbeResult`, without what nothing reads. -/
structure ProbeResult where
  reachable : Bool
  pathType : String
  raw : String

/-- What the policy of a project is read from. -/
structure PolicyFiles where
  privacy : Option String
  connectors : List (String × Bool)
  stack : List PolicyLayer

/-- What a remote execution meets outside of the project. -/
structure RemoteSite (T : Calendar) where
  /-- The files of the policy; reading them may fail. -/
  policyFiles : Except Exc PolicyFiles
  /-- `SHIROE_ALLOW_NETWORK`. -/
  allowNetwork : Option String
  probe : String → Except Exc ProbeResult
  /-- The package file in a temporary directory. -/
  staged : Except Exc Unit
  /-- `scp`. -/
  copied : Except Exc Unit
  /-- What the worker finds under the path in its inbox, when this was copied there. -/
  inbox : String → List Char → Option (List Char)
  /-- `ssh`, up to the start of the worker. -/
  reached : Except Exc Unit
  worker : WorkerSide
  /-- What a worker that raises writes to its standard error. -/
  detail : Exc → String
  /-- The answer of the worker does not arrive. -/
  lost : Option Exc
  /-- Where the append of an event of a type is cut short. -/
  cut : String → Option Cut

/-- The project of the controller, and the worker. -/
structure RemoteState where
  project : World
  /-- The packages that the worker has executed. -/
  executed : List WorkPackage

/-- `AdapterResult`, as a receipt fills it. -/
structure RemoteResult where
  ok : Bool
  output : Json
  error : Json
  exitCode : Json
  stderrTail : Json
  metadata : Json
  usage : Json
  deriving DecidableEq

/-! ### Checks -/

/-- `RemoteExecutionError`, a `RuntimeError`. -/
def remoteError (message : String) : Exc := .runtimeError message

/-- `except RemoteExecutionError`. -/
def isRemoteError : Exc → Bool
  | .runtimeError _ => true
  | _ => false

/-- `[A-Za-z0-9]`. -/
def isHostEnd (c : Char) : Bool :=
  ('A' ≤ c && c ≤ 'Z') || ('a' ≤ c && c ≤ 'z') || ('0' ≤ c && c ≤ '9')

/-- `_HOST_RE`. -/
def isHost (s : String) : Bool :=
  s.toList.head?.any isHostEnd && s.toList.getLast?.any isHostEnd && s.toList.length ≤ 253 &&
    s.toList.all fun c => isHostEnd c || c = '.' || c = '-'

/-- `_SSH_USER_RE`. -/
def isSshUser (s : String) : Bool :=
  s.toList.head?.any (fun c => ('a' ≤ c && c ≤ 'z') || c = '_') && s.toList.length ≤ 32 &&
    s.toList.all fun c => ('a' ≤ c && c ≤ 'z') || ('0' ≤ c && c ≤ '9') || c = '_' || c = '-'

/-- `_PACKAGE_ID_RE`. -/
def isPackageId (s : String) : Bool :=
  0 < s.toList.length && s.toList.length ≤ 96 &&
    s.toList.all fun c => isHostEnd c || c = '_' || c = '.' || c = '-'

/-- `".." in s`. -/
def hasDots (s : String) : Bool := decide (['.', '.'] <:+: s.toList)

/-- `_validate_node`. -/
def validateNode (node : NodeRecord) : Except Exc Unit :=
  if node.role ≠ "worker" ∨ node.transport ≠ "tailscale" ∨ node.trusted = false then
    .error (remoteError "remote execution requires a trusted tailscale worker node")
  else if isHost node.transportHost = false ∨ hasDots node.transportHost = true then
    .error (remoteError "invalid worker transport_host")
  else if isSshUser node.sshUser = false then .error (remoteError "invalid worker ssh_user")
  else .ok ()

/-- `_validate_package_id`. -/
def validatePackageId (packageId : String) : Except Exc String :=
  if isPackageId packageId = false ∨ packageId.toList.contains '/' ∨
      packageId.toList.contains '\\' ∨ hasDots packageId = true then
    .error (remoteError "invalid package_id for remote inbox path")
  else .ok packageId

/-- `_parse_receipt`. -/
def parseReceipt (raw : List Char) : Except Exc Json :=
  match loadsText raw with
  | none => .error (remoteError "remote worker returned invalid receipt JSON")
  | some receipt =>
    if receipt.isObj then .ok receipt
    else .error (remoteError "remote worker receipt must be a JSON object")

/-! ### A remote execution -/

variable (H : Host) {T : Calendar} (S : RemoteSite T)

/-- `EventLog.append` of the object `i`, which has no mirror, cut short at `cut`. -/
def appendUnmirrored (i : ℕ) (e : EventEnvelope) (cut : Option Cut) : Op Json := do
  let envelope := e.scrubbed H
  let w ← get
  if w.dir.lockfile then throw .lockHeld
  reach cut .acquire .lockHeld
  let head ← loadHead H i cut
  let w ← get
  let env := envelope.preparedAt H w head
  set (envelope.stamp w)
  Act.ofExcept (validateEnvelope true env)
  reach cut .write .osError
  modifyDir (·.appendEvent (envelope.timestampAt H w) env)
  reach cut .head .osError
  modifyDir (·.writeHead (envelope.hashAt H w head) (.str (envelope.eventIdAt H w)))
  return env

/-- Run an operation on the project. -/
def onProject {α : Type} (x : Op α) : Act Exc RemoteState α :=
  Act.zoom RemoteState.project (fun project s => { s with project }) x

/-- Run a computation on the worker. -/
def onWorker {α : Type} (x : Act Exc (List WorkPackage) α) : Act Exc RemoteState α :=
  Act.zoom RemoteState.executed (fun executed s => { s with executed }) x

/-- The event that `_emit` appends. -/
def remoteEvent (node : NodeRecord) (package : Json) (eventType status : String)
    (extra : List (String × Json)) : EventEnvelope where
  eventType
  actor := "shiroe"
  target := some ("node:" ++ node.id)
  payload := .mkObj (extra ++ [("node_id", .str node.id), ("package_id", package.get "package_id"),
    ("package_digest", package.get "digest"), ("status", .str status)])

/-- `_emit`. -/
def remoteEmit (log : ℕ) (e : EventEnvelope) : Act Exc RemoteState Unit := do
  let _ ← onProject (appendUnmirrored H log e (S.cut e.eventType))

/-- The second command: the worker runs, and its answer comes back. -/
def sshWorkerRun (found : Option (List Char)) : Act Exc RemoteState (List Char) := do
  Act.ofExcept S.reached
  let out ← Act.catching (fun _ => true) (onWorker (workerRun H T S.worker found)) fun e =>
    throw (remoteError (S.detail e))
  match S.lost with
  | some e => throw e
  | none => return out

/-- What `execute_remote_package` makes of the answer of the worker. -/
def acceptReceipt (log : ℕ) (node : NodeRecord) (package : Json) (packageDigest : String)
    (stdout : List Char) : Act Exc RemoteState RemoteResult := do
  let receipt ← Act.ofExcept (parseReceipt stdout)
  if receipt.get "schema" ≠ .str executionReceiptSchema then
    throw (remoteError "remote worker returned wrong receipt schema")
  else if receipt.get "package_digest" ≠ .str packageDigest then
    throw (remoteError "remote worker receipt package digest mismatch")
  else do
    remoteEmit H S log (remoteEvent node package "remote.execution_completed" "completed" [])
    let metadata ← Act.ofExcept ((receipt.get "metadata").orElse (.mkObj [])).toDict
    return {
      ok := (receipt.get "ok").truthy
      output := receipt.get "output"
      error := receipt.get "error"
      exitCode := receipt.get "exit_code"
      stderrTail := receipt.get "stderr_tail"
      metadata
      usage := receipt.get "usage" }

/-- The part of `execute_remote_package` under `try`. -/
def transferAndRun (log : ℕ) (node : NodeRecord) (package : Json)
    (packageId packageDigest : String) : Act Exc RemoteState RemoteResult := do
  Act.ofExcept S.staged
  let line := package.dumps true ++ ['\n']
  remoteEmit H S log (remoteEvent node package "transfer.started" "started" [])
  Act.catching isRemoteError (Act.ofExcept S.copied) fun e => do
    remoteEmit H S log (remoteEvent node package "transfer.rejected" "failed" [])
    throw e
  remoteEmit H S log (remoteEvent node package "transfer.completed" "completed" [])
  let stdout ← sshWorkerRun H S (S.inbox packageId line)
  acceptReceipt H S log node package packageDigest stdout

/-- `execute_remote_package`. -/
def executeRemotePackage (node : NodeRecord) (package : Json) :
    Act Exc RemoteState RemoteResult := do
  Act.ofExcept (validateNode node)
  if package.isObj = false then throw .attributeError
  else do
    let packageId ← Act.ofExcept
      (validatePackageId ((package.get "package_id").orElse (.str "")).pyText)
    let packageDigest := ((package.get "digest").orElse (.str "")).pyText
    let log ← onProject newLog
    let files ← Act.ofExcept S.policyFiles
    match requireNetwork (loadPolicy files.privacy files.connectors) files.stack S.allowNetwork
      "remote worker execution" node.transportHost "tailnet" with
    | .error (.runtimeError message) => do
      remoteEmit H S log
        (remoteEvent node package "remote.execution_failed" "policy_denied" [])
      throw (remoteError message)
    | .error e => throw e
    | .ok () => do
      let probe ← Act.ofExcept (S.probe node.transportHost)
      if probe.reachable = false then do
        remoteEmit H S log (remoteEvent node package "remote.execution_failed" "unreachable" [])
        throw (remoteError
          ("remote worker " ++ node.transportHost ++ " unreachable: " ++ probe.raw))
      else do
        remoteEmit H S log (remoteEvent node package "remote.execution_started" "started"
          [("path_type", .str probe.pathType)])
        Act.catching (fun _ => true)
          (transferAndRun H S log node package packageId packageDigest) fun e => do
            remoteEmit H S log (remoteEvent node package "remote.execution_failed" "failed" [])
            throw e

end Shiroe
