import Shiroe.Execution.Attempts
import Shiroe.Execution.Budget
import Shiroe.Lib.Process
import Shiroe.Policy.Service
import Shiroe.Verification.Review

/-!
# The supervisor

`ExecutionSupervisor.run`: the ready nodes of a graph are visited one after the other.  A node may
wait for an approval, burst the budget, be completed at once, or be tried up to its number of
attempts, each behind the gates of its capabilities and the policy.

A run is a process beside others (`Process`): between any two of its calls people may decide,
sources may change and other programs may write, and it may die there.  What it does is written into
a trace of marks.  The fuel bounds the passes of its two loops; a run that uses it up dies.
-/

namespace Shiroe

open Act

/-! ### The surroundings of a run -/

/-- `adapter.invoke` or `NodeDispatcher.invoke` is called with this. -/
structure Invocation where
  capabilityId : String
  inputs : Json
  timeoutS : ℤ
  deriving DecidableEq

/-- What a run does, as far as its properties speak of it. -/
inductive Mark where
  /-- `assert_executable` has returned. -/
  | executable (nodeId : String) (capabilityId : String)
  /-- `authorize` has returned a verdict. -/
  | authorized (nodeId : String) (verdict : Verdict)
  /-- The approval that a node requires is there. -/
  | approved (nodeId : String)
  /-- The budget has room for the projection of a node. -/
  | projected (nodeId : String) (projection : Json)
  /-- An attempt is recorded as running. -/
  | started (nodeId attemptId : String)
  /-- The adapter of a capability is looked up now. -/
  | resolving (nodeId : String) (capabilityId : String)
  /-- The executor of a node is called now. -/
  | invoked (node : WorkNode) (call : Invocation)
  /-- The executor has returned a result. -/
  | answered (nodeId : String) (result : AdapterResult)
  /-- An attempt is to be recorded as ended now. -/
  | finishing (attemptId : String) (state : AttemptEnd)
  /-- The output of a node is recorded. -/
  | recorded (nodeId : String)
  /-- The independent review of a node has been asked for. -/
  | reviewed (nodeId : String) (passed : Bool)
  /-- A node is to be set to completed now. -/
  | completing (nodeId : String)
  /-- A node is to be set to failed now. -/
  | failing (nodeId : String)
  /-- The pass of `refresh_readiness` over a node begins. -/
  | refreshing (nodeId : String)
  /-- The pass of `refresh_readiness` over a node has ended. -/
  | refreshed (nodeId : String)
  deriving DecidableEq

/-- What a run remembers. -/
structure RunState where
  budget : BudgetTracker := {}
  completed : List String := []
  failed : List String := []
  blocked : List String := []
  deriving DecidableEq

/-- A run, at some point. -/
abbrev Session := Process World RunState Mark

/-- A computation of a run. -/
abbrev Sup (α : Type) := Act Exc Session α

/-- `ExecutionSupervisor`, and what is around it. -/
structure Supervisor where
  /-- The `EventLog` of its store. -/
  log : ℕ
  /-- `node_dispatcher.invoke`, on a graph, a node and a call. -/
  dispatch : String → WorkNode → Invocation → Op AdapterResult
  /-- The arithmetic of its costs. -/
  usdBurst : UsdBurst := fun _ _ => false
  /-- What happens between its calls. -/
  others : Others World := {}

/-- Why a run has ended. -/
inductive RunReason where
  | text (s : String)
  /-- `str(last_error)`. -/
  | error (last : Option Exc)
  deriving DecidableEq

/-- `RunSummary`; of the usage the budget it is a snapshot of. -/
structure RunSummary where
  graphId : String
  status : String
  completed : List String
  failed : List String
  blocked : List String
  reason : Option RunReason
  usage : BudgetTracker
  pendingApprovals : List String := []
  deriving DecidableEq

/-- The exceptions that end an attempt and no more: `CapabilityGateError`, `PermissionError`,
`RuntimeError` and `ConcurrentWorkUpdate`, and what is derived from them. -/
def Exc.isRetried : Exc → Bool
  | .capabilityGate _ => true
  | .denied _ => true
  | .notHuman => true
  | .runtimeError _ => true
  | .lockHeld => true
  | .concurrentWorkUpdate _ => true
  | _ => false

/-- The exceptions after which a review has not passed: `CapabilityGateError` and `ValueError`, and
what is derived from them. -/
def Exc.isNoReview : Exc → Bool
  | .capabilityGate _ => true
  | .valueError _ => true
  | .jsonDecode _ => true
  | .unicodeEncode _ => true
  | .missingField _ => true
  | .wrongSchema _ => true
  | .wrongPrivacyClass _ => true
  | .payloadNotObject => true
  | .unknownEventType _ => true
  | .chainBreak _ _ _ => true
  | .hashMismatch _ _ _ => true
  | .headAbsent _ => true
  | .headMismatch _ _ => true
  | .invalidTransition _ _ _ => true
  | .manifest _ => true
  | .onboarding _ => true
  | .workGraph _ => true
  | .unknownRecordFields _ => true
  | _ => false

variable (H : Host) (S : Supervisor)

namespace Supervisor

/-- One call of a run, after what the others did. -/
def step {α : Type} (x : Op α) : Sup α := Process.step S.others .killed x

/-- One call of a run, marked when it is made. -/
def stepAt {α : Type} (m : Mark) (x : Op α) : Sup α := do
  Process.await S.others .killed
  Process.note m
  Process.lift x

/-- The summary of a run that ends here. -/
def summary (graphId status : String) (reason : Option RunReason) (pending : List String) :
    Sup RunSummary := do
  let r ← Process.recollect id
  return {
    graphId, status, reason
    completed := r.completed
    failed := r.failed
    blocked := r.blocked
    usage := r.budget
    pendingApprovals := pending }

/-- A node is blocked and the run pauses. -/
def pause (graphId nodeId : String) (version : ℤ) (reason : String) (pending : List String) :
    Sup RunSummary := do
  S.step (setNodeStatus H S.log nodeId NodeStatus.blocked.value version)
  Process.remember fun r => { r with blocked := r.blocked ++ [nodeId] }
  S.step (setGraphStatus H S.log graphId GraphStatus.paused.value)
  summary graphId "paused" (some (.text reason)) pending

/-- A node is completed. -/
def complete (nodeId : String) (version : ℤ) : Sup Unit := do
  S.stepAt (.completing nodeId) (setNodeStatus H S.log nodeId NodeStatus.completed.value version)
  Process.remember fun r => { r with completed := r.completed ++ [nodeId] }

/-! ### Approvals -/

/-- The request that the supervisor makes for a node. -/
def nodeRequest (graphId : String) (n : WorkNode) (actionKind : String) (scope : Json) :
    RequestArgs where
  approvalType := ApprovalType.action.value
  requestedAction := "approve " ++ n.id
  scope := scope
  reason :=
    ((n.metadata.get "reason").orElse (.str ("approval required for node " ++ n.id))).pyText
  risk := (n.risk.orElse (.str "medium")).pyText
  graphId := some graphId
  nodeId := some n.id
  actionKind := some actionKind

/-- `_ensure_approval_request`. -/
def ensureApprovalRequest (graphId : String) (n : WorkNode) (actionKind : String) (scope : Json) :
    Sup String := do
  match ← S.step (latestApprovalId H graphId n.id) with
  | some approvalId => return approvalId
  | none =>
    let j ← S.step newLog
    S.step (requestApproval H j (nodeRequest graphId n actionKind scope))

/-- The run pauses for the approval of a node. -/
def pauseForApproval (graphId : String) (n : WorkNode) (version : ℤ) (actionKind reason : String) :
    Sup RunSummary := do
  let scope ← Act.ofExcept n.scope.toDict
  let approvalId ← S.ensureApprovalRequest H graphId n actionKind scope
  S.pause H graphId n.id version reason [approvalId]

/-- `_task_approval_current`. -/
def taskApprovalCurrent (graphId : String) (n : WorkNode) (scope : Json) : Sup Bool := do
  match ← S.step (latestApprovalId H graphId n.id) with
  | none => return false
  | some approvalId =>
    let j ← S.step newLog
    let req ← S.step (assertCurrent H j approvalId scope)
    if req.status = .approved then do
      Process.note (.approved n.id)
      return true
    else return false

/-- The gate of a node that requires an approval. -/
def approvalGate (graphId : String) (n : WorkNode) : Sup Bool :=
  if n.approvalRequired then do
    let scope ← Act.ofExcept n.scope.toDict
    S.taskApprovalCurrent H graphId n scope
  else return true

/-! ### Reviews and outputs -/

/-- `_has_evidence`. -/
def hasEvidence (output : Json) : Bool :=
  (output.get "evidence").truthy || (output.get "evidence_refs").truthy

/-- `_independent_review_passes`. -/
def independentReviewPasses (n : WorkNode) : Sup Bool := do
  let reviewer := n.metadata.get "reviewer_capability_id"
  let executor := n.requires.head?.getD .null
  if reviewer.truthy = false ∨ executor.truthy = false then return false
  else do
    let passed ← catching Exc.isNoReview
      (do
        let _ ← S.step (nodeOutput H n.id)
        let status ← S.step (runIndependentReview H executor reviewer true)
        return decide (status = .passed))
      fun _ => return false
    Process.note (.reviewed n.id passed)
    return passed

/-- The review gate of a node. -/
def reviewGate (n : WorkNode) : Sup Bool :=
  if n.independentReview then S.independentReviewPasses H n else return true

/-- `[name for name in node.expected_outputs if name not in out]`. -/
def missingOutputs (expected : List Json) (out : Json) : Except Exc (List Json) :=
  expected.foldrM (fun name missing =>
    match name with
    | .str s => .ok (if out.has s then missing else .str s :: missing)
    -- a list or a dict has no hash; no key is anything else than a text
    | .arr _ => .error .typeError
    | .obj _ => .error .typeError
    | j => .ok (j :: missing)) []

/-! ### One attempt -/

/-- `{**base, **d}`. -/
def mergeFields (base : Json) : Json → Json
  | .obj d => d.foldl (fun j kv => j.set kv.1 kv.2) base
  | _ => base

/-- The inputs that an executor is given. -/
def inputsOf (n : WorkNode) : Except Exc Json := do
  let given ← (n.metadata.getD "inputs" (.mkObj [])).toDict
  return mergeFields
    (.mkObj [("root", .str ("/" ++ joinPath H.root)), ("autonomy_mode", .str "policy-bound")]) given

/-- Call the executor of a node: the dispatcher, or the adapter that the capability names. -/
def invokeExecutor (graphId : String) (n : WorkNode) (call : Invocation) : Sup AdapterResult :=
  if n.placement.mode = "node" then
    S.stepAt (.invoked n call) (S.dispatch graphId n call)
  else do
    let name ← S.stepAt (.resolving n.id call.capabilityId) (adapterEntry H call.capabilityId)
    S.step (resolveAdapter name)
    S.stepAt (.invoked n call) invokeAdapter

/-- `_finish_attempt`, marked when it is called. -/
def finish (attemptId : String) (state : AttemptEnd) (error : Option String) (usage : Json) :
    Sup Unit :=
  S.stepAt (.finishing attemptId state) (finishAttempt H S.log attemptId state error usage)

/-- Record an attempt as failed and raise a `RuntimeError`. -/
def failAttempt {α : Type} (attemptId : String) (error : Option String) (usage : Json)
    (message : String) : Sup α := do
  S.finish H attemptId .failed error usage
  throw (.runtimeError message)

/-- The gates of every attempt: all capabilities of the node may be executed, and what the policy
says of the first. -/
def attemptGates (graphId : String) (n : WorkNode) : Sup (String × AuthorizationResult) := do
  n.requires.forM fun required => do
    let requiredId ← Act.ofExcept (capabilityText required)
    S.step (assertExecutable H requiredId)
    Process.note (.executable n.id requiredId)
  let capabilityId ← Act.ofExcept (capabilityText (n.requires.head?.getD .null))
  let j ← S.step newLog
  let auth ← S.step (authorize H j ⟨.capabilityInvoke, capabilityId⟩ .null (some graphId)
    (some n.id)
    (.mkObj [("capability_id", .str capabilityId), ("node_id", .str n.id)]) .policyBound)
  Process.note (.authorized n.id auth.verdict)
  return (capabilityId, auth)

/-- An attempt: it is recorded, and the executor is called. -/
def startAttempt (graphId : String) (n : WorkNode) (capabilityId : String) :
    Sup (String × AdapterResult) := do
  let attemptId ← S.step (recordAttempt H S.log graphId n.id capabilityId)
  Process.note (.started n.id attemptId)
  let inputs ← Act.ofExcept (inputsOf H n)
  let timeoutS ← Act.ofExcept (pyIntOf (n.metadata.getD "timeout_s" (.int 60)))
  let result ← S.invokeExecutor H graphId n { capabilityId, inputs, timeoutS }
  Process.note (.answered n.id result)
  return (attemptId, result)

/-- What a result has to deliver: the attempt fails where it does not. -/
def checkResult (n : WorkNode) (attemptId : String) (result : AdapterResult) : Sup Unit := do
  if result.ok = false then
    S.failAttempt H attemptId result.error result.usage
      ((given result.error).getD "adapter failed")
  else do
    let out := if result.output.isObj then result.output else .mkObj []
    let missing ← Act.ofExcept (missingOutputs n.expectedOutputs out)
    if missing ≠ [] then
      S.failAttempt H attemptId
        (some ("missing expected outputs: " ++ (Json.arr missing).pyRepr)) result.usage
        ("node " ++ n.id ++ " missing expected outputs: " ++ (Json.arr missing).pyRepr)
    else if n.evidenceRequired = true ∧ hasEvidence out = false then
      S.failAttempt H attemptId (some "evidence_required but none produced") result.usage
        ("node " ++ n.id ++ " completed without required evidence")
    else return ()

/-- Charge what a result reports, and record the attempt as completed with its output: the version
of the node before that. -/
def settleAttempt (n : WorkNode) (attemptId : String) (result : AdapterResult) : Sup ℤ := do
  let usage := result.usage.orElse (.mkObj [])
  let budget ← Process.recollect RunState.budget
  let budget ← Act.ofExcept (budget.chargeUsage H usage)
  Process.remember fun r => { r with budget }
  S.finish H attemptId .completed none usage
  let version ← S.step (nodeStateVersion H n.id)
  S.step (recordOutput H S.log n.id (result.output.orElse (.mkObj [])) version)
  Process.note (.recorded n.id)
  return version

/-- The body of the retry loop: `none` for a node that is completed, else the summary of a run that
pauses. -/
def attempt (graphId : String) (n : WorkNode) (version : ℤ) : Sup (Option RunSummary) := do
  let (capabilityId, auth) ← S.attemptGates H graphId n
  match auth.verdict with
  | .requireApproval =>
    let reason := match given auth.approvalId with
      | some id => "approval " ++ id ++ ": " ++ auth.reason
      | none => "approval"
    return some (← S.pause H graphId n.id version reason (given auth.approvalId).toList)
  | .deny => throw (.denied auth.reason)
  | .allow =>
    let (attemptId, result) ← S.startAttempt H graphId n capabilityId
    S.checkResult H n attemptId result
    let version ← S.settleAttempt H n attemptId result
    if ← S.reviewGate H n then
      S.complete H n.id (version + 1)
      return none
    else return some (← S.pause H graphId n.id (version + 1) "independent_review" [])

/-! ### The retry loop -/

/-- What the retry loop ends with. -/
inductive Retried where
  | completed
  | paused (summary : RunSummary)
  /-- No attempt is left; the last error. -/
  | exhausted (last : Option Exc)

/-- `n < x` for a number `x`. -/
def belowNumber (n : ℕ) : Json → Except Exc Bool
  | .int m => .ok ((n : ℤ) < m)
  | .bool b => .ok (n < if b then 1 else 0)
  | .float x => .ok (if x.isFinite then (n : ℚ) < x.value else x.repr = "Infinity")
  | _ => .error .typeError

/-- `attempts_done < max(1, node.retry.max_attempts)`. -/
def mayTry (retry : RetryPolicy) (attemptsDone : ℕ) : Except Exc Bool := do
  let below ← belowNumber attemptsDone retry.maxAttempts
  return attemptsDone < 1 || below

/-- The retry loop; the wait between two attempts is a wait for the others. -/
def retry (graphId : String) (n : WorkNode) (version : ℤ) : ℕ → ℕ → Option Exc → Sup Retried
  | 0, _, _ => throw .killed
  | fuel + 1, attemptsDone, last => do
    if ← Act.ofExcept (mayTry n.retry attemptsDone) then
      let tried ← catching Exc.isRetried
        (do
          match ← S.attempt H graphId n version with
          | none => return Except.ok .completed
          | some summary => return Except.ok (.paused summary))
        fun e => return Except.error e
      match tried with
      | .ok r => return r
      | .error e => retry graphId n version fuel (attemptsDone + 1) (some e)
    else return .exhausted last

/-! ### One node -/

/-- A node is set to failed, if it is not. -/
def failNode (nodeId : String) : Sup Unit := do
  let latest ← S.step (getNode H nodeId)
  if latest.status ≠ .failed then
    S.stepAt (.failing nodeId)
      (setNodeStatus H S.log nodeId NodeStatus.failed.value latest.stateVersion)

/-- No attempt is left: the node has failed, and the run with it. -/
def giveUp (graphId nodeId : String) (last : Option Exc) : Sup RunSummary := do
  S.failNode H nodeId
  Process.remember fun r => { r with failed := r.failed ++ [nodeId] }
  S.step (setGraphStatus H S.log graphId GraphStatus.failed.value)
  summary graphId "failed" (some (.error last)) []

/-- A node without executors is completed, unless it asks for a review. -/
def visitIdle (graphId : String) (n : WorkNode) (version : ℤ) : Sup (Option RunSummary) := do
  if ← S.reviewGate H n then
    S.complete H n.id version
    return none
  else return some (← S.pause H graphId n.id version "independent_review" [])

/-- A node with executors is tried, if the budget has room for it. -/
def visitTask (fuel : ℕ) (graphId : String) (n : WorkNode) (version : ℤ) :
    Sup (Option RunSummary) := do
  let projection ← Act.ofExcept (n.metadata.getD "budget_projection" (.mkObj [])).toDict
  let budget ← Process.recollect RunState.budget
  let burst ← Act.ofExcept (budget.wouldExceed H S.usdBurst projection)
  if burst.isSome then return some (← S.pause H graphId n.id version "budget" [])
  else do
    Process.note (.projected n.id projection)
    let attemptsDone ← S.step (attemptCount H n.id)
    match ← S.retry H graphId n version fuel attemptsDone none with
    | .completed => return none
    | .paused summary => return some summary
    | .exhausted last => return some (← S.giveUp H graphId n.id last)

/-- The body of the loop over the ready nodes: the summary, if the run ends here. -/
def visit (fuel : ℕ) (graphId nodeId : String) : Sup (Option RunSummary) := do
  let state ← S.step (getNode H nodeId)
  let n := state.node
  if n.kind = .approval then
    return some (← S.pauseForApproval H graphId n state.stateVersion "approval_node" "approval")
  else if ← S.approvalGate H graphId n then
    if n.requires = [] then S.visitIdle H graphId n state.stateVersion
    else S.visitTask H fuel graphId n state.stateVersion
  else
    return some (← S.pauseForApproval H graphId n state.stateVersion "approval_required"
      "approval_required")

/-- The loop over the ready nodes. -/
def visitAll (fuel : ℕ) (graphId : String) : List String → Sup (Option RunSummary)
  | [] => return none
  | nodeId :: ready => do
    match ← S.visit H fuel graphId nodeId with
    | some summary => return some summary
    | none => visitAll fuel graphId ready

/-! ### The run -/

/-- `WorkStore.refresh_readiness`, node by node. -/
def refresh (graphId : String) : Sup Unit := do
  let graph ← S.step (getGraph H graphId)
  let j ← S.step newLog
  graph.nodes.forM fun n => do
    S.stepAt (.refreshing n.id) (refreshNode H S.log j graphId n)
    Process.note (.refreshed n.id)

/-- The text of a tuple of ids. -/
def pyTuple : List String → String
  | [s] => "(" ++ pyRepr s ++ ",)"
  | l => "(" ++ String.intercalate ", " (l.map pyRepr) ++ ")"

/-- No node is ready: the graph is completed, or stuck. -/
def conclude (graphId : String) (statuses : List (String × NodeStatus)) : Sup RunSummary := do
  if statuses.all fun s => s.2 = .completed || s.2 = .skipped then
    S.step (setGraphStatus H S.log graphId GraphStatus.completed.value)
    summary graphId "completed" none []
  else do
    S.step (setGraphStatus H S.log graphId GraphStatus.failed.value)
    let pending := (statuses.filter (·.2 = .pending)).map (·.1)
    summary graphId "failed" (some (.text ("deadlocked pending nodes: " ++ pyTuple pending))) []

/-- The outer loop. -/
def passes (graphId : String) : ℕ → Sup RunSummary
  | 0 => throw .killed
  | fuel + 1 => do
    S.refresh H graphId
    let ready ← S.step (readyNodeIds H graphId)
    let graph ← S.step (getGraph H graphId)
    let statuses ← graph.nodes.mapM fun n => do
      return (n.id, (← S.step (getNode H n.id)).status)
    if ready = [] then S.conclude H graphId statuses
    else
      match ← S.visitAll H fuel graphId ready with
      | some summary => return summary
      | none => passes graphId fuel

/-- `_unblock_task_nodes`. -/
def unblockTaskNodes (graphId : String) : Sup Unit := do
  let graph ← S.step (getGraph H graphId)
  graph.nodes.forM fun n => do
    if n.kind ≠ .approval then
      let state ← S.step (getNode H n.id)
      if state.status = .blocked then
        S.step (setNodeStatus H S.log n.id NodeStatus.pending.value state.stateVersion)

/-- `run`, and `resume`. -/
def run (fuel : ℕ) (graphId : String) : Sup RunSummary := do
  S.unblockTaskNodes H graphId
  S.step (setGraphStatus H S.log graphId GraphStatus.running.value)
  Process.remember fun r => { r with completed := [], failed := [], blocked := [] }
  S.passes H graphId fuel

end Supervisor

end Shiroe
