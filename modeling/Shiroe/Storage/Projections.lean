import Shiroe.Storage.Events

/-!
# The reducers

`storage/records.apply_event` and `storage/projections.apply_event`: every event that a store
appends is folded into the tables by one of four reducers, and a replay folds the events of the
log by the same ones.  A reducer reads the raw envelope, so it meets events of every shape; it
returns whether the event was applied.
-/

namespace Shiroe

/-- `env.get("payload") or {}`, used as a dict. -/
def payloadOf (env : Json) : Except Exc Json := ((env.get "payload").orElse (.mkObj [])).dict

/-- Some of the fields is missing or `None`. -/
def anyNone (payload : Json) (fields : List String) : Bool :=
    fields.any fun k => (payload.get k).isNull

section

variable (H : Host)

/-- Bind a parameter for a TEXT column. -/
def text (j : Json) : Act Exc Db SqlVal := Act.ofExcept (bindText H j)

/-- Bind a parameter for an INTEGER column. -/
def integer (j : Json) : Act Exc Db SqlVal := Act.ofExcept (bindInt H j)

/-- Bind a parameter for a REAL column, which reads an integer back as the equal float. -/
def real (j : Json) : Act Exc Db SqlVal := Act.ofExcept (bindParam H j)

/-- `x[k]`. -/
def item (x : Json) (k : String) : Act Exc Db Json := Act.ofExcept (x.item k)

/-! ### Memory -/

/-- `_REQUIRED_PAYLOAD_FIELDS`. -/
def requiredPayloadFields : List String :=
  ["id", "kind", "title", "claim", "owner", "created_at", "updated_at"]

/-- One row of `memory_sources`. -/
def applySource (payload source : Json) : Act Exc Db Unit := do
  let id ← item source "id"
  let sourceType ← item source "source_type"
  let sourceRef ← item source "source_ref"
  insertSource {
    id := ← text H id
    memoryId := ← text H (payload.get "id")
    sourceType := ← text H sourceType
    sourceRef := ← text H sourceRef
    sourceDigest := ← text H (source.get "source_digest")
    observedAt := ← text H (source.get "observed_at")
    retrievedAt := ← text H (source.get "retrieved_at")
    provenance := ← text H (source.getD "provenance" (.str "unknown")) }

/-- The branch of `memory.written`: payloads that are not record-shaped are skipped. -/
def applyWritten (payload : Json) : Act Exc Db Bool := do
  if anyNone payload requiredPayloadFields then return false
  insertRecord {
    id := ← text H (payload.get "id")
    kind := ← text H (payload.get "kind")
    title := ← text H (payload.get "title")
    claim := ← text H (payload.get "claim")
    summary := ← text H (payload.get "summary")
    status := ← text H (payload.get "status")
    confidence := ← text H (payload.get "confidence")
    evidenceGrade := ← text H (payload.get "evidence_grade")
    privacyClass := ← text H (payload.get "privacy_class")
    authority := ← real H (payload.get "authority")
    scope := ← text H (payload.get "scope")
    validFrom := ← text H (payload.get "valid_from")
    validUntil := ← text H (payload.get "valid_until")
    createdAt := ← text H (payload.get "created_at")
    updatedAt := ← text H (payload.get "updated_at")
    owner := ← text H (payload.get "owner")
    schemaVersion := ← integer H (payload.get "schema_version")
    archived := ← integer H (payload.get "archived")
    tagsJson := ← text H (payload.get "tags_json") }
  let sources ← Act.ofExcept ((payload.get "sources").orElse (.arr [])).items
  sources.forM (applySource H payload)
  return true

/-- The branch of `memory.superseded` and `memory.archived`. -/
def applyRetired (env payload : Json) (status : String) (archived : ℤ) : Act Exc Db Bool := do
  let updatedAt ← text H ((payload.get "updated_at").orElse (env.get "timestamp"))
  let id ← text H ((payload.get "id").orElse (env.get "target"))
  let _ ← updateRecord [("updated_at", updatedAt)] id fun r =>
    { r with status := .text status, archived := .int archived, updatedAt := updatedAt }
  return true

/-- `records.apply_event`. -/
def applyMemory (env : Json) : Act Exc Db Bool := do
  let payload ← Act.ofExcept (payloadOf env)
  if env.get "event_type" = .str "memory.written" then applyWritten H payload
  else if env.get "event_type" = .str "memory.superseded" then
    applyRetired H env payload "superseded" 0
  else if env.get "event_type" = .str "memory.archived" then
    applyRetired H env payload "archived" 1
  else return false

/-! ### Capabilities -/

/-- `_CAPABILITY_LIFECYCLE_EVENTS`. -/
def capabilityLifecycleEvents : List (String × String) :=
  [("capability.quarantined", "quarantined"), ("capability.inspected", "inspected"),
    ("capability.approved", "approved"), ("capability.benchmarked", "benchmarked"),
    ("capability.activated", "active"), ("capability.revoked", "revoked"),
    ("capability.stale", "stale"), ("capability.compromised", "compromised")]

/-- `_target_id`. -/
def targetId (env payload : Json) (pre : String) : Option String :=
  let fromPayload : Option String :=
    match (payload.get "id").orElse (payload.get "capability_id") with
    | .str s => if s = "" then none else some s
    | _ => none
  match env.get "target" with
  | .str target => if startsWith target pre then some (removePrefix target pre) else fromPayload
  | _ => fromPayload

/-- `payload.get("event_time") or env.get("timestamp")`. -/
def eventTime (env payload : Json) : Json := (payload.get "event_time").orElse (env.get "timestamp")

/-- The branch of `capability.digest_drift`. -/
def applyDrift (env payload : Json) : Act Exc Db Bool := do
  match targetId env payload "capability:" with
  | none => return false
  | some capabilityId =>
    if anyNone payload ["new_digest", "new_state"] then return false
    let newDigest ← text H (payload.get "new_digest")
    let newState ← text H (payload.get "new_state")
    let when ← text H (eventTime env payload)
    let id ← text H (.str capabilityId)
    updateCapability [("lifecycle", newState)] id fun r =>
      { r with
        currentDigest := newDigest
        lifecycle := newState
        updatedAt := when.coalesce r.updatedAt }

/-- The branch of the lifecycle events, by the state the event stands for. -/
def applyLifecycle (env payload : Json) (lifecycle : String) : Act Exc Db Bool := do
  match targetId env payload "capability:" with
  | none => return false
  | some capabilityId =>
    let target ← text H (payload.getD "to" (.str lifecycle))
    let when ← text H (eventTime env payload)
    let id ← text H (.str capabilityId)
    updateCapability [("lifecycle", target)] id fun r =>
      { r with lifecycle := target, updatedAt := when.coalesce r.updatedAt }

/-- `f"{x}"` for the values that a key column can hold. -/
def pyStr : Json → String
  | .str s => s
  | .int n => String.ofList (Json.dumpsInt n)
  | .float x =>
    if x.isNaN then "nan"
    else if x.repr = "Infinity" then "inf"
    else if x.repr = "-Infinity" then "-inf"
    else x.repr
  | .bool true => "True"
  | .bool false => "False"
  | _ => "None"

/-- The row of `capability_permissions`. -/
def applyPermissions (payload permissions : Json) : Act Exc Db Unit := do
  let permissions ← Act.ofExcept permissions.dict
  insertPermission {
    id := ← text H ((permissions.get "id").orElse (.str (pyStr (payload.get "id") ++ "_perm")))
    capabilityId := ← text H (payload.get "id")
    filesystemRead := .json (permissions.getD "filesystem_read" (.arr []))
    filesystemWrite := .json (permissions.getD "filesystem_write" (.arr []))
    network := .json (permissions.getD "network" (.str "none"))
    secrets := .json (permissions.getD "secrets" (.arr []))
    subprocess := (permissions.get "subprocess").truthy
    externalWrite := (permissions.get "external_write").truthy
    destructive := (permissions.get "destructive").truthy
    approvedAt := ← text H (permissions.get "approved_at")
    approvedBy := ← text H (permissions.get "approved_by") }

/-- The text of a manifest: a text as it is, anything else as JSON. -/
def manifestText (manifest : Json) : Act Exc Db SqlVal :=
  match manifest with
  | .str s => text H (.str s)
  | j => pure (.json j)

/-- The fields without which `capability.discovered` is skipped. -/
def discoveredFields : List String :=
  ["id", "name", "type", "digest", "version_id", "version", "manifest", "source_kind",
    "source_location"]

/-- The branch of `capability.discovered`. -/
def applyDiscovered (env payload : Json) : Act Exc Db Bool := do
  if anyNone payload discoveredFields then return false
  let when := eventTime env payload
  let lifecycle := payload.getD "lifecycle" (.str "quarantined")
  insertCapability {
    id := ← text H (payload.get "id")
    name := ← text H (payload.get "name")
    type := ← text H (payload.get "type")
    lifecycle := ← text H lifecycle
    currentDigest := ← text H (payload.get "digest")
    createdAt := ← text H when
    updatedAt := ← text H when }
  insertVersion {
    id := ← text H (payload.get "version_id")
    capabilityId := ← text H (payload.get "id")
    version := ← text H (payload.get "version")
    digest := ← text H (payload.get "digest")
    manifest := ← manifestText H (payload.get "manifest")
    sourceKind := ← text H (payload.get "source_kind")
    sourceLocation := ← text H (payload.get "source_location")
    license := ← text H (payload.get "license")
    adapter := ← text H (payload.get "adapter")
    compatibility :=
      if (payload.get "compatibility").truthy then .json (payload.get "compatibility") else .null
    lifecycle := ← text H lifecycle
    createdAt := ← text H when }
  if (payload.get "permissions").truthy then applyPermissions H payload (payload.get "permissions")
  return true

/-- `_apply_capability`. -/
def applyCapability (env : Json) : Act Exc Db Bool := do
  let payload ← Act.ofExcept (payloadOf env)
  match env.get "event_type" with
  | .str eventType =>
    if eventType = "capability.digest_drift" then applyDrift H env payload
    else
      match capabilityLifecycleEvents.lookup eventType with
      | some lifecycle => applyLifecycle H env payload lifecycle
      | none =>
        if eventType = "capability.discovered" then applyDiscovered H env payload
        else return false
  | _ => return false

/-! ### Approvals -/

/-- The fields without which `approval.requested` is skipped. -/
def requestedFields : List String :=
  ["id", "approval_type", "requested_action", "scope", "scope_digest", "reason", "risk", "status",
    "requested_at"]

/-- The branch of `approval.requested`. -/
def applyRequested (payload : Json) : Act Exc Db Bool := do
  if anyNone payload requestedFields then return false
  insertApproval {
    id := ← text H (payload.get "id")
    graphId := ← text H (payload.get "graph_id")
    nodeId := ← text H (payload.get "node_id")
    approvalType := ← text H (payload.get "approval_type")
    actionKind := ← text H (payload.get "action_kind")
    requestedAction := ← text H (payload.get "requested_action")
    scopeJson := .json (payload.get "scope")
    scopeDigest := ← text H (payload.get "scope_digest")
    reason := ← text H (payload.get "reason")
    optionsJson := .json (payload.getD "options" (.arr []))
    evidenceRefsJson := .json (payload.getD "evidence_refs" (.arr []))
    risk := ← text H (payload.get "risk")
    status := ← text H (payload.get "status")
    requestedAt := ← text H (payload.get "requested_at") }
  return true

/-- The branch of `approval.decided`. -/
def applyDecided (payload : Json) : Act Exc Db Bool := do
  if anyNone payload ["id", "decision", "actor", "reason", "decided_at"] then return false
  let status ← text H (payload.get "decision")
  let decidedAt ← text H (payload.get "decided_at")
  let decidedBy ← text H (payload.get "actor")
  let decisionReason ← text H (payload.get "reason")
  let id ← text H (payload.get "id")
  let _ ← updateApproval [] id fun r => { r with status, decidedAt, decidedBy, decisionReason }
  return true

/-- The branch of `approval.staled`. -/
def applyStaled (payload : Json) : Act Exc Db Bool := do
  if (payload.get "id").isNull then return false
  let id ← text H (payload.get "id")
  let _ ← updateApproval [] id fun r => { r with status := .text "stale" }
  return true

/-- `_apply_approval`. -/
def applyApproval (env : Json) : Act Exc Db Bool := do
  let payload ← Act.ofExcept (payloadOf env)
  if env.get "event_type" = .str "approval.requested" then applyRequested H payload
  else if env.get "event_type" = .str "approval.decided" then applyDecided H payload
  else if env.get "event_type" = .str "approval.staled" then applyStaled H payload
  else return false

/-! ### Work graphs -/

/-- One row of `work_nodes`. -/
def applyNode (graphId node : Json) : Act Exc Db Unit := do
  let id ← item node "id"
  let kind ← item node "kind"
  let objective ← item node "objective"
  insertNode {
    id := ← text H id
    graphId := ← text H graphId
    kind := ← text H kind
    objective := ← text H objective
    requiresJson := .json (node.getD "requires" (.arr []))
    risk := ← text H (node.getD "risk" (.str ""))
    approvalRequired := (node.get "approval_required").truthy
    independentReview := (node.get "independent_review").truthy
    evidenceRequired := (node.get "evidence_required").truthy
    expectedOutputsJson := .json (node.getD "expected_outputs" (.arr []))
    retryJson := .json (node.getD "retry" (.mkObj []))
    placementJson := .json
      (node.getD "placement" (.mkObj [("mode", .str "local"), ("node_id", .null)]))
    metadataJson := .json (node.getD "metadata" (.mkObj []))
    status := ← text H (node.getD "status" (.str "pending")) }

/-- One row of `work_edges`. -/
def applyEdge (graphId edge : Json) : Act Exc Db Unit := do
  let srcId ← item edge "src_id"
  let dstId ← item edge "dst_id"
  insertEdge { graphId := ← text H graphId, srcId := ← text H srcId, dstId := ← text H dstId }

/-- `_apply_run_created`. -/
def applyRunCreated (env payload : Json) : Act Exc Db Bool := do
  if anyNone payload ["id", "objective", "status", "version", "nodes", "edges"] then return false
  let when := eventTime env payload
  let graphId := payload.get "id"
  insertGraph {
    id := ← text H graphId
    objective := ← text H (payload.get "objective")
    constraintsJson := .json (payload.getD "constraints" (.arr []))
    successCriteriaJson := .json (payload.getD "success_criteria" (.arr []))
    status := ← text H (payload.get "status")
    version := ← integer H (payload.get "version")
    createdAt := ← text H when
    updatedAt := ← text H when }
  let nodes ← Act.ofExcept (payload.get "nodes").items
  nodes.forM (applyNode H graphId)
  let edges ← Act.ofExcept (payload.get "edges").items
  edges.forM (applyEdge H graphId)
  return true

/-- `_apply_run_status`. -/
def applyRunStatus (env payload : Json) : Act Exc Db Bool := do
  if anyNone payload ["id", "status"] then return false
  let status ← text H (payload.get "status")
  let when ← text H (eventTime env payload)
  let id ← text H (payload.get "id")
  let _ ← updateGraph [] id fun r => { r with status, updatedAt := when.coalesce r.updatedAt }
  return true

/-- `_apply_step`: a step event moves the status, records an output, or both. -/
def applyStep (payload : Json) : Act Exc Db Bool := do
  if (payload.get "node_id").isNull then return false
  let target := payload.get "to"
  let output := payload.get "output"
  let status ← text H target
  let id ← text H (payload.get "node_id")
  let _ ← updateNode [] id fun r =>
    { r with
      status := if target.isNull then r.status else status
      outputJson := if output.isNull then r.outputJson else .json output
      stateVersion := r.stateVersion + 1 }
  return true

/-- `int(x)`. -/
def pyInt : Json → Except Exc ℤ
  | .int n => .ok n
  | .bool b => .ok (if b then 1 else 0)
  | .float x =>
    if x.isNaN then .error (.valueError "cannot convert float NaN to integer")
    else if x.isFinite then .ok (x.value.num.tdiv x.value.den)
    else .error .infiniteFloat
  | .str s =>
    match SqlVal.decimal? s with
    | some n => .ok n
    | none => .error (.valueError "invalid literal for int() with base 10")
  | _ => .error .typeError

/-- The text of a usage record: a text as it is, anything else as JSON. -/
def usageText (usage : Json) : Act Exc Db SqlVal :=
  match usage with
  | .str s => text H (.str s)
  | j => pure (.json (j.orElse (.mkObj [])))

/-- `_apply_attempt`. -/
def applyAttempt (env payload : Json) : Act Exc Db Bool := do
  if anyNone payload ["id", "graph_id", "node_id", "attempt", "state"] then return false
  let when := eventTime env payload
  let attempt ← Act.ofExcept (pyInt (payload.get "attempt"))
  upsertAttempt {
    id := ← text H (payload.get "id")
    graphId := ← text H (payload.get "graph_id")
    nodeId := ← text H (payload.get "node_id")
    attempt := ← integer H (.int attempt)
    capabilityId := ← text H (payload.get "capability_id")
    state := ← text H (payload.get "state")
    inputDigest := ← text H (payload.get "input_digest")
    outputDigest := ← text H (payload.get "output_digest")
    error := ← text H (payload.get "error")
    usageJson := ← usageText H (payload.get "usage")
    startedAt := ← text H when
    endedAt := ← text H (if payload.get "state" = .str "running" then .null else when) }
  return true

/-- `_RUN_STATUS_EVENTS`. -/
def runStatusEvents : List String :=
  ["run.started", "run.paused", "run.resumed", "run.completed", "run.failed", "run.cancelled"]

/-- `_STEP_EVENTS`. -/
def stepEvents : List String := ["step.started", "step.completed", "step.failed"]

/-- `_ATTEMPT_EVENTS`. -/
def attemptEvents : List String := ["attempt.started", "attempt.completed", "attempt.failed"]

/-- `_apply_work`. -/
def applyWork (env : Json) : Act Exc Db Bool := do
  let payload ← Act.ofExcept (payloadOf env)
  match env.get "event_type" with
  | .str eventType =>
    if eventType = "run.created" then applyRunCreated H env payload
    else if eventType ∈ runStatusEvents then applyRunStatus H env payload
    else if eventType ∈ stepEvents then applyStep H payload
    else if eventType ∈ attemptEvents then applyAttempt H env payload
    else return false
  | _ => return false

/-! ### The dispatcher -/

/-- The projection domains. -/
inductive Domain where
  | memory | capabilities | approvals | workProjection
  deriving DecidableEq, Repr

/-- The projection domain that the prefix of an event type names. -/
def domainOfType (eventType : String) : Option Domain :=
  if startsWith eventType "memory." then some .memory
  else if startsWith eventType "capability." then some .capabilities
  else if startsWith eventType "approval." then some .approvals
  else if ["run.", "step.", "attempt.", "node.", "transfer."].any (startsWith eventType) then
    some .workProjection
  else none

/-- `domain_for_event`. -/
def domainForEvent (env : Json) : Except Exc (Option Domain) :=
  match (env.get "event_type").orElse (.str "") with
  | .str eventType => .ok (domainOfType eventType)
  | _ => .error .attributeError

/-- The domain, if its reducer applied the event. -/
def touched (domain : Domain) (x : Act Exc Db Bool) : Act Exc Db (Option Domain) :=
  (fun applied => if applied then some domain else none) <$> x

/-- The reducer of a domain. -/
def reduce : Option Domain → Json → Act Exc Db (Option Domain)
  | some .memory, env => touched .memory (applyMemory H env)
  | some .capabilities, env => touched .capabilities (applyCapability H env)
  | some .approvals, env => touched .approvals (applyApproval H env)
  | some .workProjection, env => touched .workProjection (applyWork H env)
  | none, _ => pure none

/-- `projections.apply_event`: the domain that was touched, if one was. -/
def applyEvent (env : Json) : Act Exc Db (Option Domain) := do
  let domain ← Act.ofExcept (domainForEvent env)
  reduce H domain env

end

/-! ### Frames -/

/-- The tables without those of the memory records. -/
def Db.exceptMemory (db : Db) : Db := { db with memoryRecords := [], memorySources := [] }

/-- The tables without those of the capabilities. -/
def Db.exceptCapabilities (db : Db) : Db :=
  { db with capabilities := [], capabilityVersions := [], capabilityPermissions := [] }

/-- The tables without the approval requests. -/
def Db.exceptApprovals (db : Db) : Db := { db with approvalRequests := [] }

/-- The tables without those of the work graphs. -/
def Db.exceptWork (db : Db) : Db :=
  { db with workGraphs := [], workNodes := [], workEdges := [], workAttempts := [] }

/-- The tables without the mirror of the log. -/
def Db.exceptMirror (db : Db) : Db := { db with memoryEvents := [] }

variable {H : Host} {τ : Type} {f : Db → τ}

open Act (Keeps Leaves)

theorem leaves_exec {check : Db → Except Exc Unit} {write : Db → Db}
    (h : ∀ db, f (write db) = f db) : Leaves f (exec check write) := by
  rintro c db rfl
  rw [wp_exec]
  cases check db with
  | ok _ => exact h db
  | error _ => rfl

theorem leaves_updateWhere {ρ : Type} {table : String} {columns : List (String × SqlVal)}
    {get : Db → List ρ} {set : List ρ → Db → Db} {id : ρ → SqlVal} {v : SqlVal} {g : ρ → ρ}
    (h : ∀ t db, f (set t db) = f db) : Leaves f (updateWhere table columns get set id v g) := by
  intro c
  exact Keeps.bind Keeps.get fun _ =>
    Keeps.bind (leaves_exec (fun db => h _ db) c) fun _ => Keeps.pure _

theorem leaves_mirrorRow (env : Json) : Leaves Db.exceptMirror (mirrorRow H env) := by
  intro c
  unfold mirrorRow insertEvent
  repeat' first
    | exact Keeps.ofExcept _
    | exact leaves_exec (by intro db; rfl) c
    | refine Keeps.bind ?_ fun _ => ?_

theorem leaves_applySource (payload source : Json) :
    Leaves Db.exceptMemory (applySource H payload source) := by
  intro c
  unfold applySource insertSource
  repeat' first
    | exact Keeps.ofExcept _
    | exact leaves_exec (by intro db; rfl) c
    | refine Keeps.bind ?_ fun _ => ?_

theorem leaves_applyMemory (env : Json) : Leaves Db.exceptMemory (applyMemory H env) := by
  intro c
  unfold applyMemory applyWritten applyRetired insertRecord updateRecord
  repeat' first
    | exact Keeps.ofExcept _
    | exact Keeps.pure _
    | exact leaves_exec (by intro db; rfl) c
    | exact leaves_updateWhere (by intro t db; rfl) c
    | exact Keeps.forM fun _ _ => leaves_applySource _ _ c
    | refine Keeps.ite (fun _ => ?_) fun _ => ?_
    | refine Keeps.bind ?_ fun _ => ?_

theorem leaves_manifestText (manifest : Json) : Leaves f (manifestText H manifest) := by
  intro c
  cases manifest with
  | str s => exact Keeps.ofExcept _
  | _ => exact Keeps.pure _

theorem leaves_applyCapability (env : Json) :
    Leaves Db.exceptCapabilities (applyCapability H env) := by
  intro c
  unfold applyCapability applyDrift applyLifecycle applyDiscovered applyPermissions updateCapability
    insertCapability insertVersion insertPermission
  repeat' first
    | exact Keeps.ofExcept _
    | exact Keeps.pure _
    | exact leaves_exec (by intro db; rfl) c
    | exact leaves_updateWhere (by intro t db; rfl) c
    | exact leaves_manifestText _ c
    | refine Keeps.ite (fun _ => ?_) fun _ => ?_
    | refine Keeps.bind ?_ fun _ => ?_
    | split

theorem leaves_applyApproval (env : Json) : Leaves Db.exceptApprovals (applyApproval H env) := by
  intro c
  unfold applyApproval applyRequested applyDecided applyStaled insertApproval updateApproval
  repeat' first
    | exact Keeps.ofExcept _
    | exact Keeps.pure _
    | exact leaves_exec (by intro db; rfl) c
    | exact leaves_updateWhere (by intro t db; rfl) c
    | refine Keeps.ite (fun _ => ?_) fun _ => ?_
    | refine Keeps.bind ?_ fun _ => ?_

theorem leaves_applyRunStatus (env payload : Json) :
    Leaves (fun db : Db => { db with workGraphs := [] }) (applyRunStatus H env payload) := by
  intro c
  unfold applyRunStatus updateGraph
  repeat' first
    | exact Keeps.ofExcept _
    | exact Keeps.pure _
    | exact leaves_updateWhere (by intro t db; rfl) c
    | refine Keeps.ite (fun _ => ?_) fun _ => ?_
    | refine Keeps.bind ?_ fun _ => ?_

theorem leaves_applyStep (payload : Json) :
    Leaves (fun db : Db => { db with workNodes := [] }) (applyStep H payload) := by
  intro c
  unfold applyStep updateNode
  repeat' first
    | exact Keeps.ofExcept _
    | exact Keeps.pure _
    | exact leaves_updateWhere (by intro t db; rfl) c
    | refine Keeps.ite (fun _ => ?_) fun _ => ?_
    | refine Keeps.bind ?_ fun _ => ?_

theorem leaves_applyAttempt (env payload : Json) :
    Leaves (fun db : Db => { db with workAttempts := [] }) (applyAttempt H env payload) := by
  intro c
  have hupsert : ∀ r : AttemptRow,
      Leaves (fun db : Db => { db with workAttempts := [] }) (upsertAttempt r) := by
    intro r
    refine leaves_exec fun db => ?_
    by_cases h : db.workAttempts.any r.conflicts <;> simp [h]
  have husage : ∀ j, Leaves (fun db : Db => { db with workAttempts := [] }) (usageText H j) := by
    intro j c
    cases j with
    | str s => exact Keeps.ofExcept _
    | _ => exact Keeps.pure _
  unfold applyAttempt
  repeat' first
    | exact Keeps.ofExcept _
    | exact Keeps.pure _
    | exact hupsert _ c
    | exact husage _ c
    | refine Keeps.ite (fun _ => ?_) fun _ => ?_
    | refine Keeps.bind ?_ fun _ => ?_

theorem leaves_applyRunCreated (env payload : Json) :
    Leaves (fun db : Db => { db with workGraphs := [], workNodes := [], workEdges := [] })
      (applyRunCreated H env payload) := by
  intro c
  unfold applyRunCreated applyNode applyEdge insertGraph insertNode insertEdge
  repeat' first
    | exact Keeps.ofExcept _
    | exact Keeps.pure _
    | exact leaves_exec (by intro db; rfl) c
    | refine Keeps.forM fun _ _ => ?_
    | refine Keeps.ite (fun _ => ?_) fun _ => ?_
    | refine Keeps.bind ?_ fun _ => ?_

theorem leaves_applyWork (env : Json) : Leaves Db.exceptWork (applyWork H env) := by
  intro c
  unfold applyWork
  repeat' first
    | exact Keeps.ofExcept _
    | exact Keeps.pure _
    | exact ((leaves_applyRunCreated env _).comp Db.exceptWork) c
    | exact ((leaves_applyRunStatus env _).comp Db.exceptWork) c
    | exact ((leaves_applyStep _).comp Db.exceptWork) c
    | exact ((leaves_applyAttempt env _).comp Db.exceptWork) c
    | refine Keeps.ite (fun _ => ?_) fun _ => ?_
    | refine Keeps.bind ?_ fun _ => ?_
    | split

/-! ### Envelopes of a known type -/

theorem payloadOf_eq {env payload : Json} (h : env.get "payload" = payload)
    (hobj : payload.isObj = true) : payloadOf env = .ok payload := by
  unfold payloadOf Json.orElse Json.dict
  rw [h]
  by_cases ht : payload.truthy = true
  · rw [if_pos ht, if_pos hobj]
  · -- the empty dict is its own default
    cases payload with
    | obj d =>
      cases d with
      | nil => rfl
      | cons f d => exact absurd rfl ht
    | _ => cases hobj

theorem applyEvent_eq {env : Json} {t : String} (ht : env.get "event_type" = .str t)
    (hne : t ≠ "") : applyEvent H env = reduce H (domainOfType t) env := by
  have hd : domainForEvent env = .ok (domainOfType t) := by
    simp [domainForEvent, ht, Json.orElse, Json.truthy, hne]
  rw [applyEvent, hd]
  rfl

section

variable {env p : Json} (hp : payloadOf env = .ok p)

include hp

theorem applyEvent_written (ht : env.get "event_type" = .str "memory.written") :
    applyEvent H env = touched .memory (applyWritten H p) := by
  have hd : domainOfType "memory.written" = some .memory := by decide
  rw [applyEvent_eq ht (by decide), hd]
  simp [reduce, applyMemory, hp, ht]

theorem applyEvent_superseded (ht : env.get "event_type" = .str "memory.superseded") :
    applyEvent H env = touched .memory (applyRetired H env p "superseded" 0) := by
  have hd : domainOfType "memory.superseded" = some .memory := by decide
  rw [applyEvent_eq ht (by decide), hd]
  simp [reduce, applyMemory, hp, ht]

theorem applyEvent_archived (ht : env.get "event_type" = .str "memory.archived") :
    applyEvent H env = touched .memory (applyRetired H env p "archived" 1) := by
  have hd : domainOfType "memory.archived" = some .memory := by decide
  rw [applyEvent_eq ht (by decide), hd]
  simp [reduce, applyMemory, hp, ht]

/-- The event of a rejected proposal touches no table. -/
theorem applyEvent_rejected (ht : env.get "event_type" = .str "memory.rejected") :
    applyEvent H env = touched .memory (pure false) := by
  have hd : domainOfType "memory.rejected" = some .memory := by decide
  rw [applyEvent_eq ht (by decide), hd]
  simp [reduce, applyMemory, hp, ht]

theorem applyEvent_drift (ht : env.get "event_type" = .str "capability.digest_drift") :
    applyEvent H env = touched .capabilities (applyDrift H env p) := by
  have hd : domainOfType "capability.digest_drift" = some .capabilities := by decide
  rw [applyEvent_eq ht (by decide), hd]
  simp [reduce, applyCapability, hp, ht]

theorem applyEvent_discovered (ht : env.get "event_type" = .str "capability.discovered") :
    applyEvent H env = touched .capabilities (applyDiscovered H env p) := by
  have hd : domainOfType "capability.discovered" = some .capabilities := by decide
  rw [applyEvent_eq ht (by decide), hd]
  simp [reduce, applyCapability, hp, ht, capabilityLifecycleEvents, List.lookup]

theorem applyEvent_lifecycle {t s : String} (hl : capabilityLifecycleEvents.lookup t = some s)
    (ht : env.get "event_type" = .str t) :
    applyEvent H env = touched .capabilities (applyLifecycle H env p s) := by
  have hall : ∀ e ∈ capabilityLifecycleEvents, domainOfType e.1 = some .capabilities ∧ e.1 ≠ "" ∧
      e.1 ≠ "capability.digest_drift" := by decide
  obtain ⟨l₁, l₂, hmem, -⟩ := List.lookup_eq_some_iff.1 hl
  obtain ⟨hd, hne, hdrift⟩ := hall (t, s) (by rw [hmem]; simp)
  rw [applyEvent_eq ht hne, hd]
  simp [reduce, applyCapability, hp, ht, hl, hdrift]

theorem applyEvent_requested (ht : env.get "event_type" = .str "approval.requested") :
    applyEvent H env = touched .approvals (applyRequested H p) := by
  have hd : domainOfType "approval.requested" = some .approvals := by decide
  rw [applyEvent_eq ht (by decide), hd]
  simp [reduce, applyApproval, hp, ht]

theorem applyEvent_decided (ht : env.get "event_type" = .str "approval.decided") :
    applyEvent H env = touched .approvals (applyDecided H p) := by
  have hd : domainOfType "approval.decided" = some .approvals := by decide
  rw [applyEvent_eq ht (by decide), hd]
  simp [reduce, applyApproval, hp, ht]

theorem applyEvent_staled (ht : env.get "event_type" = .str "approval.staled") :
    applyEvent H env = touched .approvals (applyStaled H p) := by
  have hd : domainOfType "approval.staled" = some .approvals := by decide
  rw [applyEvent_eq ht (by decide), hd]
  simp [reduce, applyApproval, hp, ht]

theorem applyEvent_runCreated (ht : env.get "event_type" = .str "run.created") :
    applyEvent H env = touched .workProjection (applyRunCreated H env p) := by
  have hd : domainOfType "run.created" = some .workProjection := by decide
  rw [applyEvent_eq ht (by decide), hd]
  simp [reduce, applyWork, hp, ht]

theorem applyEvent_runStatus {t : String} (hmem : t ∈ runStatusEvents)
    (ht : env.get "event_type" = .str t) :
    applyEvent H env = touched .workProjection (applyRunStatus H env p) := by
  have hall : ∀ t ∈ runStatusEvents, domainOfType t = some .workProjection ∧ t ≠ "" ∧
      t ≠ "run.created" := by decide
  obtain ⟨hd, hne, hcreated⟩ := hall t hmem
  rw [applyEvent_eq ht hne, hd]
  simp [reduce, applyWork, hp, ht, hmem, hcreated]

theorem applyEvent_step {t : String} (hmem : t ∈ stepEvents)
    (ht : env.get "event_type" = .str t) :
    applyEvent H env = touched .workProjection (applyStep H p) := by
  have hall : ∀ t ∈ stepEvents, domainOfType t = some .workProjection ∧ t ≠ "" ∧
      t ≠ "run.created" ∧ t ∉ runStatusEvents := by decide
  obtain ⟨hd, hne, hcreated, hrun⟩ := hall t hmem
  rw [applyEvent_eq ht hne, hd]
  simp [reduce, applyWork, hp, ht, hmem, hcreated, hrun]

theorem applyEvent_attempt {t : String} (hmem : t ∈ attemptEvents)
    (ht : env.get "event_type" = .str t) :
    applyEvent H env = touched .workProjection (applyAttempt H env p) := by
  have hall : ∀ t ∈ attemptEvents, domainOfType t = some .workProjection ∧ t ≠ "" ∧
      t ≠ "run.created" ∧ t ∉ runStatusEvents ∧ t ∉ stepEvents := by decide
  obtain ⟨hd, hne, hcreated, hrun, hstep⟩ := hall t hmem
  rw [applyEvent_eq ht hne, hd]
  simp [reduce, applyWork, hp, ht, hmem, hcreated, hrun, hstep]

end

end Shiroe
