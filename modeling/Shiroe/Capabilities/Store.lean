import Shiroe.Storage.Acceptance
import Shiroe.Capabilities.Inspection
import Shiroe.Capabilities.Lifecycle
import Shiroe.Capabilities.Manifest

/-!
# The capability registry

`capabilities/store.py`: capabilities are registered, moved through their lifecycle and given a
new digest when their source has changed.  Two of these writes update the table before the event
is folded (`writeLifecycle`, `writeDigest`).
-/

namespace Shiroe

open Act

variable (H : Host)

/-- The capability under an id. -/
def Db.capability? (db : Db) (id : SqlVal) : Option CapabilityRow :=
  db.capabilities.find? fun r => id ≠ .null && r.id = id

/-- `CapabilityStore.get`; the id may come out of a stored scope and need not be a text. -/
def getCapability (id : Json) : Op (Option CapabilityRow) := readDb fun db => do
  let id ← bindText H id
  return db.capability? id

/-! ### Registration -/

/-- The arguments of `upsert_capability`. -/
structure UpsertArgs where
  capabilityId : String
  name : String
  type : String
  lifecycle : String
  digest : String
  manifest : Json
  sourceKind : String
  sourceLocation : String
  license : Option String := none
  permissions : Json := .null
  actor : String := "capability-manager"

/-- The event of an `upsert_capability`. -/
def UpsertArgs.event (a : UpsertArgs) (manifest adapter : Json) (versionId now : String) :
    EventEnvelope where
  eventType := "capability.discovered"
  actor := a.actor
  target := some ("capability:" ++ a.capabilityId)
  payload := .mkObj [("id", .str a.capabilityId), ("name", .str a.name), ("type", .str a.type),
    ("lifecycle", .str a.lifecycle), ("digest", .str a.digest), ("version_id", .str versionId),
    ("version", manifest.getD "version" (.str "0.0.0-draft")), ("manifest", manifest),
    ("source_kind", .str a.sourceKind), ("source_location", .str (relativize H a.sourceLocation)),
    ("license", .ofOption a.license), ("adapter", adapter),
    ("compatibility", (manifest.get "compatibility").orElse .null),
    ("permissions", a.permissions), ("event_time", .str now)]

/-- `CapabilityStore.upsert_capability`. -/
def upsertCapability (i : ℕ) (a : UpsertArgs) : Op Unit := do
  let manifest ← Act.ofExcept (relativizeManifest H a.manifest)
  let when ← now H
  let versionId ← uuidHex H
  let entrypoint ← Act.ofExcept (manifest.getD "entrypoint" (.mkObj [])).dict
  let _ ← emit H i
    (a.event H manifest (entrypoint.get "adapter") ("cv_" ++ slice versionId 0 16) when)

/-! ### Lifecycle and digest -/

/-- The event of a lifecycle transition. -/
def lifecycleEvent (capabilityId : Json) (current : SqlVal) (target : Lifecycle) (actor : String) :
    EventEnvelope where
  eventType := target.eventType
  actor := actor
  target := some ("capability:" ++ pyStr capabilityId)
  payload := .mkObj [("from", current.read), ("to", .str target.value)]

/-- The `UPDATE` of `set_lifecycle`. -/
def writeLifecycle (capabilityId : Json) (target : Lifecycle) (when : String) :
    Act Exc Db Unit := do
  let lifecycle ← text H (.str target.value)
  let updatedAt ← text H (.str when)
  let id ← text H capabilityId
  let _ ← updateCapability [("lifecycle", lifecycle), ("updated_at", updatedAt)] id fun r =>
    { r with lifecycle, updatedAt }

/-- `CapabilityStore.set_lifecycle`. -/
def setLifecycle (i : ℕ) (capabilityId : Json) (target actor : String) : Op Unit := do
  match ← getCapability H capabilityId with
  | none => throw (.keyError (pyStr capabilityId))
  | some row =>
    match (Lifecycle.ofText? target).filter (canTransition row.lifecycle) with
    | none => throw (.invalidTransition (pyStr capabilityId) (pyStr row.lifecycle.read) target)
    | some target =>
      let _ ← emitWith H i (lifecycleEvent capabilityId row.lifecycle target actor)
        (writeLifecycle H capabilityId target)

/-- The event of a source that has changed. -/
def driftEvent (capabilityId : String) (row : CapabilityRow) (newDigest : String) :
    EventEnvelope where
  eventType := "capability.digest_drift"
  actor := "capability-manager"
  target := some ("capability:" ++ capabilityId)
  payload := .mkObj [("previous_digest", row.currentDigest.read), ("new_digest", .str newDigest),
    ("previous_state", row.lifecycle.read),
    ("new_state", .str (nextStateForDigestChange row.lifecycle).value)]

/-- The `UPDATE` of `refresh_digest`. -/
def writeDigest (capabilityId newDigest : String) (newState : Lifecycle) (when : String) :
    Act Exc Db Unit := do
  let currentDigest ← text H (.str newDigest)
  let lifecycle ← text H (.str newState.value)
  let updatedAt ← text H (.str when)
  let id ← text H (.str capabilityId)
  let _ ← updateCapability [("lifecycle", lifecycle), ("updated_at", updatedAt)] id fun r =>
    { r with currentDigest, lifecycle, updatedAt }

/-- `CapabilityStore.refresh_digest`. -/
def refreshDigest (i : ℕ) (capabilityId newDigest : String) : Op SqlVal := do
  match ← getCapability H (.str capabilityId) with
  | none => throw (.keyError capabilityId)
  | some row =>
    if row.currentDigest = .text newDigest then return row.lifecycle
    else do
      let newState := nextStateForDigestChange row.lifecycle
      let _ ← emitWith H i (driftEvent capabilityId row newDigest)
        (writeDigest H capabilityId newDigest newState)
      return .text newState.value

/-! ### The calls of the command line -/

/-- `DiscoveredCapability`, with the absolute path of the source. -/
structure DiscoveredCapability where
  adapter : String
  path : String
  kind : String

/-- `_kind_to_type`. -/
def kindToType (kind : String) : String :=
  if ["script", "cli", "repository_tool", "workflow", "evaluator", "api_service"].contains kind then
    kind
  else "script"

/-- `_capability_id_for`. -/
def capabilityIdFor (discovered : DiscoveredCapability) (adapter : String) : String :=
  adapter ++ ":" ++ pathName discovered.path

/-- The event that follows the registration of a new capability. -/
def quarantinedEvent (capabilityId : String) : EventEnvelope where
  eventType := "capability.quarantined"
  actor := "capability-manager"
  target := some ("capability:" ++ capabilityId)
  payload := .mkObj [("reason", .str "new discovery")]

/-- Register a capability that is not in the registry yet; of one that is, only record the
digest. -/
def registerOrRefresh (i : ℕ) (capabilityId : String) (manifest : Json) (location : String)
    (trust : TrustReport) : Op Unit := do
  match ← getCapability H (.str capabilityId) with
  | none =>
    upsertCapability H i {
      capabilityId, manifest
      name := pyStr (manifest.get "name")
      type := pyStr (manifest.get "type")
      lifecycle := Lifecycle.quarantined.value
      digest := trust.digest
      sourceKind := pyStr ((manifest.get "source").get "kind")
      sourceLocation := location
      license := trust.license }
    let _ ← emit H i (quarantinedEvent capabilityId)
  | some _ =>
    let _ ← refreshDigest H i capabilityId trust.digest

/-- `register_discovery`. -/
def registerDiscovery (discovered : DiscoveredCapability) (trust : TrustReport)
    (adapter : Option String) : Op String := do
  let i ← newLog
  let capabilityId := capabilityIdFor discovered ((given adapter).getD discovered.adapter)
  let w ← get
  let isFile := (w.outside.source (relativize H discovered.path)).any (·.isFile)
  let manifest ← Act.ofExcept (inferManifest discovered.path isFile capabilityId
    (pathName discovered.path) (kindToType discovered.kind))
  -- written out there: location and command hold the same path, and both are made relative
  let manifest ← Act.ofExcept (relativizeManifest H manifest)
  Act.ofExcept (validateManifest manifest)
  registerOrRefresh H i capabilityId manifest (relativize H discovered.path) trust
  return capabilityId

/-- The row of a capability that has to be there. -/
def requireCapability (capabilityId : String) : Op CapabilityRow := do
  match ← getCapability H (.str capabilityId) with
  | none => throw (.keyError capabilityId)
  | some row => return row

/-- `approve`. -/
def approve (capabilityId actor : String) : Op Unit := do
  let i ← newLog
  let row ← requireCapability H capabilityId
  if row.lifecycle = .text Lifecycle.quarantined.value then
    setLifecycle H i (.str capabilityId) Lifecycle.inspected.value actor
  let row ← requireCapability H capabilityId
  if row.lifecycle = .text Lifecycle.inspected.value then
    setLifecycle H i (.str capabilityId) Lifecycle.approved.value actor

/-- `revoke`. -/
def revoke (capabilityId actor : String) : Op Unit := do
  let i ← newLog
  let row ← requireCapability H capabilityId
  if canTransition row.lifecycle .revoked = false ∧ canTransition row.lifecycle .quarantined then
    setLifecycle H i (.str capabilityId) Lifecycle.quarantined.value actor
  let row ← requireCapability H capabilityId
  if canTransition row.lifecycle .revoked then
    setLifecycle H i (.str capabilityId) Lifecycle.revoked.value actor

end Shiroe
