import Shiroe.Capabilities.Store

/-!
# The gate before an execution

`capabilities/gate.py`: a capability may be executed when its lifecycle allows it, its source has
the digest that the registry keeps, and its adapter is sound.  A source with another digest puts
the capability back into quarantine first.
-/

namespace Shiroe

open Act

variable (H : Host)

/-- The version of a capability that was recorded last. -/
def Db.latestVersion? (db : Db) (id : SqlVal) : Option VersionRow :=
  (db.capabilityVersions.filter fun v => id ≠ .null && v.capabilityId = id).argmax
    fun v => v.createdAt.text?.getD ""

/-- The version of a capability that was recorded last. -/
def latestVersion (capabilityId : String) : Op (Option VersionRow) := readDb fun db => do
  let id ← bindText H (.str capabilityId)
  return db.latestVersion? id

/-- `_resolve_source`. -/
def resolveSource (i : ℕ) (capabilityId : String) (expectedDigest : SqlVal) :
    Op CapabilityRow := do
  match ← latestVersion H capabilityId with
  | none => throw (.capabilityGate (.noVersion capabilityId))
  | some version =>
    let location ← Act.ofExcept version.sourceLocation.asStr
    let w ← get
    match w.outside.source (relativize H location) with
    | none => throw (.capabilityGate (.sourceGone capabilityId location))
    | some source =>
      let trust ← Act.ofExcept (inspectSource H source)
      if SqlVal.text trust.digest ≠ expectedDigest then
        let _ ← refreshDigest H i capabilityId trust.digest
      match ← getCapability H (.str capabilityId) with
      | none => throw .typeError
      | some row => return row

/-- The adapter that a manifest names. -/
def manifestAdapter (capabilityId : String) (manifest : Json) : Except Exc String := do
  let entrypoint ← (manifest.getD "entrypoint" (.mkObj [])).dict
  let name := entrypoint.get "adapter"
  if name.truthy = false then .error (.capabilityGate (.noAdapter capabilityId))
  else
    match name with
    | .str name => .ok name
    -- a list or a dict has no hash; no adapter is registered under anything else
    | .arr _ => .error .typeError
    | .obj _ => .error .typeError
    | _ => .error (.capabilityGate (.adapterNotFound (pyStr name)))

/-- The checks on the health of an adapter. -/
def checkHealth (name : String) : Option Health → Except Exc Unit
  | none => .error (.capabilityGate (.adapterNotFound name))
  | some health =>
    if health.healthy = false then
      .error (.capabilityGate (.unhealthy name health.failureReason))
    else if health.enforced = false then .error (.capabilityGate (.notEnforced name))
    else .ok ()

/-- `_assert_manifest_adapter_executable`. -/
def assertManifestAdapterExecutable (capabilityId : String) : Op Unit := do
  match ← latestVersion H capabilityId with
  | none => throw (.capabilityGate (.noManifest capabilityId))
  | some version =>
    let manifest ← Act.ofExcept version.manifest.loads
    let name ← Act.ofExcept (manifestAdapter capabilityId manifest)
    let w ← get
    Act.ofExcept (checkHealth name (w.outside.adapter name))

/-- `assert_executable`. -/
def assertExecutable (capabilityId : String) : Op Unit := do
  let i ← newLog
  match ← getCapability H (.str capabilityId) with
  | none => throw (.capabilityGate (.unknownCapability capabilityId))
  | some row =>
    if isExecutable row.lifecycle = false then
      throw (.capabilityGate (.notExecutable capabilityId (pyStr row.lifecycle.read)))
    let current ← resolveSource H i capabilityId row.currentDigest
    if isExecutable current.lifecycle = false then
      throw (.capabilityGate (.snappedBack capabilityId (pyStr current.lifecycle.read)))
    assertManifestAdapterExecutable H capabilityId

end Shiroe
