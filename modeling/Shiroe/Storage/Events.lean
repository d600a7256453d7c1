import Shiroe.Lib.HashChain
import Shiroe.Outside
import Shiroe.Storage.Schema
import Mathlib.Data.List.Lex

/-!
# The event log

The append-only log of `storage/events.py`: envelopes, their validation and hash, the monthly
files with `head.json`, and `EventLog.append`, which several `EventLog` objects over one project
root call in turn.  A `World` is everything the program reads and writes.

An append may be cut short (`Cut`): the lock is not obtained, an operation of the file system
fails, or the process dies.  `EventLog` keeps one flag an object, `_recovered`; the objects are
numbered and `World.recovered` holds the flags.
-/

namespace Shiroe

/-! ### Envelopes -/

/-- `SCHEMA_ID`. -/
def schemaId : String := "shiroe.event/v2"

/-- The hash that the first event names: `"sha256:0"`. -/
def genesis : String := "sha256:0"

/-- `_REQUIRED_FIELDS`. -/
def requiredFields : List String :=
  ["schema", "event_id", "timestamp", "event_type", "actor", "payload", "privacy_class", "hash",
    "previous_hash"]

/-- `_ALLOWED_PRIVACY_CLASSES`. -/
def allowedPrivacyClasses : List String := ["public", "internal", "confidential", "restricted"]

/-- `_KNOWN_EVENT_TYPES`. -/
def knownEventTypes : List String :=
  ["memory.written", "memory.superseded", "memory.archived", "memory.rejected",
    "contradiction.detected", "contradiction.resolved",
    "capability.discovered", "capability.quarantined", "capability.inspected",
    "capability.approved", "capability.benchmarked", "capability.activated",
    "capability.deactivated", "capability.revoked", "capability.digest_drift",
    "capability.invoked", "capability.stale", "capability.compromised",
    "approval.requested", "approval.decided", "approval.staled",
    "adapter.probed", "adapter.unhealthy",
    "run.created", "run.compiled", "run.authorized", "run.started",
    "run.paused", "run.resumed", "run.completed", "run.failed", "run.cancelled",
    "step.started", "step.completed", "step.failed", "step.retried",
    "attempt.started", "attempt.completed", "attempt.failed",
    "evidence.reviewed", "evaluator.ran",
    "policy.applied", "policy.denied",
    "node.registered", "node.trust_changed", "node.probed",
    "node.lease_acquired", "node.lease_completed", "node.lease_failed",
    "transfer.started", "transfer.completed", "transfer.rejected",
    "remote.execution_started", "remote.execution_completed",
    "remote.execution_failed"]

/-- `_hash_envelope`: the digest of the envelope without its own hash. -/
def hashEnvelope (H : Host) (env : Json) : String :=
  "sha256:" ++ H.sha256 ((env.erase "hash").dumps true)

/-- `validate_envelope`. -/
def validateEnvelope (strictType : Bool) (env : Json) : Except Exc Unit :=
  if env.isObj = false then .error .typeError
  else
    match requiredFields.find? fun k => !env.has k with
    | some k => .error (.missingField k)
    | none =>
      if env.get "schema" ≠ .str schemaId then .error (.wrongSchema (env.get "schema"))
      else if env.get "privacy_class" ∉ allowedPrivacyClasses.map Json.str then
        .error (.wrongPrivacyClass (env.get "privacy_class"))
      else if (env.get "payload").isObj = false then .error .payloadNotObject
      else if strictType = true ∧ env.get "event_type" ∉ knownEventTypes.map Json.str then
        .error (.unknownEventType (env.get "event_type"))
      else .ok ()

/-- `EventEnvelope`. -/
structure EventEnvelope where
  eventType : String
  actor : String
  payload : Json
  privacyClass : String := "internal"
  runId : Option String := none
  target : Option String := none
  eventId : Option String := none
  timestamp : Option String := none

namespace EventEnvelope

variable (H : Host) (e : EventEnvelope) (eventId timestamp previousHash : String)

/-- The fields of the envelope that `_prepared` builds, before the hash. -/
def fields : List (String × Json) :=
  [("schema", .str schemaId), ("event_id", .str eventId), ("timestamp", .str timestamp),
    ("event_type", .str e.eventType), ("run_id", .ofOption e.runId), ("actor", .str e.actor),
    ("target", .ofOption e.target), ("payload", e.payload),
    ("privacy_class", .str e.privacyClass), ("previous_hash", .str previousHash)]

/-- The hash of the envelope that `_prepared` builds. -/
def hash : String := hashEnvelope H (.mkObj (e.fields eventId timestamp previousHash))

/-- `_prepared`: the sealed envelope. -/
def prepared : Json :=
  .mkObj (("hash", .str (e.hash H eventId timestamp previousHash)) ::
    e.fields eventId timestamp previousHash)

/-- `_scrub_payload`: every string value goes through the redaction pass. -/
def scrubbed : EventEnvelope := { e with payload := e.payload.mapStr H.scrub }

end EventEnvelope

/-! ### The log on disk -/

/-- The content of `head.json`. -/
structure Head where
  head : String
  lastEventId : Json
  deriving DecidableEq

/-- The directory `memory/events` and the lock file beside it. -/
structure LogDir where
  /-- The files `YYYY/MM/events.jsonl` in path order, each with its lines. -/
  files : List (List String × List Json) := []
  /-- `head.json`, if it exists. -/
  head : Option Head := none
  /-- `memory/.lock` exists. -/
  lockfile : Bool := false

/-- `_current_path`: the parts of the path of a timestamp's file.  A short timestamp leaves its
month out, and its year too. -/
def currentPath (timestamp : String) : List String :=
  [slice timestamp 0 4, slice timestamp 5 7].filter (· ≠ "") ++ ["events.jsonl"]

/-- Append a line to the file under `path`. -/
def appendLine (path : List String) (env : Json) :
    List (List String × List Json) → List (List String × List Json)
  | [] => [(path, [env])]
  | (p, lines) :: files =>
    if path = p then (p, lines ++ [env]) :: files
    else if path < p then (path, [env]) :: (p, lines) :: files
    else (p, lines) :: appendLine path env files

/-- The files come in strictly increasing path order. -/
def InOrder (files : List (List String × List Json)) : Prop :=
  (files.map (·.1)).Pairwise (· < ·)

namespace LogDir

/-- `iter_events`: the lines of the files in path order. -/
def iterEvents (d : LogDir) : List Json := d.files.flatMap (·.2)

/-- The hash that `head.json` names; without the file, the genesis value. -/
def headHash (d : LogDir) : String := d.head.elim genesis Head.head

/-- `atomic_append` to the file of the envelope's timestamp. -/
def appendEvent (d : LogDir) (timestamp : String) (env : Json) : LogDir :=
  { d with files := appendLine (currentPath timestamp) env d.files }

/-- `_write_head`. -/
def writeHead (d : LogDir) (head : String) (eventId : Json) : LogDir :=
  { d with head := some ⟨head, eventId⟩ }

end LogDir

/-- One step of the walk along the log: the envelope is valid, names the hash before it and has
the hash it states, which is returned. -/
def checkLink (H : Host) (prev : String) (env : Json) : Except Exc String :=
  match validateEnvelope false env with
  | .error e => .error e
  | .ok _ =>
    if env.get "previous_hash" ≠ .str prev then
      .error (.chainBreak (env.get "event_id") (env.get "previous_hash") prev)
    else if env.get "hash" ≠ .str (hashEnvelope H env) then
      .error (.hashMismatch (env.get "event_id") (env.get "hash") (hashEnvelope H env))
    else .ok (hashEnvelope H env)

/-- `verify_chain`. -/
def verifyChain (H : Host) (d : LogDir) : Except Exc Unit := do
  let prev ← d.iterEvents.foldlM (checkLink H) genesis
  if d.iterEvents ≠ [] then
    match d.head with
    | none => return
    | some h => if h.head ≠ prev then throw (.headMismatch h.head prev)

/-- `_validated_tail`: the last hash, the id of the last event, and all hashes. -/
def validatedTail (H : Host) (d : LogDir) : Except Exc (String × Json × List Json) := do
  let tail ← d.iterEvents.foldlM (checkLink H) genesis
  let lastEventId := d.iterEvents.getLast?.elim (.str "") (·.get "event_id")
  return (tail, lastEventId, d.iterEvents.map (·.get "hash"))

/-! ### The world -/

/-- Everything the program reads and writes. -/
structure World where
  dir : LogDir := {}
  /-- The `EventLog` objects that have reconciled `head.json`. -/
  recovered : ℕ → Bool := fun _ => false
  /-- This many `EventLog` objects have been made inside calls. -/
  objects : ℕ := 0
  db : Db := {}
  /-- The clock has been read this often. -/
  tick : ℕ := 0
  /-- This many ids have been drawn. -/
  drawn : ℕ := 0
  /-- This many executor calls have been made. -/
  calls : ℕ := 0
  outside : Outside

/-- A computation over the world. -/
abbrev Op (α : Type) := Act Exc World α

/-- Run a computation on the tables. -/
def onDb {α : Type} (x : Act Exc Db α) : Op α := Act.zoom World.db (fun db w => { w with db }) x

/-- Change the log directory. -/
def modifyDir (f : LogDir → LogDir) : Op Unit := modify fun w => { w with dir := f w.dir }

variable (H : Host)

/-- `datetime.now(timezone.utc).isoformat(timespec="seconds")`. -/
def now : Op String := fun w => .ok (H.clock w.tick) { w with tick := w.tick + 1 }

/-- `uuid.uuid4().hex`. -/
def uuidHex : Op String := fun w => .ok (H.uuid w.drawn) { w with drawn := w.drawn + 1 }

section

variable {H} {α : Type} {E : Exc → World → Prop} {w : World}

@[simp] theorem wp_now {Q : String → World → Prop} :
    Act.wp (now H) Q E w ↔ Q (H.clock w.tick) { w with tick := w.tick + 1 } :=
  Act.wp_of_ok rfl

@[simp] theorem wp_uuidHex {Q : String → World → Prop} :
    Act.wp (uuidHex H) Q E w ↔ Q (H.uuid w.drawn) { w with drawn := w.drawn + 1 } :=
  Act.wp_of_ok rfl

@[simp] theorem wp_onDb {Q : α → World → Prop} (x : Act Exc Db α) :
    Act.wp (onDb x) Q E w ↔
      Act.wp x (fun a db => Q a { w with db }) (fun e db => E e { w with db }) w.db :=
  Act.wp_zoom _ _ x

end

/-- `timestamp or _now()`. -/
def givenOrNow (timestamp : Option String) : Op String :=
  match given timestamp with
  | some t => pure t
  | none => now H

/-- `EventLog(root)`: the number of a new object. -/
def newLog : Op ℕ := fun w =>
  .ok w.objects { w with
    objects := w.objects + 1
    recovered := Function.update w.recovered w.objects false }

@[simp] theorem wp_newLog {Q : ℕ → World → Prop} {E : Exc → World → Prop} {w : World} :
    Act.wp newLog Q E w ↔ Q w.objects { w with
      objects := w.objects + 1
      recovered := Function.update w.recovered w.objects false } :=
  Act.wp_of_ok rfl

/-- Read a value off the tables. -/
def readDb {α : Type} (f : Db → Except Exc α) : Op α := do
  let w ← get
  Act.ofExcept (f w.db)

@[simp] theorem wp_readDb {α : Type} {Q : α → World → Prop} {E : Exc → World → Prop} {w : World}
    (f : Db → Except Exc α) :
    Act.wp (readDb f) Q E w ↔
      match f w.db with
      | .ok a => Q a w
      | .error e => E e w := by
  simp only [readDb, Act.wp_bind, Act.wp_get, Act.wp_ofExcept]
  cases f w.db <;> rfl

/-- Where an append is cut short. -/
inductive Cut where
  /-- The lock is not obtained in time. -/
  | acquire
  /-- Replacing a head that lags behind the log fails. -/
  | recover
  /-- The line is not written. -/
  | write
  /-- The line is written and the replacement of `head.json` fails. -/
  | head
  /-- `head.json` is replaced and the mirror row is not inserted. -/
  | mirror
  deriving DecidableEq

/-- Raise here if the append is cut short at `c`. -/
def reach (cut : Option Cut) (c : Cut) (e : Exc) : Op Unit :=
  if cut = some c then throw e else pure ()

/-- `_recover_head`. -/
def recoverHead (cut : Option Cut) : Op Unit := do
  let w ← get
  let (tail, tailEventId, hashes) ← Act.ofExcept (validatedTail H w.dir)
  match w.dir.head with
  | none =>
    if tail ≠ genesis then do
      reach cut .recover .osError
      modifyDir (·.writeHead tail tailEventId)
  | some h =>
    if h.head = tail then pure ()
    else if h.head = genesis ∨ .str h.head ∈ hashes then do
      reach cut .recover .osError
      modifyDir (·.writeHead tail tailEventId)
    else throw (.headAbsent h.head)

/-- `_load_head` of the `EventLog` object `i`. -/
def loadHead (i : ℕ) (cut : Option Cut) : Op String := do
  let w ← get
  if w.recovered i = false then do
    recoverHead H cut
    modify fun w => { w with recovered := Function.update w.recovered i true }
  let w ← get
  return w.dir.headHash

namespace EventEnvelope

variable (e : EventEnvelope) (w : World)

/-- The id that the envelope gets in the world `w`. -/
def eventIdAt : String := (given e.eventId).getD ("evt_" ++ slice (H.uuid w.drawn) 0 16)

/-- The timestamp that the envelope gets in the world `w`. -/
def timestampAt : String := (given e.timestamp).getD (H.clock w.tick)

/-- The world after the id is drawn and the clock is read, where the envelope leaves them open. -/
def stamp : World :=
  { w with
    drawn := if (given e.eventId).isSome then w.drawn else w.drawn + 1
    tick := if (given e.timestamp).isSome then w.tick else w.tick + 1 }

/-- `_prepared` in the world `w`: the sealed envelope. -/
def preparedAt (previousHash : String) : Json :=
  e.prepared H (e.eventIdAt H w) (e.timestampAt H w) previousHash

/-- The hash of `preparedAt`. -/
def hashAt (previousHash : String) : String :=
  e.hash H (e.eventIdAt H w) (e.timestampAt H w) previousHash

end EventEnvelope

/-- `_mirror_row`. -/
def mirrorRow (env : Json) : Act Exc Db Unit := do
  let eventId ← Act.ofExcept (env.item "event_id")
  let timestamp ← Act.ofExcept (env.item "timestamp")
  let eventType ← Act.ofExcept (env.item "event_type")
  let actor ← Act.ofExcept (env.item "actor")
  let payload ← Act.ofExcept (env.item "payload")
  let privacyClass ← Act.ofExcept (env.item "privacy_class")
  let hash ← Act.ofExcept (env.item "hash")
  let previousHash ← Act.ofExcept (env.item "previous_hash")
  insertEvent {
    eventId := ← Act.ofExcept (bindText H eventId)
    timestamp := ← Act.ofExcept (bindText H timestamp)
    eventType := ← Act.ofExcept (bindText H eventType)
    runId := ← Act.ofExcept (bindText H (env.get "run_id"))
    actor := ← Act.ofExcept (bindText H actor)
    target := ← Act.ofExcept (bindText H (env.get "target"))
    payload := .json payload
    privacyClass := ← Act.ofExcept (bindText H privacyClass)
    hash := ← Act.ofExcept (bindText H hash)
    previousHash := ← Act.ofExcept (bindText H previousHash) }

/-- `EventLog.append` of the object `i` after the payload is scrubbed, cut short at `cut`. -/
def appendScrubbed (i : ℕ) (envelope : EventEnvelope) (cut : Option Cut) : Op Json := do
  let w ← get
  if w.dir.lockfile then throw .lockHeld
  reach cut .acquire .lockHeld
  let head ← loadHead H i cut
  let w ← get
  let env := envelope.preparedAt H w head
  set (envelope.stamp w)
  Act.ofExcept (validateEnvelope true env)
  reach cut .write .osError
  modifyDir (·.appendEvent (envelope.timestampAt H w) env)
  reach cut .head .osError
  modifyDir (·.writeHead (envelope.hashAt H w head) (.str (envelope.eventIdAt H w)))
  reach cut .mirror .osError
  onDb (mirrorRow H env)
  return env

/-- `EventLog.append` of the object `i`, cut short at `cut`. -/
def append (i : ℕ) (envelope : EventEnvelope) (cut : Option Cut) : Op Json :=
  appendScrubbed H i (envelope.scrubbed H) cut

end Shiroe
