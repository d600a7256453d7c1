import Shiroe.Work.Store

/-!
# Attempts

The part of `execution/supervisor.py` that records attempts: each is a row of `work_attempts`,
started as `running` under the next number of its node and finished under its id.
-/

namespace Shiroe

open Act

variable (H : Host)

/-- The rows of the attempts of a node. -/
def Db.attemptsOf (db : Db) (nodeId : String) : List AttemptRow :=
  db.workAttempts.filter fun r => r.nodeId = .text nodeId

/-- The integer in a column, if it holds one. -/
def SqlVal.int? : SqlVal → Option ℤ
  | .int n => some n
  | _ => none

/-- `COALESCE(MAX(attempt), 0) + 1` over rows. -/
def nextNumber (rows : List AttemptRow) : ℤ := ((rows.filterMap (·.attempt.int?)).max?).getD 0 + 1

/-- `_attempt_count`. -/
def attemptCount (nodeId : String) : Op ℕ := readDb fun db => do
  let _ ← bindText H (.str nodeId)
  return (db.attemptsOf nodeId).length

/-- `_next_attempt`. -/
def nextAttempt (nodeId : String) : Op ℤ := readDb fun db => do
  let _ ← bindText H (.str nodeId)
  return nextNumber (db.attemptsOf nodeId)

/-- `"wa_" + uuid.uuid4().hex[:16]` for the `n`-th id that is drawn. -/
def attemptId (n : ℕ) : String := "wa_" ++ slice (H.uuid n) 0 16

/-- The event of an attempt that starts. -/
def startedEvent (attemptId graphId nodeId : String) (attempt : ℤ)
    (capabilityId state now : String) :
    EventEnvelope where
  eventType := "attempt.started"
  actor := "system"
  target := some ("work_attempt:" ++ attemptId)
  payload := .mkObj [("id", .str attemptId), ("graph_id", .str graphId), ("node_id", .str nodeId),
    ("attempt", .int attempt), ("capability_id", .str capabilityId), ("state", .str state),
    ("event_time", .str now)]

/-- `_record_attempt` with the state `running`: the id of the attempt. -/
def recordAttempt (i : ℕ) (graphId nodeId capabilityId : String) : Op String := do
  let id := "wa_" ++ slice (← uuidHex H) 0 16
  let attempt ← nextAttempt H nodeId
  let when ← now H
  let _ ← emit H i (startedEvent id graphId nodeId attempt capabilityId "running" when)
  return id

/-- How an attempt ends. -/
inductive AttemptEnd where
  | completed | failed
  deriving DecidableEq, Repr

/-- The state of an attempt that has ended. -/
def AttemptEnd.value : AttemptEnd → String
  | completed => "completed"
  | failed => "failed"

/-- The event type of an attempt that ends. -/
def AttemptEnd.eventType : AttemptEnd → String
  | completed => "attempt.completed"
  | failed => "attempt.failed"

/-- The event of an attempt that ends, over its row. -/
def finishedEvent (attemptId : String) (row : AttemptRow) (state : AttemptEnd)
    (error : Option String) (usage : Json) (now : String) : EventEnvelope where
  eventType := state.eventType
  actor := "system"
  target := some ("work_attempt:" ++ attemptId)
  payload := .mkObj [("id", .str attemptId), ("graph_id", row.graphId.read),
    ("node_id", row.nodeId.read), ("attempt", row.attempt.read),
    ("capability_id", row.capabilityId.read), ("state", .str state.value),
    ("error", .ofOption error), ("usage", usage.orElse (.mkObj [])), ("event_time", .str now)]

/-- The row of an attempt. -/
def Db.attempt? (db : Db) (attemptId : String) : Option AttemptRow :=
  db.workAttempts.find? fun r => r.id = .text attemptId

/-- `_finish_attempt`. -/
def finishAttempt (i : ℕ) (attemptId : String) (state : AttemptEnd) (error : Option String)
    (usage : Json) : Op Unit := do
  let row ← readDb fun db => do
    let _ ← bindText H (.str attemptId)
    match db.attempt? attemptId with
    | none => .error (.keyError attemptId)
    | some row => .ok row
  let when ← now H
  let _ ← emit H i (finishedEvent attemptId row state error usage when)

end Shiroe
