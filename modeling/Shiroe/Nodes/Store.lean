import Shiroe.Base
import Shiroe.Lib.Interleave
import Shiroe.Lib.Table

/-!
# The leases of worker nodes

`nodes/store.py`: the leases that a `NodeStore` hands out.  Several processes work on one database,
each statement at once; an operation is the program of its statements.
-/

namespace Shiroe

/-! ### Rows -/

/-- The state of a lease. -/
inductive LeaseState where
  | active | completed | failed | released | expired
  deriving DecidableEq, Repr

/-- The text of a lease state. -/
def LeaseState.value : LeaseState → String
  | active => "active"
  | completed => "completed"
  | failed => "failed"
  | released => "released"
  | expired => "expired"

/-- A row of `nodes`, as far as leases depend on it. -/
structure WorkerRow where
  id : String
  role : String
  trusted : Bool
  deriving DecidableEq

/-- A row of `node_leases`, and a `LeaseRecord`. -/
structure LeaseRow where
  id : String
  graphId : String
  workNodeId : String
  nodeId : String
  state : LeaseState
  acquiredAt : String
  expiresAt : String
  releasedAt : Option String := none
  deriving DecidableEq

/-- An event of a lease. -/
structure LeaseEvent where
  eventType : String
  payload : Json
  target : String
  deriving DecidableEq

/-- An append to the log that raises, before or after the line is written. -/
structure LogFault where
  raises : Exc
  written : Bool
  alive : raises ≠ .killed
  deriving DecidableEq

/-- The database and the log, and how often the clock and the ids have been asked for. -/
structure LeaseDb where
  nodes : List WorkerRow := []
  leases : List LeaseRow := []
  events : List LeaseEvent := []
  /-- What becomes of the next appends to the log; those behind the list succeed. -/
  faults : List (Option LogFault) := []
  tick : ℕ := 0
  drawn : ℕ := 0
  deriving DecidableEq

/-- The clock and the ids of the stores. -/
structure LeaseHost where
  /-- `_iso(self._clock())`. -/
  now : ℕ → String
  /-- `_iso(self._clock() + timedelta(seconds=ttl_s))`, which may leave the range of dates. -/
  expiresAt : ℕ → ℤ → Except Exc String
  /-- `self._lease_id_factory()`. -/
  leaseId : ℕ → String

/-! ### Statements -/

/-- What an operation asks the database, the log, the clock and the ids for. -/
inductive LeaseStmt where
  /-- `SELECT * FROM nodes WHERE id=?`. -/
  | selectNode (id : String)
  /-- `UPDATE node_leases SET state='expired', released_at=? WHERE state='active' AND
  expires_at <= ?`. -/
  | expire (now : String)
  /-- `INSERT INTO node_leases`. -/
  | insert (r : LeaseRow)
  /-- `SELECT * FROM node_leases WHERE id=?`. -/
  | select (id : String)
  /-- `UPDATE node_leases SET state=?, released_at=? WHERE id=?`. -/
  | setState (id : String) (state : LeaseState) (now : String)
  /-- An append to the log. -/
  | emit (e : LeaseEvent)
  /-- A look at the clock. -/
  | readClock
  /-- A new id. -/
  | drawId

/-- What comes back. -/
def LeaseStmt.Answer : LeaseStmt → Type
  | .selectNode _ => Option WorkerRow
  | .expire _ => ℕ
  -- whether there was no `IntegrityError`
  | .insert _ => Bool
  | .select _ => Option LeaseRow
  | .setState _ _ _ => Unit
  | .emit _ => Except Exc Unit
  | .readClock => ℕ
  | .drawId => ℕ

namespace LeaseDb

variable (db : LeaseDb)

/-- The rows that an expiry takes. -/
def isStale (now : String) (r : LeaseRow) : Bool := r.state = .active && decide (r.expiresAt ≤ now)

/-- `node_leases` rejects a row: its id is taken, it names no node, or it is active and so is
another row for its work node (`uq_active_work_node_lease`). -/
def rejects (r : LeaseRow) : Bool :=
  db.leases.any (·.id = r.id) || !db.nodes.any (·.id = r.nodeId) ||
    (r.state = .active &&
      db.leases.any fun r' => r'.state = .active && r'.workNodeId = r.workNodeId)

/-- The state of a lease. -/
def stateOf (id : String) : Option LeaseState := (db.leases.find? (·.id = id)).map (·.state)

/-- Execute a statement. -/
def exec : (m : LeaseStmt) → LeaseDb → m.Answer × LeaseDb
  | .selectNode id, db => (db.nodes.find? (·.id = id), db)
  | .expire now, db =>
    (db.leases.countP (isStale now), { db with
      leases := Table.update (isStale now)
        (fun r => { r with state := .expired, releasedAt := some now }) db.leases })
  | .insert r, db =>
    if db.rejects r then (false, db) else (true, { db with leases := db.leases ++ [r] })
  | .select id, db => (db.leases.find? (·.id = id), db)
  | .setState id state now, db =>
    ((), { db with
      leases := Table.update (·.id = id)
        (fun r => { r with state, releasedAt := some now }) db.leases })
  | .emit e, db =>
    match db.faults with
    | [] => (.ok (), { db with events := db.events ++ [e] })
    | none :: faults => (.ok (), { db with events := db.events ++ [e], faults })
    | some f :: faults =>
      (.error f.raises,
        { db with events := if f.written then db.events ++ [e] else db.events, faults })
  | .readClock, db => (db.tick, { db with tick := db.tick + 1 })
  | .drawId, db => (db.drawn, { db with drawn := db.drawn + 1 })

end LeaseDb

/-! ### Operations -/

/-- A program of a store. -/
abbrev LeaseProg (α : Type) := Prog LeaseStmt LeaseStmt.Answer Exc α

/-- Ask for one thing. -/
def ask (m : LeaseStmt) : LeaseProg m.Answer := Prog.issue m

/-- `re.fullmatch(start + "[a-z0-9_]{3,most}", s)`. -/
def isOpaqueId (start : String) (most : ℕ) (s : String) : Bool :=
  startsWith s start &&
    let rest := s.toList.drop start.length
    rest.all (fun c => ('a' ≤ c && c ≤ 'z') || ('0' ≤ c && c ≤ '9') || c = '_') &&
      decide (3 ≤ rest.length) && decide (rest.length ≤ most)

variable (H : LeaseHost)

/-- `_now`. -/
def leaseNow : LeaseProg String := do
  let n : ℕ ← ask .readClock
  return H.now n

/-- `_new_lease_id`. -/
def newLeaseId : LeaseProg String := do
  let n : ℕ ← ask .drawId
  let id := H.leaseId n
  if isOpaqueId "lease_" 80 id then return id
  else .raise (.valueError "lease_id must be Shiroe-generated opaque id")

/-- `get_node`. -/
def getWorker (nodeId : String) : LeaseProg WorkerRow :=
  if isOpaqueId "node_" 64 nodeId then do
    let row : Option WorkerRow ← ask (.selectNode nodeId)
    match row with
    | some r => return r
    | none => .raise (.keyError nodeId)
  else .raise (.valueError "node_id must be Shiroe-generated opaque id")

/-- `get_lease`. -/
def getLease (leaseId : String) : LeaseProg LeaseRow := do
  let row : Option LeaseRow ← ask (.select leaseId)
  match row with
  | some r => return r
  | none => .raise (.keyError leaseId)

/-- `_emit`. -/
def emitLease (e : LeaseEvent) : LeaseProg Unit := do
  let appended : Except Exc Unit ← ask (.emit e)
  match appended with
  | .ok () => return ()
  | .error x => .raise x

/-- The event of a lease. -/
def leaseEvent (eventType : String) (r : LeaseRow) : LeaseEvent where
  eventType := eventType
  payload := .mkObj [("lease_id", .str r.id), ("graph_id", .str r.graphId),
    ("work_node_id", .str r.workNodeId), ("node_id", .str r.nodeId), ("state", .str r.state.value)]
  target := "node:" ++ r.nodeId

/-- `expire_active_leases`. -/
def expireActiveLeases : LeaseProg ℕ := do
  let now ← leaseNow H
  ask (.expire now)

/-- `_iso(self._clock() + timedelta(seconds=ttl_s))`. -/
def leaseEnd (ttlS : ℤ) : LeaseProg String := do
  let n : ℕ ← ask .readClock
  match H.expiresAt n ttlS with
  | .ok s => return s
  | .error e => .raise e

/-- `acquire_lease`. -/
def acquireLease (graphId workNodeId nodeId : String) (ttlS : ℤ) : LeaseProg LeaseRow := do
  let node ← getWorker nodeId
  if node.role ≠ "worker" ∨ node.trusted = false then
    .raise (.denied "remote lease requires a trusted worker node")
  else do
    let _ ← expireActiveLeases H
    let now ← leaseNow H
    let expiresAt ← leaseEnd H ttlS
    let id ← newLeaseId H
    let r : LeaseRow :=
      { id, graphId, workNodeId, nodeId, state := .active, acquiredAt := now, expiresAt }
    let inserted : Bool ← ask (.insert r)
    if inserted then do
      emitLease (leaseEvent "node.lease_acquired" r)
      getLease id
    else .raise (.runtimeError ("active lease already exists for work node " ++ workNodeId))

/-- The event type of a lease that has ended. -/
def terminalEvent (target : LeaseState) : String :=
  if target = .completed then "node.lease_completed" else "node.lease_failed"

/-- `_terminal_lease`. -/
def terminalLease (leaseId : String) (target : LeaseState) (idempotent : Bool) :
    LeaseProg LeaseRow :=
  if target ∉ [.completed, .failed, .released] then
    .raise (.valueError ("unsupported terminal lease state " ++ pyRepr target.value))
  else do
    let current ← getLease leaseId
    if current.state = target ∧ idempotent = true then return current
    else if current.state ≠ .active then
      .raise (.runtimeError
        ("lease " ++ leaseId ++ " is " ++ current.state.value ++ ", not active"))
    else do
      let now ← leaseNow H
      -- the state that was read is not looked at again
      ask (.setState leaseId target now)
      let updated ← getLease leaseId
      emitLease (leaseEvent (terminalEvent target) updated)
      return updated

/-- `complete_lease`. -/
def completeLease (leaseId : String) : LeaseProg LeaseRow := terminalLease H leaseId .completed true

/-- `fail_lease`. -/
def failLease (leaseId : String) : LeaseProg LeaseRow := terminalLease H leaseId .failed true

/-- `release_lease`. -/
def releaseLease (leaseId : String) : LeaseProg LeaseRow := terminalLease H leaseId .released true

/-- The operations on leases. -/
inductive LeaseCall where
  | acquire (graphId workNodeId nodeId : String) (ttlS : ℤ)
  | expire
  | complete (leaseId : String)
  | fail (leaseId : String)
  | release (leaseId : String)
  deriving DecidableEq

/-- The program of an operation. -/
def LeaseCall.prog : LeaseCall → LeaseProg Unit
  | .acquire graphId workNodeId nodeId ttlS => do
    let _ ← acquireLease H graphId workNodeId nodeId ttlS
  | .expire => do let _ ← expireActiveLeases H
  | .complete leaseId => do let _ ← completeLease H leaseId
  | .fail leaseId => do let _ ← failLease H leaseId
  | .release leaseId => do let _ ← releaseLease H leaseId

/-- The processes that work on one database. -/
abbrev LeasePool := Pool LeaseStmt LeaseStmt.Answer Exc Unit LeaseDb

/-- One turn of these processes. -/
def leaseTurn (p : LeasePool) (t : Turn LeaseCall) : LeasePool :=
  p.step LeaseDb.exec (LeaseCall.prog H) t

end Shiroe
