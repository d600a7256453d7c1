import Shiroe.Base
import Shiroe.Lib.Table

/-!
# The tables of the state database

The rows of the tables that the event log can rebuild, and the statements that write them.  A
column holds a `SqlVal`; a column that holds the text of a JSON value is written `SqlVal.json`.
Binding a parameter can fail (`bindParam`), a NOT NULL column or a foreign key can reject a row
(`requireNotNull`, `requireRef`), and `INSERT OR REPLACE` moves a replaced row to the end.

* `Bindable`, `bindText_eq`, `bindInt_eq` : which values can be bound, and what the column holds.
-/

namespace Shiroe

/-! ### Values of columns -/

/-- A value in a column. -/
inductive SqlVal where
  | null
  | int (n : ℤ)
  | real (x : PyFloat)
  | text (s : String)
  /-- The text `json.dumps(j, sort_keys=True, separators=(",", ":"))`. -/
  | json (j : Json)
  deriving DecidableEq

namespace SqlVal

/-- `v IS NULL`. -/
def isNull (v : SqlVal) : Bool := v = .null

/-- The key of a row: NULL key columns conflict with nothing. -/
def key (v : SqlVal) : Option SqlVal := if v = .null then none else some v

/-- The text in a column, if it holds one. -/
def text? : SqlVal → Option String
  | .text s => some s
  | _ => none

/-- `COALESCE(v, w)`. -/
def coalesce (v w : SqlVal) : SqlVal := if v = .null then w else v

/-- The integer a decimal text stands for. -/
def decimal? (s : String) : Option ℤ :=
  let digits (l : List Char) : Option ℕ :=
    if l ≠ [] ∧ l.all Char.isDigit then some (ofDigits l) else none
  match s.toList with
  | '-' :: l => (digits l).map fun n => -(n : ℤ)
  | '+' :: l => (digits l).map fun n => (n : ℤ)
  | l => (digits l).map fun n => (n : ℤ)

/-- What a TEXT column keeps of a value. -/
def asText (H : Host) : SqlVal → SqlVal
  | .int n => .text (String.ofList (Json.dumpsInt n))
  | .real x => .text (H.realText x)
  | v => v

/-- What an INTEGER column keeps of a value. -/
def asInt : SqlVal → SqlVal
  | .text s =>
    match decimal? s with
    | some n => .int n
    | none => .text s
  | v => v

/-- What a column is read as. -/
def read : SqlVal → Json
  | .null => .null
  | .int n => .int n
  | .real x => .float x
  | .text s => .str s
  | .json j => .str (String.ofList (j.dumps true))

/-- A column that is read as a text. -/
def asStr : SqlVal → Except Exc String
  | .text s => .ok s
  | _ => .error .attributeError

/-- `tuple(json.loads(text))` for a column that holds a list of strings. -/
def asStrs : SqlVal → Except Exc (List String)
  | .json j => do (← j.items).mapM fun
    | .str s => .ok s
    | _ => .error .typeError
  | _ => .error .typeError

/-- The JSON value in a column. -/
def loads : SqlVal → Except Exc Json
  | .json j => .ok j
  | _ => .error .typeError

theorem eq_of_key_eq {v w : SqlVal} (h : v.key ≠ none) (hk : v.key = w.key) : v = w := by
  unfold key at h hk
  split_ifs at h hk with hv hw
  · exact absurd rfl h
  · exact Option.some.inj hk

@[simp] theorem isNull_null : SqlVal.null.isNull = true := rfl
@[simp] theorem isNull_text (s : String) : (SqlVal.text s).isNull = false := rfl
@[simp] theorem isNull_int (n : ℤ) : (SqlVal.int n).isNull = false := rfl
@[simp] theorem isNull_json (j : Json) : (SqlVal.json j).isNull = false := rfl
@[simp] theorem key_null : SqlVal.null.key = none := rfl
@[simp] theorem key_text (s : String) : (SqlVal.text s).key = some (.text s) := rfl
@[simp] theorem asText_text (H : Host) (s : String) : asText H (.text s) = .text s := rfl
@[simp] theorem asText_null (H : Host) : asText H .null = .null := rfl
@[simp] theorem asInt_int (n : ℤ) : asInt (.int n) = .int n := rfl

end SqlVal

/-- Bind a Python value to a parameter of a statement. -/
def bindParam (H : Host) : Json → Except Exc SqlVal
  | .null => .ok .null
  | .bool b => .ok (.int (if b then 1 else 0))
  | .int n => if -2 ^ 63 ≤ n ∧ n < 2 ^ 63 then .ok (.int n) else .error (.intOverflow n)
  -- SQLite has no NaN
  | .float x => .ok (if x.isNaN then .null else .real x)
  | .str s => if H.encodes s then .ok (.text s) else .error (.unicodeEncode s)
  | .arr _ => .error .unsupportedType
  | .obj _ => .error .unsupportedType

/-- A parameter for a TEXT column. -/
def bindText (H : Host) (j : Json) : Except Exc SqlVal := (SqlVal.asText H) <$> bindParam H j

/-- A parameter for an INTEGER column. -/
def bindInt (H : Host) (j : Json) : Except Exc SqlVal := SqlVal.asInt <$> bindParam H j

/-- The values that can be bound to a parameter, `None` alone as NULL. -/
def Bindable (H : Host) : Json → Prop
  | .int n => -2 ^ 63 ≤ n ∧ n < 2 ^ 63
  | .float x => x.isNaN = false
  | .str s => H.encodes s = true
  | .arr _ => False
  | .obj _ => False
  | _ => True

instance (H : Host) (j : Json) : Decidable (Bindable H j) := by
  cases j <;> unfold Bindable <;> infer_instance

/-- The value bound for a parameter. -/
def boundVal : Json → SqlVal
  | .bool b => .int (if b then 1 else 0)
  | .int n => .int n
  | .float x => .real x
  | .str s => .text s
  | _ => .null

@[simp] theorem boundVal_null : boundVal .null = .null := rfl
@[simp] theorem boundVal_int (n : ℤ) : boundVal (.int n) = .int n := rfl
@[simp] theorem boundVal_str (s : String) : boundVal (.str s) = .text s := rfl

theorem bindParam_eq {H : Host} {j : Json} (h : Bindable H j) :
    bindParam H j = .ok (boundVal j) := by
  cases j with
  | int n => exact if_pos h
  | str s => exact if_pos h
  | float x =>
    change x.isNaN = false at h
    rw [bindParam, h]
    rfl
  | arr l => exact h.elim
  | obj d => exact h.elim
  | _ => rfl

theorem bindText_eq {H : Host} {j : Json} (h : Bindable H j) :
    bindText H j = .ok ((boundVal j).asText H) := by
  rw [bindText, bindParam_eq h]
  rfl

theorem bindInt_eq {H : Host} {j : Json} (h : Bindable H j) :
    bindInt H j = .ok (boundVal j).asInt := by
  rw [bindInt, bindParam_eq h]
  rfl

/-! ### Rows -/

/-- A row of `memory_events`. -/
structure EventRow where
  eventId : SqlVal
  timestamp : SqlVal
  eventType : SqlVal
  runId : SqlVal
  actor : SqlVal
  target : SqlVal
  payload : SqlVal
  privacyClass : SqlVal
  hash : SqlVal
  previousHash : SqlVal
  deriving DecidableEq

/-- A row of `memory_records`. -/
structure RecordRow where
  id : SqlVal
  kind : SqlVal
  title : SqlVal
  claim : SqlVal
  summary : SqlVal
  status : SqlVal
  confidence : SqlVal
  evidenceGrade : SqlVal
  privacyClass : SqlVal
  authority : SqlVal
  scope : SqlVal
  validFrom : SqlVal
  validUntil : SqlVal
  createdAt : SqlVal
  updatedAt : SqlVal
  owner : SqlVal
  schemaVersion : SqlVal
  archived : SqlVal
  tagsJson : SqlVal
  deriving DecidableEq

/-- A row of `memory_sources`. -/
structure SourceRow where
  id : SqlVal
  memoryId : SqlVal
  sourceType : SqlVal
  sourceRef : SqlVal
  sourceDigest : SqlVal
  observedAt : SqlVal
  retrievedAt : SqlVal
  provenance : SqlVal
  deriving DecidableEq

/-- A row of `capabilities`. -/
structure CapabilityRow where
  id : SqlVal
  name : SqlVal
  type : SqlVal
  lifecycle : SqlVal
  currentDigest : SqlVal
  createdAt : SqlVal
  updatedAt : SqlVal
  deriving DecidableEq

/-- A row of `capability_versions`. -/
structure VersionRow where
  id : SqlVal
  capabilityId : SqlVal
  version : SqlVal
  digest : SqlVal
  manifest : SqlVal
  sourceKind : SqlVal
  sourceLocation : SqlVal
  license : SqlVal
  adapter : SqlVal
  compatibility : SqlVal
  lifecycle : SqlVal
  createdAt : SqlVal
  deriving DecidableEq

/-- A row of `capability_permissions`. -/
structure PermissionRow where
  id : SqlVal
  capabilityId : SqlVal
  filesystemRead : SqlVal
  filesystemWrite : SqlVal
  network : SqlVal
  secrets : SqlVal
  subprocess : Bool
  externalWrite : Bool
  destructive : Bool
  approvedAt : SqlVal
  approvedBy : SqlVal
  deriving DecidableEq

/-- A row of `work_graphs`. -/
structure GraphRow where
  id : SqlVal
  objective : SqlVal
  constraintsJson : SqlVal
  successCriteriaJson : SqlVal
  status : SqlVal
  version : SqlVal
  createdAt : SqlVal
  updatedAt : SqlVal
  deriving DecidableEq

/-- A row of `work_nodes`. -/
structure NodeRow where
  id : SqlVal
  graphId : SqlVal
  kind : SqlVal
  objective : SqlVal
  requiresJson : SqlVal
  risk : SqlVal
  approvalRequired : Bool
  independentReview : Bool
  evidenceRequired : Bool
  expectedOutputsJson : SqlVal
  retryJson : SqlVal
  placementJson : SqlVal
  metadataJson : SqlVal
  status : SqlVal
  outputJson : SqlVal := .null
  stateVersion : ℤ := 0
  deriving DecidableEq

/-- A row of `work_edges`. -/
structure EdgeRow where
  graphId : SqlVal
  srcId : SqlVal
  dstId : SqlVal
  deriving DecidableEq

/-- A row of `work_attempts`. -/
structure AttemptRow where
  id : SqlVal
  graphId : SqlVal
  nodeId : SqlVal
  attempt : SqlVal
  capabilityId : SqlVal
  state : SqlVal
  inputDigest : SqlVal
  outputDigest : SqlVal
  error : SqlVal
  usageJson : SqlVal
  startedAt : SqlVal
  endedAt : SqlVal
  deriving DecidableEq

/-- A row of `approval_requests`. -/
structure ApprovalRow where
  id : SqlVal
  graphId : SqlVal
  nodeId : SqlVal
  approvalType : SqlVal
  actionKind : SqlVal
  requestedAction : SqlVal
  scopeJson : SqlVal
  scopeDigest : SqlVal
  reason : SqlVal
  optionsJson : SqlVal
  evidenceRefsJson : SqlVal
  risk : SqlVal
  status : SqlVal
  requestedAt : SqlVal
  decidedAt : SqlVal := .null
  decidedBy : SqlVal := .null
  decisionReason : SqlVal := .null
  deriving DecidableEq

/-- A row of `approval_advice`. -/
structure AdviceRow where
  id : SqlVal
  approvalId : SqlVal
  capabilityId : SqlVal
  recommendation : SqlVal
  rationale : SqlVal
  risksJson : SqlVal
  evidenceGapsJson : SqlVal
  conditionsJson : SqlVal
  createdAt : SqlVal
  deriving DecidableEq

/-- The tables that a replay of the event log clears. -/
structure Db where
  memoryEvents : List EventRow := []
  memoryRecords : List RecordRow := []
  memorySources : List SourceRow := []
  capabilities : List CapabilityRow := []
  capabilityVersions : List VersionRow := []
  capabilityPermissions : List PermissionRow := []
  workGraphs : List GraphRow := []
  workNodes : List NodeRow := []
  workEdges : List EdgeRow := []
  workAttempts : List AttemptRow := []
  approvalRequests : List ApprovalRow := []
  approvalAdvice : List AdviceRow := []
  deriving DecidableEq

/-! ### Statements -/

/-- Reject a row that has NULL in one of the given NOT NULL columns. -/
def requireNotNull (table : String) (columns : List (String × SqlVal)) : Except Exc Unit :=
  match columns.find? fun c => c.2.isNull with
  | some c => .error (.integrityError (.notNull table c.1))
  | none => .ok ()

/-- Reject a row whose foreign key names no row. -/
def requireRef (table column : String) (v : SqlVal) (parents : List SqlVal) : Except Exc Unit :=
  if v = .null ∨ v ∈ parents then .ok () else .error (.integrityError (.foreignKey table column))

/-- Run a statement: it writes the table or, when a constraint is violated, nothing. -/
def exec (check : Db → Except Exc Unit) (write : Db → Db) : Act Exc Db Unit := fun db =>
  match check db with
  | .ok _ => .ok () (write db)
  | .error e => .error e db

theorem requireNotNull_eq_ok {table : String} {columns : List (String × SqlVal)} :
    requireNotNull table columns = .ok () ↔ ∀ c ∈ columns, c.2.isNull = false := by
  unfold requireNotNull
  cases h : columns.find? fun c => c.2.isNull with
  | none => simpa using h
  | some c =>
    simp only [reduceCtorEq, false_iff]
    intro hall
    have := hall c (List.mem_of_find?_eq_some h)
    rw [List.find?_some h] at this
    cases this

theorem requireRef_eq_ok {table column : String} {v : SqlVal} {parents : List SqlVal} :
    requireRef table column v parents = .ok () ↔ v = .null ∨ v ∈ parents := by
  unfold requireRef
  split_ifs with h <;> simp [h]

@[simp] theorem wp_exec {check : Db → Except Exc Unit} {write : Db → Db} {Q : Unit → Db → Prop}
    {E : Exc → Db → Prop} {db : Db} :
    Act.wp (exec check write) Q E db ↔
      match check db with
      | .ok _ => Q () (write db)
      | .error e => E e db := by
  simp only [Act.wp, exec]
  cases check db <;> rfl

/-- `INSERT OR REPLACE INTO memory_events`. -/
def insertEvent (r : EventRow) : Act Exc Db Unit :=
  exec (fun _ => requireNotNull "memory_events"
      [("timestamp", r.timestamp), ("event_type", r.eventType), ("actor", r.actor),
        ("payload", r.payload), ("privacy_class", r.privacyClass), ("hash", r.hash)])
    fun db => { db with memoryEvents := Table.replace (·.eventId.key) r db.memoryEvents }

/-- `INSERT OR REPLACE INTO memory_records`; NULL in a NOT NULL column with a default becomes the
default. -/
def insertRecord (r : RecordRow) : Act Exc Db Unit :=
  exec (fun _ => requireNotNull "memory_records"
      [("kind", r.kind), ("title", r.title), ("claim", r.claim), ("status", r.status),
        ("confidence", r.confidence), ("evidence_grade", r.evidenceGrade),
        ("privacy_class", r.privacyClass), ("created_at", r.createdAt),
        ("updated_at", r.updatedAt), ("owner", r.owner), ("schema_version", r.schemaVersion)])
    fun db =>
      let r' := { r with
        authority := r.authority.coalesce (.int 0)
        scope := r.scope.coalesce (.text "project")
        archived := r.archived.coalesce (.int 0)
        tagsJson := r.tagsJson.coalesce (.text "[]") }
      { db with memoryRecords := Table.replace (·.id.key) r' db.memoryRecords }

/-- `INSERT OR REPLACE INTO memory_sources`. -/
def insertSource (r : SourceRow) : Act Exc Db Unit :=
  exec (fun db => do
      requireNotNull "memory_sources"
        [("memory_id", r.memoryId), ("source_type", r.sourceType), ("source_ref", r.sourceRef),
          ("provenance", r.provenance)]
      requireRef "memory_sources" "memory_id" r.memoryId (db.memoryRecords.map (·.id)))
    fun db => { db with memorySources := Table.replace (·.id.key) r db.memorySources }

/-- `INSERT OR REPLACE INTO capabilities`. -/
def insertCapability (r : CapabilityRow) : Act Exc Db Unit :=
  exec (fun _ => requireNotNull "capabilities"
      [("name", r.name), ("type", r.type), ("lifecycle", r.lifecycle),
        ("created_at", r.createdAt), ("updated_at", r.updatedAt)])
    fun db => { db with capabilities := Table.replace (·.id.key) r db.capabilities }

/-- `INSERT OR REPLACE INTO capability_versions`. -/
def insertVersion (r : VersionRow) : Act Exc Db Unit :=
  exec (fun db => do
      requireNotNull "capability_versions"
        [("capability_id", r.capabilityId), ("version", r.version), ("digest", r.digest),
          ("manifest", r.manifest), ("source_kind", r.sourceKind),
          ("source_location", r.sourceLocation), ("lifecycle", r.lifecycle),
          ("created_at", r.createdAt)]
      requireRef "capability_versions" "capability_id" r.capabilityId (db.capabilities.map (·.id)))
    fun db => { db with capabilityVersions := Table.replace (·.id.key) r db.capabilityVersions }

/-- `INSERT OR REPLACE INTO capability_permissions`. -/
def insertPermission (r : PermissionRow) : Act Exc Db Unit :=
  exec (fun db => do
      requireNotNull "capability_permissions"
        [("capability_id", r.capabilityId), ("filesystem_read", r.filesystemRead),
          ("filesystem_write", r.filesystemWrite), ("network", r.network), ("secrets", r.secrets)]
      requireRef "capability_permissions" "capability_id" r.capabilityId
        (db.capabilities.map (·.id)))
    fun db =>
      { db with capabilityPermissions := Table.replace (·.id.key) r db.capabilityPermissions }

/-- `INSERT OR REPLACE INTO work_graphs`. -/
def insertGraph (r : GraphRow) : Act Exc Db Unit :=
  exec (fun _ => requireNotNull "work_graphs"
      [("objective", r.objective), ("constraints_json", r.constraintsJson),
        ("success_criteria_json", r.successCriteriaJson), ("status", r.status),
        ("version", r.version), ("created_at", r.createdAt), ("updated_at", r.updatedAt)])
    fun db => { db with workGraphs := Table.replace (·.id.key) r db.workGraphs }

/-- `INSERT OR REPLACE INTO work_nodes`. -/
def insertNode (r : NodeRow) : Act Exc Db Unit :=
  exec (fun db => do
      requireNotNull "work_nodes"
        [("graph_id", r.graphId), ("kind", r.kind), ("objective", r.objective),
          ("requires_json", r.requiresJson), ("risk", r.risk),
          ("expected_outputs_json", r.expectedOutputsJson), ("retry_json", r.retryJson),
          ("metadata_json", r.metadataJson), ("status", r.status)]
      requireRef "work_nodes" "graph_id" r.graphId (db.workGraphs.map (·.id)))
    fun db => { db with workNodes := Table.replace (·.id.key) r db.workNodes }

/-- `INSERT OR REPLACE INTO work_edges`, whose key is the whole row. -/
def insertEdge (r : EdgeRow) : Act Exc Db Unit :=
  exec (fun db => do
      requireNotNull "work_edges"
        [("graph_id", r.graphId), ("src_id", r.srcId), ("dst_id", r.dstId)]
      requireRef "work_edges" "graph_id" r.graphId (db.workGraphs.map (·.id))
      requireRef "work_edges" "src_id" r.srcId (db.workNodes.map (·.id))
      requireRef "work_edges" "dst_id" r.dstId (db.workNodes.map (·.id)))
    fun db => { db with workEdges := Table.replace some r db.workEdges }

/-- A stored attempt under the id of the row to insert. -/
def AttemptRow.conflicts (r a : AttemptRow) : Bool := r.id ≠ .null && a.id = r.id

/-- `INSERT INTO work_attempts … ON CONFLICT(id) DO UPDATE`: a row that is there keeps its place,
its graph, node, number, capability and start. -/
def upsertAttempt (r : AttemptRow) : Act Exc Db Unit :=
  exec (fun db => do
      requireNotNull "work_attempts"
        [("graph_id", r.graphId), ("node_id", r.nodeId), ("attempt", r.attempt),
          ("state", r.state)]
      if db.workAttempts.any r.conflicts then .ok ()
      else do
        requireRef "work_attempts" "graph_id" r.graphId (db.workGraphs.map (·.id))
        requireRef "work_attempts" "node_id" r.nodeId (db.workNodes.map (·.id)))
    fun db =>
      if db.workAttempts.any r.conflicts then
        let write (a : AttemptRow) : AttemptRow :=
          { a with
            state := r.state
            inputDigest := r.inputDigest
            outputDigest := r.outputDigest
            error := r.error
            usageJson := r.usageJson
            endedAt := r.endedAt.coalesce a.endedAt }
        { db with workAttempts := Table.update r.conflicts write db.workAttempts }
      else { db with workAttempts := db.workAttempts ++ [r] }

/-- `INSERT OR REPLACE INTO approval_requests`. -/
def insertApproval (r : ApprovalRow) : Act Exc Db Unit :=
  exec (fun db => do
      requireNotNull "approval_requests"
        [("approval_type", r.approvalType), ("requested_action", r.requestedAction),
          ("scope_json", r.scopeJson), ("scope_digest", r.scopeDigest), ("reason", r.reason),
          ("options_json", r.optionsJson), ("evidence_refs_json", r.evidenceRefsJson),
          ("risk", r.risk), ("status", r.status), ("requested_at", r.requestedAt)]
      requireRef "approval_requests" "graph_id" r.graphId (db.workGraphs.map (·.id))
      requireRef "approval_requests" "node_id" r.nodeId (db.workNodes.map (·.id)))
    fun db => { db with approvalRequests := Table.replace (·.id.key) r db.approvalRequests }

/-- `UPDATE t SET … WHERE id=?`: the NOT NULL columns it sets are checked when a row matches. -/
def updateWhere {ρ : Type} (table : String) (columns : List (String × SqlVal)) (get : Db → List ρ)
    (set : List ρ → Db → Db) (id : ρ → SqlVal) (v : SqlVal) (f : ρ → ρ) : Act Exc Db Bool := do
  let hit := (get (← EStateM.get)).any fun r => v ≠ .null && id r = v
  exec (fun _ => if hit then requireNotNull table columns else .ok ())
    fun db => set (Table.update (fun r => v ≠ .null && id r = v) f (get db)) db
  return hit

/-- `UPDATE capabilities … WHERE id=?`; whether a row matched. -/
def updateCapability (columns : List (String × SqlVal)) (v : SqlVal)
    (f : CapabilityRow → CapabilityRow) : Act Exc Db Bool :=
  updateWhere "capabilities" columns Db.capabilities (fun t db => { db with capabilities := t })
    CapabilityRow.id v f

/-- `UPDATE memory_records … WHERE id=?`. -/
def updateRecord (columns : List (String × SqlVal)) (v : SqlVal) (f : RecordRow → RecordRow) :
    Act Exc Db Bool :=
  updateWhere "memory_records" columns Db.memoryRecords (fun t db => { db with memoryRecords := t })
    RecordRow.id v f

/-- `UPDATE work_graphs … WHERE id=?`. -/
def updateGraph (columns : List (String × SqlVal)) (v : SqlVal) (f : GraphRow → GraphRow) :
    Act Exc Db Bool :=
  updateWhere "work_graphs" columns Db.workGraphs (fun t db => { db with workGraphs := t })
    GraphRow.id v f

/-- `UPDATE work_nodes … WHERE id=?`. -/
def updateNode (columns : List (String × SqlVal)) (v : SqlVal) (f : NodeRow → NodeRow) :
    Act Exc Db Bool :=
  updateWhere "work_nodes" columns Db.workNodes (fun t db => { db with workNodes := t })
    NodeRow.id v f

/-- `UPDATE approval_requests … WHERE id=?`. -/
def updateApproval (columns : List (String × SqlVal)) (v : SqlVal)
    (f : ApprovalRow → ApprovalRow) : Act Exc Db Bool :=
  updateWhere "approval_requests" columns Db.approvalRequests
    (fun t db => { db with approvalRequests := t }) ApprovalRow.id v f

/-- The `DELETE FROM` of every table above, children before parents. -/
def clearTables (db : Db) : Db :=
  { db with
    memoryEvents := [], memorySources := [], memoryRecords := [], approvalAdvice := [],
    approvalRequests := [], workAttempts := [], workEdges := [], workNodes := [],
    workGraphs := [], capabilityPermissions := [], capabilityVersions := [], capabilities := [] }

end Shiroe
