import Shiroe.Memory.Service
import Shiroe.Verification.Review
import Shiroe.Work.Store

/-!
# Handoffs

`handoff/compiler.py`: a handoff is put together from the tables of work graphs and approvals and
from the active memory records that its target may see, and written as one JSON and one Markdown
file.  The entry that the export of private records leaves in the audit log is part of what
`compileHandoff` returns, and so are the two files, as paths with their texts.
-/

namespace Shiroe

open Act

/-! ### Texts -/

namespace Json

/-- The line break before an item at a depth. -/
def newline (depth : ℕ) : List Char := '\n' :: List.replicate (2 * depth) ' '

mutual
/-- `json.dumps(v, indent=2, sort_keys=True)` for a value at a depth. -/
def pretty (depth : ℕ) : Json → List Char
  | .arr l => if l.isEmpty then ['[', ']'] else
      '[' :: prettyItems (depth + 1) l ++ newline depth ++ [']']
  | .obj d => if d.isEmpty then ['{', '}'] else
      '{' :: prettyFields (depth + 1) d ++ newline depth ++ ['}']
  | j => j.dumps true
/-- The items of an array, each on a line of its own. -/
def prettyItems (depth : ℕ) : List Json → List Char
  | [] => []
  | [a] => newline depth ++ pretty depth a
  | a :: b :: l => newline depth ++ pretty depth a ++ ',' :: prettyItems depth (b :: l)
/-- The fields of an object, each on a line of its own. -/
def prettyFields (depth : ℕ) : List (String × Json) → List Char
  | [] => []
  | [(k, a)] => newline depth ++ dumpsStr true k ++ ':' :: ' ' :: pretty depth a
  | (k, a) :: b :: d =>
    newline depth ++ dumpsStr true k ++ ':' :: ' ' :: pretty depth a ++ ',' ::
      prettyFields depth (b :: d)
end

example : String.ofList ((mkObj [("b", .arr [.int 1, .str "x"]), ("a", .arr [])]).pretty 0) =
    "\x7b\n  \"a\": [],\n  \"b\": [\n    1,\n    \"x\"\n  ]\n\x7d" := by decide +kernel

/-- `a or b or …`: the first value that counts, the last one if none does. -/
def firstTruthy : List Json → Json
  | [] => .null
  | [a] => a
  | a :: b :: l => if a.truthy then a else firstTruthy (b :: l)

end Json

/-- `s.rstrip()`. -/
def rstrip (s : String) : String := String.ofList (s.toList.reverse.dropWhile isSpace).reverse

/-- `s.title()` for a single word. -/
def titleWord (s : String) : String :=
  match s.toList with
  | [] => ""
  | c :: l => String.ofList (c.toUpper :: l.map Char.toLower)

/-- `sorted(set(l))`. -/
def sortedSet (l : List String) : List String := l.dedup.insertionSort (· ≤ ·)

/-- `source.startswith(("http://", "https://"))`. -/
def isUrl (source : String) : Bool := startsWith source "http://" || startsWith source "https://"

/-- `strftime("%Y%m%dT%H%M%SZ")` of the time that `isoformat` writes. -/
def compactStamp (iso : String) : String :=
  String.ofList (((iso.toList.take 19).filter fun c => c ≠ '-' ∧ c ≠ ':') ++ ['Z'])

/-! ### The arguments and the filter -/

/-- `TARGETS`. -/
def handoffTargets : List String := ["codex", "claude", "cursor", "github", "human"]

/-- The arguments of `compile_handoff`. -/
structure HandoffArgs where
  target : String
  graphId : Option String := none
  objective : String := "Continue from current Shiroe memory state."
  includePrivate : Bool := false

/-- The privacy class that counts: one that nobody knows counts as internal. -/
def effectiveClass (privacyClass : String) : String :=
  if privacyClass ∈ allowedPrivacyClasses then privacyClass else "internal"

/-- The classes that a handoff may show. -/
def HandoffArgs.allowed (a : HandoffArgs) : List String :=
  if a.includePrivate then ["public", "internal", "confidential"]
  else if a.target = "human" then ["public", "internal"]
  else ["public"]

/-- The record is exported. -/
def HandoffArgs.shows (a : HandoffArgs) (m : MemoryRecord) : Bool :=
  effectiveClass m.privacyClass ∈ a.allowed

/-- `d[k] = d.get(k, 0) + 1`. -/
def countUp (k : String) : List (String × ℕ) → List (String × ℕ)
  | [] => [(k, 1)]
  | (k', n) :: d => if k = k' then (k', n + 1) :: d else (k', n) :: countUp k d

/-- `_filter_exportable_records`: what is exported, and how many records of each class are not. -/
def filterExportable (a : HandoffArgs) (records : List MemoryRecord) :
    List MemoryRecord × List (String × ℕ) :=
  let excluded := (records.filter fun m => !a.shows m).map fun m => effectiveClass m.privacyClass
  (records.filter a.shows, excluded.foldl (fun d k => countUp k d) [])

/-- The entry of `_log_private_export` in the audit log. -/
structure ExportAudit where
  eventType : String := "redaction"
  status : String := "override"
  reason : String
  guardsRun : List String := ["handoff_privacy_filter"]
  target : String
  privateAtomIds : List String
  deriving DecidableEq

/-- The lock on `memory/` is obtained. -/
def underLock : Op Unit := do
  let w ← get
  if w.dir.lockfile then throw .lockHeld

/-- `_log_private_export`. -/
def logPrivateExport (target : String) (records : List MemoryRecord) : Op ExportAudit := do
  underLock
  return {
    reason := "handoff compiled with include_private=True for target '" ++ target ++ "'"
    target
    privateAtomIds := (records.filter fun m => m.privacyClass ∈ ["internal", "confidential"] ∨
      m.privacyClass ∉ allowedPrivacyClasses).map (·.id) }

/-- The entry for an export of private records, if it is one. -/
def exportAudit (a : HandoffArgs) (records : List MemoryRecord) : Op (Option ExportAudit) :=
  if a.includePrivate then some <$> logPrivateExport a.target records else pure none

/-! ### The records of a packet -/

/-- What `_record_brief` shows of a record. -/
structure RecordBrief where
  id : String
  kind : String
  title : String
  claim : String
  summary : String
  source : String
  sourceRefs : List String
  evidence : String
  status : String
  deriving DecidableEq

/-- The source names a file. -/
def RecordBrief.isFile (b : RecordBrief) : Bool := b.source ≠ "" && !isUrl b.source

/-- The dict of a brief. -/
def RecordBrief.toJson (b : RecordBrief) : Json :=
  .mkObj [("id", .str b.id), ("kind", .str b.kind), ("title", .str b.title),
    ("claim", .str b.claim), ("summary", .str b.summary), ("source", .str b.source),
    ("source_refs", .strs b.sourceRefs),
    ("source_type", .str (if b.isFile then "file" else "user")), ("evidence", .str b.evidence),
    ("status", .str b.status)]

variable (H : Host)

/-- The source that a brief shows. -/
def MemoryRecord.sourceValue (m : MemoryRecord) : String := m.sourceRefs.head?.getD ""

/-- `_record_brief`. -/
def recordBrief (m : MemoryRecord) : RecordBrief where
  id := m.id
  kind := m.kind
  title := m.title
  claim := H.scrub m.claim
  summary := H.scrub m.summary
  source := H.scrub m.sourceValue
  sourceRefs := m.sourceRefs
  evidence := m.evidenceGrade
  status := m.status

/-- The redactions that `_record_brief` counts; `redacted` is `scrub(…)[1].redacted`. -/
def recordRedactions (redacted : String → ℕ) (m : MemoryRecord) : ℕ :=
  redacted m.claim + redacted m.summary + redacted m.sourceValue

/-- `_memory_files`. -/
def memoryFiles (briefs : List RecordBrief) : List String :=
  briefs.flatMap fun b => b.sourceRefs.filter fun s => s ≠ "" ∧ isUrl s = false

/-! ### What the tables give -/

/-- `json.loads(column or fallback)`. -/
def SqlVal.loadsGiven (fallback : Json) (v : SqlVal) : Except Exc Json :=
  if v = .text "" then .ok fallback else v.loadsOr fallback

/-- `_graph`. -/
def Db.handoffGraph (db : Db) (graphId : Option String) : Except Exc Json :=
  match given graphId with
  | none => .ok (.mkObj [])
  | some graphId => do
    let g ← db.getGraph H graphId
    return .mkObj [("id", .str g.id), ("objective", .str g.objective),
      ("status", .str g.status.value), ("version", .int g.version),
      ("constraints", .arr g.constraints),
      ("success_criteria", .arr g.successCriteria)]

/-- The dict that a handoff shows of a pending node. -/
def NodeRow.handoffNode (r : NodeRow) : Except Exc Json := do
  let requires ← r.requiresJson.loadsGiven (.arr [])
  let metadata ← r.metadataJson.loadsGiven (.mkObj [])
  return .mkObj [("id", r.id.read), ("kind", r.kind.read), ("objective", r.objective.read),
    ("requires", requires), ("risk", r.risk.read), ("approval_required", .bool r.approvalRequired),
    ("independent_review", .bool r.independentReview),
    ("evidence_required", .bool r.evidenceRequired), ("metadata", metadata),
    ("status", r.status.read), ("state_version", .int r.stateVersion)]

/-- `_pending_nodes`; a status that is NULL is not `NOT IN` anything. -/
def Db.handoffNodes (db : Db) (graphId : Option String) : Except Exc (List Json) :=
  match given graphId with
  | none => .ok []
  | some graphId => do
    let _ ← bindText H (.str graphId)
    let rows := (db.nodesOf graphId).filter fun r =>
      r.status ≠ .null && r.status ≠ .text "completed" && r.status ≠ .text "skipped"
    (rows.insertionSort fun a b => idText a.id ≤ idText b.id).mapM NodeRow.handoffNode

/-- The dict that a handoff shows of a pending approval. -/
def ApprovalRow.handoffApproval (r : ApprovalRow) : Except Exc Json := do
  let scope ← r.scopeJson.loadsGiven (.mkObj [])
  let options ← r.optionsJson.loadsGiven (.arr [])
  let evidenceRefs ← r.evidenceRefsJson.loadsGiven (.arr [])
  return .mkObj [("id", r.id.read), ("graph_id", r.graphId.read), ("node_id", r.nodeId.read),
    ("approval_type", r.approvalType.read), ("action_kind", r.actionKind.read),
    ("requested_action", r.requestedAction.read), ("scope", scope),
    ("scope_digest", r.scopeDigest.read), ("reason", r.reason.read), ("options", options),
    ("evidence_refs", evidenceRefs), ("risk", r.risk.read), ("requested_at", r.requestedAt.read)]

/-- `ORDER BY requested_at DESC, id ASC`. -/
def RequestedLe (a b : ApprovalRow) : Prop :=
  idText b.requestedAt < idText a.requestedAt ∨
    idText b.requestedAt = idText a.requestedAt ∧ idText a.id ≤ idText b.id

instance : DecidableRel RequestedLe := fun _ _ => inferInstanceAs (Decidable (_ ∨ _))

/-- `_pending_approvals`. -/
def Db.handoffApprovals (db : Db) (graphId : Option String) : Except Exc (List Json) := do
  let key ← (given graphId).mapM fun graphId => bindText H (.str graphId)
  let rows := db.approvalRequests.filter fun r =>
    r.status = .text "pending" && key.all (r.graphId = ·)
  (rows.insertionSort RequestedLe).mapM ApprovalRow.handoffApproval

/-- `_verification`. -/
def Db.handoffVerification (db : Db) (graphId : Option String) : Except Exc (List Json) :=
  match given graphId with
  | none => .ok []
  | some graphId => do
    let _ ← bindText H (.str graphId)
    let blocked := (db.nodesOf graphId).countP fun r => r.status = .text "blocked"
    return [.mkObj [("name", .str "work_graph_blockers"),
      ("status", .str (if blocked = 0 then "pass" else "block")), ("blocked_nodes", .int blocked)]]

/-- `_node_files`. -/
def nodeFiles (nodes : List Json) : Except Exc (List String) := do
  let files ← nodes.mapM fun node => do
    let metadata ← ((node.get "metadata").orElse (.mkObj [])).dict
    match (metadata.get "files").orElse (.arr []) with
    | .str file => return [file]
    | files => return (← files.items).map Json.pyText
  return files.flatten

/-! ### The packet -/

/-- `HandoffPacket`. -/
structure HandoffPacket where
  schema : String
  graph : Json
  pendingNodes : List Json
  pendingApprovals : List Json
  activeDecisions : List RecordBrief
  openRisks : List RecordBrief
  verification : List Json
  relevantFiles : List String
  nextActions : List Json
  generatedAt : String
  deriving DecidableEq

/-- `HandoffPacket.to_dict`. -/
def HandoffPacket.toDict (p : HandoffPacket) : Json :=
  .mkObj [("schema", .str p.schema), ("graph", p.graph), ("pending_nodes", .arr p.pendingNodes),
    ("pending_approvals", .arr p.pendingApprovals),
    ("active_decisions", .arr (p.activeDecisions.map RecordBrief.toJson)),
    ("open_risks", .arr (p.openRisks.map RecordBrief.toJson)),
    ("verification", .arr p.verification), ("relevant_files", .strs p.relevantFiles),
    ("next_actions", .arr p.nextActions), ("generated_at", .str p.generatedAt)]

/-- `_compile_packet`. -/
def Db.compilePacket (db : Db) (graphId : Option String) (records : List MemoryRecord)
    (objective generatedAt : String) : Except Exc HandoffPacket := do
  let graph ← db.handoffGraph H graphId
  let pendingNodes ← db.handoffNodes H graphId
  let pendingApprovals ← db.handoffApprovals H graphId
  let activeDecisions := (records.filter (·.kind = "decision")).map (recordBrief H)
  let openRisks := (records.filter (·.kind ∈ ["risk", "contradiction"])).map (recordBrief H)
  let files ← nodeFiles pendingNodes
  let nextActions := (pendingNodes.take 5).map (·.get "objective")
  let verification ← db.handoffVerification H graphId
  return {
    schema := "shiroe.handoff/v1"
    graph :=
      if graph.truthy = false ∧ objective ≠ "" then
        .mkObj [("id", .ofOption graphId), ("objective", .str objective), ("version", .null),
          ("status", .str "unknown")]
      else graph
    relevantFiles := sortedSet (files ++ memoryFiles activeDecisions ++ memoryFiles openRisks)
    nextActions :=
      if nextActions = [] then [.str "Run targeted verification before continuing."]
      else nextActions
    pendingNodes, pendingApprovals, activeDecisions, openRisks, verification, generatedAt }

/-! ### The two files -/

/-- The `current_state` of `_legacy_payload`. -/
def currentState (records : List MemoryRecord) (packet : HandoffPacket) : Json :=
  let contradictions := records.filter (·.kind = "contradiction")
  .mkObj [("active_records", .int records.length), ("health_passed", .bool contradictions.isEmpty),
    ("open_contradictions", .int contradictions.length), ("graph_id", packet.graph.get "id"),
    ("pending_nodes", .int packet.pendingNodes.length),
    ("pending_approvals", .int packet.pendingApprovals.length)]

/-- `_legacy_payload`, as the fields of its dict. -/
def legacyPayload (target objective : String) (records : List MemoryRecord)
    (packet : HandoffPacket) : List (String × Json) :=
  let ofKind (kind : String) : Json :=
    .arr ((records.filter (·.kind = kind)).map fun m => (recordBrief H m).toJson)
  let sources := ((records.map (recordBrief H)).filter RecordBrief.isFile).map (·.source)
  [("current_state", currentState records packet), ("known_facts", ofKind "fact"),
    ("active_decisions", ofKind "decision"), ("open_risks", ofKind "risk"),
    ("open_contradictions", ofKind "contradiction"),
    ("relevant_files", .strs (sortedSet (packet.relevantFiles ++ sources))),
    ("do_not_touch", .strs ["generated memory views are projections, not authority"]),
    ("next_steps", .arr packet.nextActions),
    ("verification_checklist",
      .strs ["python3 -m pytest -q", "python3 -m shiroe doctor --json"]),
    ("memory_health_summary", .mkObj [("active_records", .int records.length),
      ("open_contradictions", .int (records.filter (·.kind = "contradiction")).length),
      ("target", .str target), ("objective", .str objective)])]

/-- The text of the JSON file. -/
def jsonText (target objective : String) (records : List MemoryRecord) (packet : HandoffPacket) :
    String :=
  let payload : Json := .mkObj ([("target", .str target), ("objective", .str objective),
    ("schema", .str packet.schema), ("packet", packet.toDict)] ++
      legacyPayload H target objective records packet)
  String.ofList (payload.pretty 0 ++ ['\n'])

/-- The line of an item under a heading. -/
def itemLine (item : Json) : String :=
  if item.isObj then
    let label := Json.firstTruthy [item.get "objective", item.get "requested_action",
      item.get "claim", item.get "name", item.get "id"]
    let detail := Json.firstTruthy [item.get "id", item.get "status", .str ""]
    if detail.truthy then "- " ++ label.pyText ++ " (" ++ detail.pyText ++ ")"
    else "- " ++ label.pyText
  else "- " ++ item.pyText

/-- `_extend_items`. -/
def extendItems (title : String) (items : List Json) : List String :=
  ["", "## " ++ title, ""] ++ if items = [] then ["- none"] else items.map itemLine

/-- `_render_markdown`. -/
def renderMarkdown (target objective : String) (packet : HandoffPacket) : String :=
  let graph (key fallback : String) : String :=
    ((packet.graph.get key).orElse (.str fallback)).pyText
  let lines := ["# " ++ titleWord target ++ " Handoff", "", "## Objective", "", objective, "",
      "## Graph", "", "- id: " ++ graph "id" "none", "- status: " ++ graph "status" "unknown",
      "- version: " ++ graph "version" "unknown"] ++
    extendItems "Pending Nodes" packet.pendingNodes ++
    extendItems "Pending Approvals" packet.pendingApprovals ++
    extendItems "Active Decisions" (packet.activeDecisions.map RecordBrief.toJson) ++
    extendItems "Open Risks" (packet.openRisks.map RecordBrief.toJson) ++
    extendItems "Verification" packet.verification ++
    extendItems "Relevant Files" (packet.relevantFiles.map .str) ++
    extendItems "Next Actions" packet.nextActions
  rstrip (String.intercalate "\n" lines) ++ "\n"

/-- What a handoff shows: the packet and the two files, with what is returned and logged about the
records in them. -/
structure Artifacts where
  packet : HandoffPacket
  /-- The path under `memory/handoffs`, and the text. -/
  json : String × String
  markdown : String × String
  summary : Json
  fieldRedactions : ℕ
  includePrivate : Bool
  audit : Option ExportAudit
  deriving DecidableEq

/-- What `compile_handoff` returns. -/
structure Handoff where
  artifacts : Artifacts
  excludedAtoms : List (String × ℕ)

variable (redacted : String → ℕ)

/-- `compile_handoff` from the filter on. -/
def writeHandoff (a : HandoffArgs) (records : List MemoryRecord) : Op Artifacts := do
  let audit ← exportAudit a records
  let generatedAt ← now H
  let objective := H.scrub a.objective
  let packet ← readDb (·.compilePacket H a.graphId records objective generatedAt)
  let markdown := renderMarkdown a.target objective packet
  let json := jsonText H a.target objective records packet
  let when ← now H
  let basename := a.target ++ "-" ++ compactStamp when
  underLock
  if H.encodes markdown = false then throw (.unicodeEncode markdown)
  return {
    packet, audit
    json := (basename ++ ".json", json)
    markdown := (basename ++ ".md", markdown)
    summary := currentState records packet
    fieldRedactions := redacted a.objective + (records.map (recordRedactions redacted)).sum
    includePrivate := a.includePrivate }

/-- `compile_handoff`. -/
def compileHandoff (a : HandoffArgs) : Op Handoff := do
  if a.target ∉ handoffTargets then
    throw (.valueError ("unsupported handoff target: " ++ a.target))
  let allRecords ← listMemory H {}
  let (records, excludedAtoms) := filterExportable a allRecords
  let artifacts ← writeHandoff H redacted a records
  return { artifacts, excludedAtoms }

end Shiroe
