import Shiroe.Storage.Acceptance

/-!
# Human approvals

`policy/approvals.py` and `policy/approval_service.py` up to the decision: requests bound to a
scope, the lookups that find them, and the event that marks a request as stale.

* `requestApproval_synced`, `assertCurrent_synced` : the calls keep a world synced.
-/

namespace Shiroe

open Act

/-- The type of an approval request. -/
inductive ApprovalType where
  | action | strategic | exception | capability
  deriving DecidableEq, Repr

/-- The text of an approval type. -/
def ApprovalType.value : ApprovalType → String
  | action => "action"
  | strategic => "strategic"
  | exception => "exception"
  | capability => "capability"

/-- `ApprovalType(s)`. -/
def ApprovalType.ofText (s : String) : Except Exc ApprovalType :=
  match [ApprovalType.action, .strategic, .exception, .capability].find? (·.value = s) with
  | some t => .ok t
  | none => .error (.valueError (pyRepr s ++ " is not a valid ApprovalType"))

/-- The status of an approval request. -/
inductive ApprovalStatus where
  | pending | approved | rejected | revise | deferred | stale
  deriving DecidableEq, Repr

/-- The text of an approval status. -/
def ApprovalStatus.value : ApprovalStatus → String
  | pending => "pending"
  | approved => "approved"
  | rejected => "rejected"
  | revise => "revise"
  | deferred => "deferred"
  | stale => "stale"

/-- `ApprovalStatus(s)`. -/
def ApprovalStatus.ofText (s : String) : Except Exc ApprovalStatus :=
  match [ApprovalStatus.pending, .approved, .rejected, .revise, .deferred, .stale].find?
    (·.value = s) with
  | some t => .ok t
  | none => .error (.valueError (pyRepr s ++ " is not a valid ApprovalStatus"))

/-- `ApprovalRequest`. -/
structure ApprovalRequest where
  id : String
  approvalType : ApprovalType
  requestedAction : String
  scope : Json
  reason : String
  risk : String
  graphId : Option String
  nodeId : Option String
  actionKind : Option String
  options : List String
  evidenceRefs : List String
  status : ApprovalStatus
  requestedAt : String
  decidedAt : Option String := none
  decidedBy : Option String := none
  decisionReason : Option String := none
  digest : String

variable (H : Host)

/-- `scope_digest`. -/
def scopeDigest (scope : Json) : Except Exc String :=
  let encoded := String.ofList (scope.dumps false)
  if H.encodes encoded then .ok ("sha256:" ++ H.sha256 (scope.dumps false))
  else .error (.unicodeEncode encoded)

/-- The checks of `ApprovalRequest.__post_init__`, in order, and the digest it computes. -/
def checkRequest (id requestedAction reason approvalType status : String) (scope : Json) :
    Except Exc (ApprovalType × ApprovalStatus × Json × String) := do
  if blank id then .error (.valueError "approval id must be non-empty")
  else if blank requestedAction then .error (.valueError "requested_action must be non-empty")
  else if blank reason then .error (.valueError "reason must be non-empty")
  else
    let approvalType ← ApprovalType.ofText approvalType
    let status ← ApprovalStatus.ofText status
    let scope ← scope.toDict
    let digest ← scopeDigest H scope
    .ok (approvalType, status, scope, digest)

/-- The request that `get` builds from a row. -/
def ApprovalRow.load (r : ApprovalRow) : Except Exc ApprovalRequest := do
  let id ← r.id.asStr
  let requestedAction ← r.requestedAction.asStr
  let reason ← r.reason.asStr
  let approvalType ← r.approvalType.asStr
  let status ← r.status.asStr
  let scope ← r.scopeJson.loads
  let options ← r.optionsJson.asStrs
  let evidenceRefs ← r.evidenceRefsJson.asStrs
  let (approvalType, status, scope, digest) ←
    checkRequest H id requestedAction reason approvalType status scope
  return {
    id, approvalType, requestedAction, scope, reason, options, evidenceRefs, status, digest
    risk := ← r.risk.asStr
    graphId := r.graphId.text?
    nodeId := r.nodeId.text?
    actionKind := r.actionKind.text?
    requestedAt := ← r.requestedAt.asStr
    decidedAt := r.decidedAt.text?
    decidedBy := r.decidedBy.text?
    decisionReason := r.decisionReason.text? }

/-- The row of the request with the given id. -/
def Db.approval? (db : Db) (id : String) : Option ApprovalRow :=
  db.approvalRequests.find? fun r => r.id = .text id

/-- `get` on the tables. -/
def Db.getApproval (db : Db) (id : String) : Except Exc ApprovalRequest := do
  let _ ← bindText H (.str id)
  match db.approval? id with
  | none => .error (.keyError id)
  | some r => r.load H

/-- `ApprovalService.get`. -/
def getApproval (id : String) : Op ApprovalRequest := readDb (·.getApproval H id)

/-! ### Requests -/

/-- The arguments of `ApprovalService.request`. -/
structure RequestArgs where
  approvalType : String
  requestedAction : String
  scope : Json
  reason : String
  risk : String
  graphId : Option String := none
  nodeId : Option String := none
  actionKind : Option String := none
  options : List String := []
  evidenceRefs : List String := []
  requestId : Option String := none

namespace RequestArgs

variable (a : RequestArgs)

/-- The event of a request. -/
def event (id requestedAt : String) (approvalType : ApprovalType) (scope : Json) (digest : String) :
    EventEnvelope where
  eventType := "approval.requested"
  actor := "system"
  target := some ("approval:" ++ id)
  payload := .mkObj [("id", .str id), ("graph_id", .ofOption a.graphId),
    ("node_id", .ofOption a.nodeId), ("approval_type", .str approvalType.value),
    ("action_kind", .ofOption a.actionKind), ("requested_action", .str a.requestedAction),
    ("scope", scope), ("scope_digest", .str digest), ("reason", .str a.reason),
    ("options", .strs a.options), ("evidence_refs", .strs a.evidenceRefs), ("risk", .str a.risk),
    ("status", .str ApprovalStatus.pending.value), ("requested_at", .str requestedAt)]

end RequestArgs

/-- `request_id or f"apr_{uuid.uuid4().hex}"`. -/
def requestId (given? : Option String) : Op String :=
  match given given? with
  | some id => pure id
  | none => do return "apr_" ++ (← uuidHex H)

/-- `ApprovalService.request`: the id of the request. -/
def requestApproval (i : ℕ) (a : RequestArgs) : Op String := do
  let id ← requestId H a.requestId
  let requestedAt ← now H
  let (approvalType, _, scope, digest) ← Act.ofExcept
    (checkRequest H id a.requestedAction a.reason a.approvalType ApprovalStatus.pending.value
      a.scope)
  let _ ← emit H i (a.event id requestedAt approvalType scope digest)
  return id

/-! ### Staleness -/

/-- The event of a request whose scope has changed. -/
def staledEvent (id priorDigest currentDigest : String) : EventEnvelope where
  eventType := "approval.staled"
  actor := "system"
  target := some ("approval:" ++ id)
  payload := .mkObj [("id", .str id), ("prior_digest", .str priorDigest),
    ("current_digest", .str currentDigest), ("reason", .str "scope changed")]

/-- `ApprovalService.assert_current`. -/
def assertCurrent (i : ℕ) (id : String) (currentScope : Json) : Op ApprovalRequest := do
  let req ← getApproval H id
  let currentDigest ← Act.ofExcept (scopeDigest H currentScope)
  if currentDigest = req.digest then return req
  else do
    let _ ← emit H i (staledEvent id req.digest currentDigest)
    getApproval H id

/-! ### Lookups -/

/-- The keys of `find_latest_matching`. -/
structure MatchKey where
  graphId : Option String
  nodeId : Option String
  actionKind : Option String
  requestedAction : String
  digest : String

/-- `COALESCE(x, '')` for an optional parameter. -/
def coalesceText (t : Option String) : SqlVal := .text (t.getD "")

/-- The row has the keys. -/
def ApprovalRow.hasKey (r : ApprovalRow) (k : MatchKey) : Bool :=
  r.graphId.coalesce (.text "") = coalesceText k.graphId &&
    r.nodeId.coalesce (.text "") = coalesceText k.nodeId &&
    r.actionKind.coalesce (.text "") = coalesceText k.actionKind &&
    r.requestedAction = .text k.requestedAction && r.scopeDigest = .text k.digest

/-- `ORDER BY requested_at DESC LIMIT 1`. -/
def latestRequested (rows : List ApprovalRow) : Option ApprovalRow :=
  rows.argmax fun r => r.requestedAt.text?.getD ""

/-- The row of `find_latest_matching`. -/
def Db.latestMatching? (db : Db) (k : MatchKey) : Option ApprovalRow :=
  latestRequested (db.approvalRequests.filter (·.hasKey k))

/-- Bind the keys of a lookup. -/
def MatchKey.bind (k : MatchKey) : Except Exc Unit := do
  let _ ← bindText H (.ofOption k.graphId)
  let _ ← bindText H (.ofOption k.nodeId)
  let _ ← bindText H (.ofOption k.actionKind)
  let _ ← bindText H (.str k.requestedAction)
  let _ ← bindText H (.str k.digest)

/-- `ApprovalService.find_latest_matching` on the tables. -/
def Db.findLatestMatching (db : Db) (k : MatchKey) : Except Exc (Option ApprovalRequest) := do
  k.bind H
  match db.latestMatching? k with
  | none => .ok none
  | some r => do return some (← db.getApproval H (← r.id.asStr))

/-! ### What a request writes -/

/-- The row of a request. -/
def RequestArgs.row (a : RequestArgs) (id requestedAt : String) (approvalType : ApprovalType)
    (scope : Json) (digest : String) : ApprovalRow where
  id := .text (H.scrub id)
  graphId := optText (a.graphId.map H.scrub)
  nodeId := optText (a.nodeId.map H.scrub)
  approvalType := .text (H.scrub approvalType.value)
  actionKind := optText (a.actionKind.map H.scrub)
  requestedAction := .text (H.scrub a.requestedAction)
  scopeJson := .json (scope.mapStr H.scrub)
  scopeDigest := .text (H.scrub digest)
  reason := .text (H.scrub a.reason)
  optionsJson := .json ((Json.strs a.options).mapStr H.scrub)
  evidenceRefsJson := .json ((Json.strs a.evidenceRefs).mapStr H.scrub)
  risk := .text (H.scrub a.risk)
  status := .text (H.scrub ApprovalStatus.pending.value)
  requestedAt := .text (H.scrub requestedAt)

/-- The tables with a request put in. -/
def Db.withRequest (db : Db) (r : ApprovalRow) : Db :=
  { db with approvalRequests := Table.replace (·.id.key) r db.approvalRequests }

variable {H}

theorem mapStr_ofOption (o : Option String) (f : String → String) :
    (Json.ofOption o).mapStr f = .ofOption (o.map f) := by
  cases o <;> rfl

theorem applyRequested_spec (a : RequestArgs) {id requestedAt digest : String}
    {approvalType : ApprovalType} {scope : Json} (hscope : scope.isObj = true) (db : Db) :
    let r := a.row H id requestedAt approvalType scope digest
    Act.wp (applyRequested H
      ((a.event id requestedAt approvalType scope digest).payload.mapStr H.scrub))
      (fun _ db' => db' = db.withRequest r) (fun _ db' => db' = db) db := by
  intro r
  have hstr : ∀ {j : Json} {s : String} {Q : SqlVal → Db → Prop} {db : Db}, j = .str s →
      Q (.text s) db → Act.wp (text H j) Q (fun _ db' => db' = db) db := fun hj hQ =>
    wp_text_any (fun _ => rfl) fun v hv => bindText_str_eq_ok (hj ▸ hv) ▸ hQ
  have hopt : ∀ {j : Json} {o : Option String} {Q : SqlVal → Db → Prop} {db : Db},
      j = .ofOption o → Q (optText o) db → Act.wp (text H j) Q (fun _ db' => db' = db) db :=
    fun hj hQ => wp_text_any (fun _ => rfl) fun v hv => bindText_ofOption_eq_ok (hj ▸ hv) ▸ hQ
  have hnull : scope.isNull = false := by
    cases scope with
    | obj d => rfl
    | _ => cases hscope
  -- what the payload holds, field by field
  have hp : ∀ p, p = (a.event id requestedAt approvalType scope digest).payload.mapStr H.scrub →
      anyNone p requestedFields = false ∧ p.get "id" = .str (H.scrub id) ∧
      p.get "graph_id" = .ofOption (a.graphId.map H.scrub) ∧
      p.get "node_id" = .ofOption (a.nodeId.map H.scrub) ∧
      p.get "approval_type" = .str (H.scrub approvalType.value) ∧
      p.get "action_kind" = .ofOption (a.actionKind.map H.scrub) ∧
      p.get "requested_action" = .str (H.scrub a.requestedAction) ∧
      p.get "scope" = scope.mapStr H.scrub ∧ p.get "scope_digest" = .str (H.scrub digest) ∧
      p.get "reason" = .str (H.scrub a.reason) ∧
      p.getD "options" (.arr []) = (Json.strs a.options).mapStr H.scrub ∧
      p.getD "evidence_refs" (.arr []) = (Json.strs a.evidenceRefs).mapStr H.scrub ∧
      p.get "risk" = .str (H.scrub a.risk) ∧
      p.get "status" = .str (H.scrub ApprovalStatus.pending.value) ∧
      p.get "requested_at" = .str (H.scrub requestedAt) := by
    rintro p rfl
    simp [anyNone, requestedFields, RequestArgs.event, List.lookup, hnull, mapStr_ofOption,
      Json.getD]
  obtain ⟨hnone, h₁, h₂, h₃, h₄, h₅, h₆, h₇, h₈, h₉, h₁₀, h₁₁, h₁₂, h₁₃, h₁₄⟩ := hp _ rfl
  generalize (a.event id requestedAt approvalType scope digest).payload.mapStr H.scrub = p at *
  unfold applyRequested
  rw [if_neg (by rw [hnone]; exact Bool.false_ne_true), wp_bind]
  refine hstr h₁ ?_
  rw [wp_bind]
  refine hopt h₂ ?_
  rw [wp_bind]
  refine hopt h₃ ?_
  rw [wp_bind]
  refine hstr h₄ ?_
  rw [wp_bind]
  refine hopt h₅ ?_
  rw [wp_bind]
  refine hstr h₆ ?_
  rw [wp_bind]
  refine hstr h₈ ?_
  rw [wp_bind]
  refine hstr h₉ ?_
  rw [wp_bind]
  refine hstr h₁₂ ?_
  rw [wp_bind]
  refine hstr h₁₃ ?_
  rw [wp_bind]
  refine hstr h₁₄ ?_
  rw [h₇, h₁₀, h₁₁, wp_bind, insertApproval, wp_exec]
  split
  · rw [wp_pure]
    rfl
  · rfl

theorem requestId_spec (given? : Option String) {w : World} {E : Exc → World → Prop} :
    Act.wp (requestId H given?) (fun id w' => (∃ n, w' = { w with drawn := n }) ∧
      ((∀ s ∈ given?, H.encodes s = true) → H.encodes id = true)) E w := by
  unfold requestId
  cases hg : given given? with
  | some id =>
    rw [wp_pure]
    refine ⟨⟨w.drawn, rfl⟩, fun h => h id ?_⟩
    cases given? with
    | none => cases hg
    | some s =>
      simp only [given, Option.filter] at hg
      split_ifs at hg
      exact hg
  | none =>
    simp only [wp_bind, wp_uuidHex, wp_pure]
    refine ⟨⟨_, rfl⟩, fun _ => ?_⟩
    rw [H.encodes_append, H.encodes_ascii "apr_" (by decide), H.encodes_ascii _ (H.uuid_ascii _)]
    rfl

theorem emit_requested (i : ℕ) (a : RequestArgs) {id requestedAt digest : String}
    {approvalType : ApprovalType} {scope : Json} (hscope : scope.isObj = true) (w : World) :
    Act.wp (emit H i (a.event id requestedAt approvalType scope digest))
      (fun _ w' => w'.rest = w.rest ∧ ∃ db : Db, db.exceptMirror = w.db.exceptMirror ∧
        w'.db = db.withRequest (a.row H id requestedAt approvalType scope digest))
      (fun _ w' => w'.rest = w.rest ∧ w'.db.exceptMirror = w.db.exceptMirror) w := by
  refine emit_of_fold (Q := fun db db' =>
    db' = db.withRequest (a.row H id requestedAt approvalType scope digest))
    (fun env henv db => ?_) i
  rw [applyEvent_requested (henv.payloadOf (Json.isObj_mkObj _)) henv.eventType, touched, wp_map]
  exact applyRequested_spec a hscope db

/-- What the checks of a request leave of its arguments. -/
theorem checkRequest_eq_ok {id requestedAction reason approvalType status digest : String}
    {scope scope' : Json} {t : ApprovalType} {st : ApprovalStatus}
    (h : checkRequest H id requestedAction reason approvalType status scope =
      .ok (t, st, scope', digest)) :
    ApprovalType.ofText approvalType = .ok t ∧ ApprovalStatus.ofText status = .ok st ∧
      scope.toDict = .ok scope' ∧ scopeDigest H scope' = .ok digest := by
  unfold checkRequest at h
  split_ifs at h
  obtain ⟨t', ht, h⟩ := except_bind_eq_ok.1 h
  obtain ⟨st', hst, h⟩ := except_bind_eq_ok.1 h
  obtain ⟨scope'', hs, h⟩ := except_bind_eq_ok.1 h
  obtain ⟨digest', hd, h⟩ := except_bind_eq_ok.1 h
  cases h
  exact ⟨ht, hst, hs, hd⟩

/-- **What a request writes**: its row, under the id after redaction. -/
theorem requestApproval_spec (i : ℕ) (a : RequestArgs) (w : World) :
    Act.wp (requestApproval H i a)
      (fun id w' => w'.rest = w.rest ∧ ∃ (t : ApprovalType) (scope : Json) (digest : String)
        (db : Db), ApprovalType.ofText a.approvalType = .ok t ∧ a.scope.toDict = .ok scope ∧
        scopeDigest H scope = .ok digest ∧ db.exceptMirror = w.db.exceptMirror ∧
        w'.db = db.withRequest (a.row H id (H.clock w.tick) t scope digest))
      (fun _ w' => w'.rest = w.rest ∧ w'.db.exceptMirror = w.db.exceptMirror) w := by
  unfold requestApproval
  rw [wp_bind]
  refine wp_mono (requestId_spec a.requestId) ?_ fun _ _ h => h
  rintro id w₁ ⟨⟨n, rfl⟩, -⟩
  rw [wp_bind, wp_now, wp_bind, wp_ofExcept]
  split
  · rename_i x hx
    obtain ⟨t, st, scope, digest⟩ := x
    obtain ⟨ht, -, hs, hd⟩ := checkRequest_eq_ok hx
    rw [wp_bind]
    refine wp_mono (emit_requested i a (Json.isObj_toDict hs) _) ?_ fun _ _ h => h
    rintro env w' ⟨hrest, db, hdb, hw'⟩
    rw [wp_pure]
    exact ⟨hrest, t, scope, digest, db, ht, hs, hd, hdb, hw'⟩
  · exact ⟨rfl, rfl⟩

/-! ### Keeping a world synced -/

theorem bindText_isOk {s : String} (h : (bindText H (.str s)).isOk = true) :
    H.encodes s = true := by
  change (SqlVal.asText H <$> (if H.encodes s = true then Except.ok (SqlVal.text s)
    else Except.error (Exc.unicodeEncode s))).isOk = true at h
  split_ifs at h with henc
  · exact henc
  · cases h

theorem encodes_of_getApproval {db : Db} {id : String} {r : ApprovalRequest}
    (h : db.getApproval H id = .ok r) : H.encodes id = true := by
  unfold Db.getApproval at h
  cases hb : bindText H (.str id) with
  | ok v => exact bindText_isOk (by rw [hb]; rfl)
  | error x =>
    rw [hb] at h
    cases h

theorem encodes_scopeDigest {scope : Json} {digest : String}
    (h : scopeDigest H scope = .ok digest) : H.encodes digest = true := by
  unfold scopeDigest at h
  simp only at h
  split_ifs at h
  cases h
  rw [H.encodes_append, H.encodes_ascii "sha256:" (by decide), H.encodes_ascii _ (H.sha256_ascii _)]
  rfl

/-- The texts of a request can be bound, and the graph and the node that it names are stored. -/
structure RequestArgs.Fits (H : Host) (db : Db) (a : RequestArgs) : Prop where
  texts : ∀ s ∈ [a.requestedAction, a.reason, a.risk], H.encodes s = true
  options : ∀ o ∈ [a.graphId, a.nodeId, a.actionKind, a.requestId], ∀ s ∈ o, H.encodes s = true
  graph : ∀ g ∈ a.graphId, .text (H.scrub g) ∈ db.workGraphs.map (·.id)
  node : ∀ n ∈ a.nodeId, .text (H.scrub n) ∈ db.workNodes.map (·.id)

theorem refers_scrub {o : Option String} {parents : List SqlVal}
    (h : ∀ s ∈ o, .text (H.scrub s) ∈ parents) :
    Refers ((boundVal ((Json.ofOption o).mapStr H.scrub)).asText H) parents := by
  cases o with
  | none => exact Or.inl rfl
  | some s => exact Or.inr (h s rfl)

theorem RequestArgs.Fits.not_rejects {a : RequestArgs} {w : World} (hf : a.Fits H w.db)
    {id requestedAt digest : String} {approvalType : ApprovalType} {scope : Json}
    (hid : H.encodes id = true) (hat : H.encodes requestedAt = true)
    (hd : H.encodes digest = true) :
    ¬ Rejects H (a.event id requestedAt approvalType scope digest) w := by
  obtain ⟨htexts, hoptions, hgraph, hnode⟩ := hf
  simp only [List.forall_mem_cons, List.not_mem_nil, false_imp_iff, implies_true, and_true]
    at htexts hoptions
  have hconst : ∀ t : ApprovalType, H.encodes t.value = true := by
    intro t
    cases t <;> exact H.encodes_ascii _ (by decide)
  refine Shiroe.not_rejects ⟨rfl, rfl⟩ (Json.isObj_mkObj _)
    ⟨H.encodes_ascii "approval.requested" (by decide), H.encodes_ascii "system" (by decide),
      H.encodes_ascii "internal" (by decide), by rintro s ⟨⟩, ?_⟩ fun env db henv hdb => ?_
  · rintro s ⟨⟩
    rw [H.encodes_append, H.encodes_ascii "approval:" (by decide), hid]
    rfl
  · rw [applyEvent_requested henv.payload henv.eventType]
    refine returns_touched ?_
    refine returns_applyRequested ?_ ?_ ?_
    · have hb : ∀ s, H.encodes s = true → Bindable H (.str (H.scrub s)) := H.scrub_encodes
      have ho : ∀ o : Option String, (∀ s ∈ o, H.encodes s = true) →
          Bindable H ((Json.ofOption o).mapStr H.scrub) :=
        fun o h => bindable_mapStr (bindable_ofOption h)
      have hpend : H.encodes ApprovalStatus.pending.value = true := H.encodes_ascii _ (by decide)
      simp only [event, Json.get_mapStr, Json.get_mkObj, List.lookup]
      simp [hb, hid, hat, hd, htexts, hconst, hpend]
      exact ⟨ho _ hoptions.1, ho _ hoptions.2.1, ho _ hoptions.2.2.1⟩
    · have hg : db.workGraphs = w.db.workGraphs := (congrArg Db.workGraphs hdb :)
      rw [hg]
      simpa [event, List.lookup] using refers_scrub hgraph
    · have hn : db.workNodes = w.db.workNodes := (congrArg Db.workNodes hdb :)
      rw [hn]
      simpa [event, List.lookup] using refers_scrub hnode

/-- The digest that a checked request gets. -/
theorem encodes_checkRequest {id requestedAction reason approvalType status digest : String}
    {scope scope' : Json} {t : ApprovalType} {st : ApprovalStatus}
    (h : checkRequest H id requestedAction reason approvalType status scope =
      .ok (t, st, scope', digest)) : H.encodes digest = true := by
  exact encodes_scopeDigest (checkRequest_eq_ok h).2.2.2

theorem getApproval_spec (id : String) (w : World) :
    Act.wp (getApproval H id) (fun r w' => w' = w ∧ w.db.getApproval H id = .ok r)
      (fun _ w' => w' = w) w := by
  rw [getApproval, wp_readDb]
  cases hr : w.db.getApproval H id with
  | ok r => exact ⟨rfl, rfl⟩
  | error x => rfl

section

variable {E : World → Prop} {w : World} (hmono : H.ClockMonotone) (h : Synced H w)
  (hE : ∀ w', Synced H w' → E w')

include hmono h hE

theorem requestApproval_synced (i : ℕ) (a : RequestArgs)
    (hfit : (∀ w', E w') ∨ a.Fits H w.db) :
    Act.wp (requestApproval H i a) (fun _ w' => Synced H w') (fun _ w' => E w') w := by
  unfold requestApproval
  rw [wp_bind]
  refine wp_mono (requestId_spec a.requestId) ?_ fun _ _ h => h
  rintro id _ ⟨⟨n, rfl⟩, hid⟩
  rw [wp_bind, wp_now, wp_bind, wp_ofExcept]
  have h₁ : Synced H { w with drawn := n, tick := w.tick + 1 } := h.congr rfl (Nat.le_succ _) rfl
  split
  · rename_i r hr
    obtain ⟨t, st, scope, digest⟩ := r
    rw [wp_bind]
    refine wp_mono (emit_safe hmono h₁ hE i ⟨rfl, rfl⟩ (hfit.imp_right fun hf => ?_))
      (fun _ _ h => (wp_pure _).2 h) fun _ _ h => h
    have hid' : H.encodes id = true := hid (hf.options a.requestId (by simp))
    exact RequestArgs.Fits.not_rejects (w := { w with drawn := n, tick := w.tick + 1 }) hf hid'
      (encodes_clock _) (encodes_checkRequest hr)
  · exact hE _ h₁

/-- A staled event is always accepted: its id was bound by the lookup before it. -/
theorem assertCurrent_synced (i : ℕ) (id : String) (currentScope : Json) :
    Act.wp (assertCurrent H i id currentScope) (fun _ w' => Synced H w') (fun _ w' => E w') w := by
  unfold assertCurrent
  rw [wp_bind]
  refine wp_mono (getApproval_spec id w) ?_ fun _ _ hw => hE _ (hw ▸ h)
  rintro req _ ⟨rfl, hreq⟩
  rw [wp_bind, wp_ofExcept]
  split
  · rename_i digest hd
    rw [wp_ite]
    refine ⟨fun _ => (wp_pure _).2 h, fun _ => ?_⟩
    rw [wp_bind]
    refine wp_mono (emit_safe hmono h hE i ⟨rfl, rfl⟩ (Or.inr ?_)) ?_ fun _ _ h => h
    · have henc := encodes_of_getApproval hreq
      have hb : Bindable H (.str (H.scrub id)) := H.scrub_encodes id henc
      refine Shiroe.not_rejects ⟨rfl, rfl⟩ (Json.isObj_mkObj _)
        ⟨H.encodes_ascii "approval.staled" (by decide), H.encodes_ascii "system" (by decide),
          H.encodes_ascii "internal" (by decide), by rintro s ⟨⟩, ?_⟩ fun env db henv _ => ?_
      · rintro s ⟨⟩
        rw [H.encodes_append, H.encodes_ascii "approval:" (by decide), henc]
        rfl
      · rw [applyEvent_staled henv.payload henv.eventType]
        refine returns_touched (returns_applyStaled ?_)
        simpa [staledEvent, List.lookup] using hb
    · intro env w' hw'
      exact wp_mono (getApproval_spec id w') (fun _ _ hr => hr.1 ▸ hw') fun _ _ hr =>
        hE _ (hr ▸ hw')
  · exact hE _ h

end

end Shiroe
