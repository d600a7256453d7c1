import Shiroe.Policy.Approvals
import Shiroe.Capabilities.Store

/-!
# Human decisions

`ApprovalService.decide_human`: a decision on a request is written to the log, and the approval of
a capability request moves the capability in the registry.

* `emit_decided` : a decision changes the rows under the id after redaction, and of these only the
  status and what is said of the decision.
-/

namespace Shiroe

open Act

variable (H : Host)

/-- The arguments of `decide_human`. -/
structure DecisionArgs where
  approvalId : String
  decision : String
  actor : String
  reason : String
  actorKind : Option String := none

namespace DecisionArgs

variable (d : DecisionArgs)

/-- The event of a decision. -/
def event (status : ApprovalStatus) (decidedAt : String) : EventEnvelope where
  eventType := "approval.decided"
  actor := d.actor
  target := some ("approval:" ++ d.approvalId)
  payload := .mkObj [("id", .str d.approvalId), ("decision", .str status.value),
    ("actor", .str d.actor), ("actor_kind", .ofOption d.actorKind), ("reason", .str d.reason),
    ("decided_at", .str decidedAt)]

/-- The checks that come before anything is read: the actor is human, and the decision is one that
a human can take. -/
def check : Except Exc ApprovalStatus := do
  if d.actor ≠ "human" ∨ (d.actorKind ≠ none ∧ d.actorKind ≠ some "human") then .error .notHuman
  else
    let status ← ApprovalStatus.ofText d.decision
    if status = .pending ∨ status = .stale then
      .error (.valueError (pyRepr status.value ++ " is not a human decision"))
    else .ok status

end DecisionArgs

/-- `req.scope.get("capability_id")` for an approved capability request, unless it is empty. -/
def approvedCapability (req : ApprovalRequest) (status : ApprovalStatus) : Option Json :=
  if req.approvalType = .capability ∧ status = .approved ∧
      (req.scope.get "capability_id").truthy then
    some (req.scope.get "capability_id")
  else none

/-- `ApprovalService.decide_human`. -/
def decideHuman (i : ℕ) (d : DecisionArgs) : Op ApprovalRequest := do
  let status ← Act.ofExcept d.check
  let _ ← getApproval H d.approvalId
  let decidedAt ← now H
  let _ ← emit H i (d.event status decidedAt)
  let req ← getApproval H d.approvalId
  match approvedCapability req status with
  | none => return req
  | some capabilityId =>
    let j ← newLog
    setLifecycle H j capabilityId Lifecycle.approved.value "human"
    return req

/-! ### What a decision writes -/

/-- A row after a decision. -/
def ApprovalRow.decide (status decidedAt decidedBy decisionReason : SqlVal) (r : ApprovalRow) :
    ApprovalRow :=
  { r with status, decidedAt, decidedBy, decisionReason }

/-- The approval requests after a decision on the request under an id. -/
def Db.decided (db : Db) (id status decidedAt decidedBy decisionReason : String) : Db :=
  { db with
    approvalRequests := Table.update (fun r => r.id = .text id)
      (.decide (.text status) (.text decidedAt) (.text decidedBy) (.text decisionReason))
      db.approvalRequests }

variable {H}

theorem wp_updateApproval {columns : List (String × SqlVal)} {id : String}
    {f : ApprovalRow → ApprovalRow} (hc : ∀ c ∈ columns, c.2.isNull = false) {db : Db}
    {Q : Bool → Db → Prop} {E : Exc → Db → Prop}
    (hQ : ∀ b, Q b { db with
      approvalRequests := Table.update (fun r => r.id = .text id) f db.approvalRequests }) :
    Act.wp (updateApproval columns (.text id) f) Q E db := by
  have hcheck : requireNotNull "approval_requests" columns = .ok () := requireNotNull_eq_ok.2 hc
  unfold updateApproval updateWhere
  rw [wp_bind, wp_of_ok (show EStateM.get db = .ok db db from rfl), wp_bind, wp_exec]
  simp only [hcheck, ite_self, wp_pure]
  have hmatch : (fun r : ApprovalRow => SqlVal.text id ≠ .null && r.id = .text id) =
      fun r => decide (r.id = .text id) := by
    funext r
    simp
  simp only [hmatch]
  exact hQ _

theorem applyDecided_spec {p : Json} {id status decidedAt actor reason : String}
    (hid : p.get "id" = .str id) (hs : p.get "decision" = .str status)
    (ha : p.get "actor" = .str actor) (hr : p.get "reason" = .str reason)
    (hd : p.get "decided_at" = .str decidedAt) (db : Db) :
    Act.wp (applyDecided H p)
      (fun _ db' => db' = db.decided id status decidedAt actor reason)
      (fun _ db' => db' = db) db := by
  have hsome : anyNone p ["id", "decision", "actor", "reason", "decided_at"] = false := by
    simp [anyNone, hid, hs, ha, hr, hd]
  have htext : ∀ {s : String} {Q : SqlVal → Db → Prop}, Q (.text s) db →
      Act.wp (text H (.str s)) Q (fun _ db' => db' = db) db := fun hQ =>
    wp_text_any (fun _ => rfl) fun v hv => bindText_str_eq_ok hv ▸ hQ
  unfold applyDecided
  simp only [hsome, Bool.false_eq_true, if_false, hid, hs, ha, hr, hd]
  iterate 5
    rw [wp_bind]
    refine htext ?_
  rw [wp_bind]
  refine wp_updateApproval (by simp) fun b => ?_
  rw [wp_pure]
  rfl

/-- **A decision changes the rows under the id after redaction.** -/
theorem emit_decided (i : ℕ) (d : DecisionArgs) (status : ApprovalStatus) (decidedAt : String)
    (w : World) :
    Act.wp (emit H i (d.event status decidedAt))
      (fun _ w' => w'.rest = w.rest ∧ ∃ db : Db, db.exceptMirror = w.db.exceptMirror ∧
        w'.db = db.decided (H.scrub d.approvalId) (H.scrub status.value) (H.scrub decidedAt)
          (H.scrub d.actor) (H.scrub d.reason))
      (fun _ w' => w'.rest = w.rest ∧ w'.db.exceptMirror = w.db.exceptMirror) w := by
  refine emit_of_fold (Q := fun db db' => db' = db.decided (H.scrub d.approvalId)
    (H.scrub status.value) (H.scrub decidedAt) (H.scrub d.actor) (H.scrub d.reason))
    (fun env henv db => ?_) i
  rw [applyEvent_decided (henv.payloadOf (Json.isObj_mkObj _)) henv.eventType, touched, wp_map]
  refine applyDecided_spec ?_ ?_ ?_ ?_ ?_ db <;> simp [DecisionArgs.event, List.lookup]

/-- What a request reads off its row besides what a decision changes. -/
theorem ApprovalRow.load_eq_ok {r : ApprovalRow} {req : ApprovalRequest} (h : r.load H = .ok req) :
    (∃ scope, r.scopeJson.loads = .ok scope ∧ scope.toDict = .ok req.scope ∧
      Shiroe.scopeDigest H req.scope = .ok req.digest) ∧
    (∃ t, r.approvalType.asStr = .ok t ∧ ApprovalType.ofText t = .ok req.approvalType) ∧
    (∃ t, r.status.asStr = .ok t ∧ ApprovalStatus.ofText t = .ok req.status) ∧
    r.id.asStr = .ok req.id := by
  unfold ApprovalRow.load at h
  obtain ⟨id, hid, h⟩ := except_bind_eq_ok.1 h
  obtain ⟨action, -, h⟩ := except_bind_eq_ok.1 h
  obtain ⟨reason, -, h⟩ := except_bind_eq_ok.1 h
  obtain ⟨type, htype, h⟩ := except_bind_eq_ok.1 h
  obtain ⟨status, hstatus, h⟩ := except_bind_eq_ok.1 h
  obtain ⟨scope, hscope, h⟩ := except_bind_eq_ok.1 h
  obtain ⟨options, -, h⟩ := except_bind_eq_ok.1 h
  obtain ⟨refs, -, h⟩ := except_bind_eq_ok.1 h
  obtain ⟨⟨t, st, scope', digest⟩, hcheck, h⟩ := except_bind_eq_ok.1 h
  obtain ⟨risk, -, h⟩ := except_bind_eq_ok.1 h
  obtain ⟨requestedAt, -, h⟩ := except_bind_eq_ok.1 h
  cases h
  obtain ⟨ht, hst, hs, hd⟩ := checkRequest_eq_ok hcheck
  exact ⟨⟨scope, hscope, hs, hd⟩, ⟨type, htype, ht⟩, ⟨status, hstatus, hst⟩, hid⟩

/-- A decision leaves what a request asks for. -/
theorem load_decide {r : ApprovalRow} {a b c d : SqlVal} {req req' : ApprovalRequest}
    (h : r.load H = .ok req) (h' : (r.decide a b c d).load H = .ok req') :
    req'.approvalType = req.approvalType ∧ req'.scope = req.scope := by
  obtain ⟨⟨s, hs, hreq, -⟩, ⟨t, ht, htype⟩, -, -⟩ := ApprovalRow.load_eq_ok h
  obtain ⟨⟨s', hs', hreq', -⟩, ⟨t', ht', htype'⟩, -, -⟩ := ApprovalRow.load_eq_ok h'
  change r.scopeJson.loads = .ok s' at hs'
  change r.approvalType.asStr = .ok t' at ht'
  rw [hs] at hs'
  rw [ht] at ht'
  cases hs'
  cases ht'
  rw [hreq] at hreq'
  rw [htype] at htype'
  exact ⟨(Except.ok.inj htype').symm, (Except.ok.inj hreq').symm⟩

theorem getApproval_decided {db : Db} {id a b c d approvalId : String} {req req' : ApprovalRequest}
    (h : db.getApproval H approvalId = .ok req)
    (h' : (db.decided id a b c d).getApproval H approvalId = .ok req') :
    req'.approvalType = req.approvalType ∧ req'.scope = req.scope := by
  have hfind : (db.decided id a b c d).approval? approvalId =
      (db.approval? approvalId).map fun r =>
        if r.id = .text id then r.decide (.text a) (.text b) (.text c) (.text d) else r := by
    have h := Table.find?_update (t := db.approvalRequests) (p := fun r => r.id = .text id)
      (f := ApprovalRow.decide (.text a) (.text b) (.text c) (.text d))
      (q := fun r => r.id = .text approvalId) fun _ => rfl
    simpa [Db.approval?, Db.decided] using h
  unfold Db.getApproval at h h'
  obtain ⟨v, -, h⟩ := except_bind_eq_ok.1 h
  obtain ⟨v', -, h'⟩ := except_bind_eq_ok.1 h'
  rw [hfind] at h'
  cases hr : db.approval? approvalId with
  | none =>
    rw [hr] at h
    cases h
  | some r =>
    rw [hr] at h h'
    simp only [Option.map_some] at h h'
    split_ifs at h'
    · exact load_decide h h'
    · rw [h] at h'
      cases h'
      exact ⟨rfl, rfl⟩

/-- The capability that an approval of the request under an id would move. -/
def Db.movedBy (H : Host) (db : Db) (approvalId : String) : Option Json :=
  match db.getApproval H approvalId with
  | .ok req => approvedCapability req .approved
  | .error _ => none

end Shiroe
