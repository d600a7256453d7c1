import Shiroe.Capabilities.Registry
import Shiroe.Memory.Writes
import Shiroe.Storage.Atomic
import Shiroe.Work.Steps

/-!
# Calls that raise

What is left behind by a call that raises one of its own errors: a missing row, a refused
transition, a version that has moved on, a value that is none of its kind.  Most calls check
everything before they append.  Three of them go on after the append: `supersede` and `archive` read
the record back, and `decide_human` reads the request back and moves a capability.

* `call_atomic` : when a call leaves the log and the tables as they were;
* `calls_atomic` : the same for every call of a run.
-/

namespace Shiroe

open Act

variable {H : Host}

/-- The exception is a `KeyError`, a `ValueError`, a `ConcurrentWorkUpdate` or an
`AuthorizationError`, or of a class derived from these. -/
def Exc.isDomain : Exc → Bool
  | .keyError _ => true
  | .valueError _ => true
  | .jsonDecode _ => true
  | .unicodeEncode _ => true
  | .missingField _ => true
  | .wrongSchema _ => true
  | .wrongPrivacyClass _ => true
  | .payloadNotObject => true
  | .unknownEventType _ => true
  | .chainBreak _ _ _ => true
  | .hashMismatch _ _ _ => true
  | .headAbsent _ => true
  | .headMismatch _ _ => true
  | .unknownRecordFields _ => true
  | .manifest _ => true
  | .onboarding _ => true
  | .workGraph _ => true
  | .invalidTransition _ _ _ => true
  | .concurrentWorkUpdate _ => true
  | .notHuman => true
  | _ => false

/-! ### The events -/

theorem encodes_of_known {t : String} (h : t ∈ knownEventTypes) : H.encodes t = true := by
  have hall : ∀ t ∈ knownEventTypes, Ascii t := by decide
  exact H.encodes_ascii t (hall t h)

/-- An event of one of the calls: everything but its texts is fixed. -/
theorem emittable_of {e : EventEnvelope} (htype : e.eventType ∈ knownEventTypes)
    (hclass : e.privacyClass = "internal") (hobj : e.payload.isObj = true) (hopen : e.Open)
    (hrun : e.runId = none) (hactor : H.encodes e.actor = true)
    (htarget : ∀ s ∈ e.target, H.encodes s = true)
    (hfolds : ∀ env db, ReadsAs H e env → Returns (applyEvent H env) db) : Emittable H e where
  valid := ⟨htype, by rw [hclass]; decide, hobj⟩
  opened := hopen
  mirrorable := by
    refine ⟨encodes_of_known htype, hactor, ?_, ?_, htarget⟩
    · rw [hclass]
      exact H.encodes_ascii "internal" (by decide)
    · rw [hrun]
      rintro s ⟨⟩
  folds := hfolds

theorem encodes_target (pre : String) {id : String} (hpre : Ascii pre) (hid : H.encodes id = true) :
    ∀ s ∈ some (pre ++ id), H.encodes s = true := by
  rintro s ⟨⟩
  rw [H.encodes_append, H.encodes_ascii pre hpre, hid]
  rfl

theorem encodes_system : H.encodes "system" = true := H.encodes_ascii _ (by decide)

theorem staledEvent_emittable {id : String} (hid : H.encodes id = true) (prior current : String) :
    Emittable H (staledEvent id prior current) := by
  have htype : "approval.staled" ∈ knownEventTypes := by decide
  refine emittable_of htype rfl (Json.isObj_mkObj _) ⟨rfl, rfl⟩ rfl encodes_system
    (encodes_target "approval:" (by decide) hid) fun env db henv => ?_
  have hb : Bindable H (.str (H.scrub id)) := H.scrub_encodes id hid
  rw [applyEvent_staled henv.payload henv.eventType]
  refine returns_touched (returns_applyStaled ?_)
  simpa [staledEvent, List.lookup] using hb

theorem decidedEvent_emittable {d : DecisionArgs} {status : ApprovalStatus}
    (hcheck : d.check = .ok status) (hid : H.encodes d.approvalId = true)
    (hreason : H.encodes d.reason = true) (n : ℕ) : Emittable H (d.event status (H.clock n)) := by
  have hactor : d.actor = "human" := by
    unfold DecisionArgs.check at hcheck
    split_ifs at hcheck with h
    exact not_not.1 (not_or.1 h).1
  have henc : H.encodes d.actor = true := by
    rw [hactor]
    exact H.encodes_ascii "human" (by decide)
  have hstatus : H.encodes status.value = true := by
    cases status <;> exact H.encodes_ascii _ (by decide)
  have htype : "approval.decided" ∈ knownEventTypes := by decide
  refine emittable_of htype rfl (Json.isObj_mkObj _) ⟨rfl, rfl⟩ rfl henc
    (encodes_target "approval:" (by decide) hid) fun env db henv => ?_
  rw [applyEvent_decided henv.payload henv.eventType]
  refine returns_touched (returns_applyDecided ?_)
  have hb : ∀ s, H.encodes s = true → Bindable H (.str (H.scrub s)) := H.scrub_encodes
  simp [DecisionArgs.event, List.lookup, hb, hid, hreason, henc, hstatus, encodes_clock n]

theorem runStatusEvent_emittable {eventType graphId : String} {current : SqlVal}
    {next : GraphStatus} (htype : graphStatusEvent current next = .ok eventType)
    (hid : H.encodes graphId = true) (n : ℕ) (status : GraphStatus) :
    Emittable H (runStatusEvent eventType graphId (H.clock n) status) := by
  have hmem : eventType ∈ runStatusEvents := by
    cases next <;> simp only [graphStatusEvent] at htype
    case draft => cases htype
    case ready => cases htype
    case running =>
      cases htype
      split_ifs <;> decide
    all_goals
      cases htype
      decide
  have hknown : ∀ t ∈ runStatusEvents, t ∈ knownEventTypes := by decide
  have hstatus : H.encodes status.value = true := by
    cases status <;> exact H.encodes_ascii _ (by decide)
  refine emittable_of (hknown _ hmem) rfl (Json.isObj_mkObj _) ⟨rfl, rfl⟩ rfl encodes_system
    (encodes_target "graph:" (by decide) hid) fun env db henv => ?_
  rw [applyEvent_runStatus henv.payload hmem henv.eventType]
  have hb : ∀ s, H.encodes s = true → Bindable H (.str (H.scrub s)) := H.scrub_encodes
  obtain ⟨t, ht, henct⟩ := henv.timestamp
  refine returns_touched (returns_applyRunStatus (bindable_eventTime ht henct ?_) ?_)
  · simpa [runStatusEvent, List.lookup] using hb _ (encodes_clock n)
  · simp [runStatusEvent, List.lookup, hb, hid, hstatus]

/-- The two events of a node: one names a status, the other an output. -/
theorem nodeEvent_emittable {e : EventEnvelope} {nodeId : String} {fields : List (String × Json)}
    (htype : e.eventType ∈ stepEvents) (hactor : e.actor = "system")
    (htarget : e.target = some ("work_node:" ++ nodeId)) (hopen : e.Open)
    (hclass : e.privacyClass = "internal") (hrun : e.runId = none)
    (hpayload : e.payload = .mkObj (("node_id", .str nodeId) :: fields))
    (hto : Bindable H ((e.payload.mapStr H.scrub).get "to")) (hid : H.encodes nodeId = true) :
    Emittable H e := by
  have hknown : ∀ t ∈ stepEvents, t ∈ knownEventTypes := by decide
  refine emittable_of (hknown _ htype) hclass (by rw [hpayload]; exact Json.isObj_mkObj _)
    hopen hrun
    ?_ ?_ fun env db henv => ?_
  · rw [hactor]
    exact encodes_system
  · rw [htarget]
    exact encodes_target "work_node:" (by decide) hid
  · rw [applyEvent_step henv.payload htype henv.eventType]
    have hb : Bindable H (.str (H.scrub nodeId)) := H.scrub_encodes nodeId hid
    refine returns_touched (returns_applyStep hto ?_)
    simpa [hpayload, List.lookup] using hb

theorem stepEvent_emittable {nodeId : String} (hid : H.encodes nodeId = true) (next : NodeStatus) :
    Emittable H (stepEvent nodeId next) := by
  have hnext : Bindable H (.str (H.scrub next.value)) := by
    refine H.scrub_encodes _ ?_
    cases next <;> exact H.encodes_ascii _ (by decide)
  have htype : nodeStatusEvent next ∈ stepEvents := by cases next <;> decide
  refine nodeEvent_emittable htype rfl rfl ⟨rfl, rfl⟩ rfl rfl rfl ?_ hid
  simpa [stepEvent, List.lookup] using hnext

theorem outputEvent_emittable {nodeId : String} (hid : H.encodes nodeId = true) (output : Json) :
    Emittable H (outputEvent nodeId output) := by
  have htype : "step.completed" ∈ stepEvents := by decide
  refine nodeEvent_emittable htype rfl rfl ⟨rfl, rfl⟩ rfl rfl rfl ?_ hid
  simp [outputEvent, List.lookup, Bindable]

theorem retiredEvent_emittable {kind status : String} {archived : ℤ}
    (hkind : (kind, status, archived) ∈ retirements) {id actor : String}
    (hid : H.encodes id = true) (hactor : H.encodes actor = true) (n : ℕ) :
    Emittable H (retiredEvent kind id actor (H.clock n)) := by
  simp only [retirements, List.mem_cons, Prod.mk.injEq, List.not_mem_nil, or_false] at hkind
  have htype : kind ∈ knownEventTypes := by
    rcases hkind with ⟨rfl, -⟩ | ⟨rfl, -⟩ <;> decide
  refine emittable_of htype rfl (Json.isObj_mkObj _) ⟨rfl, rfl⟩ rfl hactor
    (by rintro s ⟨⟩; exact hid) fun env db henv => ?_
  obtain ⟨t, ht, henct⟩ := henv.timestamp
  have hret : ∀ status archived, Returns (applyRetired H env
      ((retiredEvent kind id actor (H.clock n)).payload.mapStr H.scrub) status archived) db := by
    intro status archived
    have hat : Bindable H (.str (H.scrub (H.clock n))) := H.scrub_encodes _ (encodes_clock n)
    have hscrub : Bindable H (.str (H.scrub id)) := H.scrub_encodes _ hid
    refine returns_applyRetired ?_ ?_ ?_
    · rw [ht]
      exact bindable_orElse (by simpa [retiredEvent, List.lookup] using hat) (bindable_str henct)
    · rw [ht]
      exact isNull_orElse_str
    · rw [henv.target]
      exact bindable_orElse (by simpa [retiredEvent, List.lookup] using hscrub) (bindable_str hid)
  rcases hkind with ⟨rfl, -⟩ | ⟨rfl, -⟩
  · rw [applyEvent_superseded henv.payload henv.eventType]
    exact returns_touched (hret _ _)
  · rw [applyEvent_archived henv.payload henv.eventType]
    exact returns_touched (hret _ _)

theorem bindable_eventTime_of_none {env p : Json} (h : ∃ t, env.get "timestamp" = .str t ∧
    H.encodes t = true) (hp : p.get "event_time" = .null) : Bindable H (eventTime env p) := by
  obtain ⟨t, ht, henc⟩ := h
  refine bindable_eventTime ht henc ?_
  rw [hp]
  trivial

theorem lifecycleEvent_emittable {id : Json} (hb : Bindable H id) {s t : Lifecycle}
    (ht : t ∈ s.transitions) (current : SqlVal) {actor : String} (hactor : H.encodes actor = true) :
    Emittable H (lifecycleEvent id current t actor) := by
  have hid : H.encodes (pyStr id) = true := encodes_pyStr hb
  have hvalue : Bindable H (.str (H.scrub t.value)) :=
    H.scrub_encodes _ (H.encodes_ascii _ (by cases t <;> decide))
  have htype : t.eventType ∈ knownEventTypes := by cases t <;> decide
  refine emittable_of htype rfl (Json.isObj_mkObj _) ⟨rfl, rfl⟩ rfl hactor
    (encodes_target "capability:" (by decide) hid) fun env db henv => ?_
  rw [applyEvent_lifecycle henv.payload (lookup_eventType ht) henv.eventType]
  refine returns_touched (returns_applyLifecycle (targetId_capability henv.target) hid
    (bindable_eventTime_of_none henv.timestamp ?_) ?_ ?_)
  · simp [lifecycleEvent, List.lookup]
  · simpa [lifecycleEvent, Json.getD, List.lookup] using hvalue
  · simp [lifecycleEvent, Json.getD, List.lookup]

theorem driftEvent_emittable {id d : String} (hid : H.encodes id = true)
    (hd : H.encodes d = true) (row : CapabilityRow) : Emittable H (driftEvent id row d) := by
  have hb : ∀ s, H.encodes s = true → Bindable H (.str (H.scrub s)) := H.scrub_encodes
  have hstate : ∀ t : Lifecycle, H.encodes t.value = true := fun t =>
    H.encodes_ascii _ (by cases t <;> decide)
  have htype : "capability.digest_drift" ∈ knownEventTypes := by decide
  refine emittable_of htype rfl (Json.isObj_mkObj _) ⟨rfl, rfl⟩ rfl
    (H.encodes_ascii "capability-manager" (by decide))
    (encodes_target "capability:" (by decide) hid) fun env db henv => ?_
  rw [applyEvent_drift henv.payload henv.eventType]
  refine returns_touched (returns_applyDrift (targetId_capability henv.target) hid
    (bindable_eventTime_of_none henv.timestamp ?_) ?_)
  · simp [driftEvent, List.lookup]
  · simp [driftEvent, List.lookup, hb, hd, hstate]

/-! ### One call -/

/-- `x` leaves the log and the tables as they were when it raises an error of its own. -/
def Atomic {α : Type} (x : Op α) (w : World) : Prop :=
  Act.wp x (fun _ _ => True) (fun e w' => e.isDomain = true → Untouched w w') w

variable {w : World}

theorem untouched_self (w : World) : Untouched w w := ⟨rfl, rfl⟩

/-- What ends in an `emit` of an emittable event, after a part that writes nothing. -/
theorem atomic_emit {α : Type} (h : HeadEncodes H w) {w₁ : World} (hw₁ : Untouched w w₁) (i : ℕ)
    {e : EventEnvelope} (he : Emittable H e) (a : α) :
    Act.wp (do
      let _ ← emit H i e
      return a) (fun _ _ => True) (fun e w' => e.isDomain = true → Untouched w w') w₁ := by
  have h₁ : HeadEncodes H w₁ := by
    rw [HeadEncodes, hw₁.1]
    exact h
  rw [wp_bind]
  refine wp_mono (emit_atomic i he h₁) (fun _ _ _ => (wp_pure _).2 trivial) fun _ _ hw' _ => ?_
  exact ⟨hw'.1.trans hw₁.1, hw'.2.trans hw₁.2⟩

theorem setGraphStatus_atomic (h : HeadEncodes H w) (i : ℕ) (graphId status : String) :
    Atomic (setGraphStatus H i graphId status) w := by
  unfold Atomic setGraphStatus
  rw [wp_bind, wp_ofExcept]
  cases GraphStatus.ofJson (.str status) with
  | error x => exact fun _ => untouched_self w
  | ok next =>
    simp only
    rw [wp_bind, wp_readDb]
    cases hstatus : w.db.graphStatus H graphId with
    | error x => exact fun _ => untouched_self w
    | ok current =>
      simp only
      rw [wp_bind, wp_ofExcept]
      cases htype : graphStatusEvent current next with
      | error x => exact fun _ => untouched_self w
      | ok eventType =>
        obtain ⟨v, hv, -⟩ := except_bind_eq_ok.1 hstatus
        have hid : H.encodes graphId = true := bindText_isOk (by rw [hv]; rfl)
        have hw : Untouched w { w with tick := w.tick + 1 } := ⟨rfl, rfl⟩
        simp only
        rw [wp_bind, wp_now]
        exact atomic_emit h hw i (runStatusEvent_emittable htype hid _ next) ()

theorem setNodeStatus_atomic (h : HeadEncodes H w) (i : ℕ) (nodeId status : String)
    (expectedVersion : ℤ) : Atomic (setNodeStatus H i nodeId status expectedVersion) w := by
  unfold Atomic setNodeStatus
  rw [wp_bind, wp_ofExcept]
  cases NodeStatus.ofJson (.str status) with
  | error x => exact fun _ => untouched_self w
  | ok next =>
    simp only
    rw [wp_bind]
    refine wp_mono (checkVersion_spec nodeId expectedVersion w) ?_ ?_
    · rintro - w₁ ⟨rfl, hversion⟩
      exact atomic_emit h (untouched_self _) i
        (stepEvent_emittable (encodes_of_nodeStateVersion hversion) next) ()
    · rintro x w₁ ⟨rfl, -⟩ -
      exact untouched_self _

theorem recordOutput_atomic (h : HeadEncodes H w) (i : ℕ) (nodeId : String) (output : Json)
    (expectedVersion : ℤ) : Atomic (recordOutput H i nodeId output expectedVersion) w := by
  unfold Atomic recordOutput
  rw [wp_bind]
  refine wp_mono (checkVersion_spec nodeId expectedVersion w) ?_ ?_
  · rintro - w₁ ⟨rfl, hversion⟩
    exact atomic_emit h (untouched_self _) i
      (outputEvent_emittable (encodes_of_nodeStateVersion hversion) output) ()
  · rintro x w₁ ⟨rfl, -⟩ -
    exact untouched_self _

/-- The statement of `set_lifecycle` returns whatever the table holds. -/
theorem returns_writeLifecycle {id : Json} (hb : Bindable H id) (t : Lifecycle) (n : ℕ) (db : Db) :
    Returns (writeLifecycle H id t (H.clock n)) db := by
  have ht : Bindable H (.str t.value) := by
    cases t <;> exact H.encodes_ascii _ (by decide)
  have hc : Bindable H (.str (H.clock n)) := encodes_clock n
  unfold Returns writeLifecycle updateCapability
  simp only [wp_bind, wp_text, ht, hc, hb]
  exact wp_mono (returns_updateWhere (by simp))
    (fun _ _ _ => returns_pure _ _) fun _ _ h => h

/-- A transition leaves everything as it was when it raises, if its actor can be mirrored. -/
theorem setLifecycle_atomic (h : HeadEncodes H w) (i : ℕ) (id : Json) (target : String)
    {actor : String} (hactor : H.encodes actor = true) :
    Atomic (setLifecycle H i id target actor) w := by
  unfold Atomic setLifecycle
  rw [wp_bind]
  refine wp_mono (getCapability_spec id w) ?_ fun _ _ hw _ => hw ▸ untouched_self _
  rintro row w₁ ⟨rfl, hbound, -⟩
  cases row with
  | none => exact (wp_throw _).2 fun _ => untouched_self _
  | some row =>
    simp only
    cases ht : (Lifecycle.ofText? target).filter (canTransition row.lifecycle) with
    | none => exact (wp_throw _).2 fun _ => untouched_self _
    | some t =>
      obtain ⟨s, -, htrans⟩ := canTransition_iff.1 (Option.filter_eq_some_iff.1 ht).2
      have hb := hbound row rfl
      simp only
      rw [wp_bind]
      exact wp_mono (emitWith_atomic i (lifecycleEvent_emittable hb htrans _ hactor) h
        (returns_writeLifecycle hb t)) (fun _ _ _ => (wp_pure _).2 trivial) fun _ _ hw _ => hw

theorem refreshDigest_atomic (h : HeadEncodes H w) (i : ℕ) (id : String) {d : String}
    (hd : H.encodes d = true) : Atomic (refreshDigest H i id d) w := by
  unfold Atomic refreshDigest
  rw [wp_bind]
  refine wp_mono (getCapability_str_spec id w) ?_ fun _ _ hw _ => hw ▸ untouched_self _
  rintro row w₁ ⟨rfl, hid, -⟩
  cases row with
  | none => exact (wp_throw _).2 fun _ => untouched_self _
  | some row =>
    simp only
    rw [wp_ite]
    refine ⟨fun _ => (wp_pure _).2 trivial, fun _ => ?_⟩
    rw [wp_bind]
    exact wp_mono (emitWith_atomic i (driftEvent_emittable hid hd row) h
      (returns_writeDigest hid hd _)) (fun _ _ _ => (wp_pure _).2 trivial) fun _ _ hw _ => hw

/-! ### Calls that read after they write -/

/-- The rows of the requests under an id, with the status of a stale request. -/
theorem applyStaled_spec {p : Json} {id : String} (hid : p.get "id" = .str id) (db : Db) :
    Act.wp (applyStaled H p)
      (fun _ db' => db' = { db with
        approvalRequests := Table.update (fun r => r.id = .text id)
          (fun r => { r with status := .text "stale" }) db.approvalRequests })
      (fun _ db' => db' = db) db := by
  unfold applyStaled
  rw [if_neg (by rw [hid]; exact Bool.false_ne_true), hid, wp_bind]
  refine wp_text_any (fun _ => rfl) fun v hv => ?_
  rw [bindText_str_eq_ok hv, wp_bind]
  refine wp_updateApproval (by simp) fun b => ?_
  rw [wp_pure]

theorem checkRequest_withStatus
    {id requestedAction reason approvalType status status' digest : String}
    {scope scope' : Json} {t : ApprovalType} {st st' : ApprovalStatus}
    (h : checkRequest H id requestedAction reason approvalType status scope =
      .ok (t, st, scope', digest)) (hst : ApprovalStatus.ofText status' = .ok st') :
    checkRequest H id requestedAction reason approvalType status' scope =
      .ok (t, st', scope', digest) := by
  unfold checkRequest at h ⊢
  split_ifs at h ⊢
  obtain ⟨t₀, ht, h⟩ := except_bind_eq_ok.1 h
  obtain ⟨st₀, -, h⟩ := except_bind_eq_ok.1 h
  obtain ⟨scope₀, hs, h⟩ := except_bind_eq_ok.1 h
  obtain ⟨digest₀, hd, h⟩ := except_bind_eq_ok.1 h
  cases h
  rw [ht, hst, hs]
  change (Shiroe.scopeDigest H scope' >>= fun digest => _) = _
  rw [hd]
  rfl

/-- A request whose row gets another status is still read. -/
theorem load_decide_ok {r : ApprovalRow} {req : ApprovalRequest} {status : String}
    {st : ApprovalStatus} (h : r.load H = .ok req) (hst : ApprovalStatus.ofText status = .ok st)
    (a b c : SqlVal) : ∃ req', (r.decide (.text status) a b c).load H = .ok req' := by
  unfold ApprovalRow.load at h
  obtain ⟨id, hid, h⟩ := except_bind_eq_ok.1 h
  obtain ⟨action, haction, h⟩ := except_bind_eq_ok.1 h
  obtain ⟨reason, hreason, h⟩ := except_bind_eq_ok.1 h
  obtain ⟨type, htype, h⟩ := except_bind_eq_ok.1 h
  obtain ⟨status₀, -, h⟩ := except_bind_eq_ok.1 h
  obtain ⟨scope, hscope, h⟩ := except_bind_eq_ok.1 h
  obtain ⟨options, hoptions, h⟩ := except_bind_eq_ok.1 h
  obtain ⟨refs, hrefs, h⟩ := except_bind_eq_ok.1 h
  obtain ⟨⟨t, st₀, scope', digest⟩, hcheck, h⟩ := except_bind_eq_ok.1 h
  obtain ⟨risk, hrisk, h⟩ := except_bind_eq_ok.1 h
  obtain ⟨requestedAt, hat, h⟩ := except_bind_eq_ok.1 h
  have hcheck' := checkRequest_withStatus hcheck hst
  exact ⟨_, except_bind_eq_ok.2 ⟨id, hid, except_bind_eq_ok.2 ⟨action, haction,
    except_bind_eq_ok.2 ⟨reason, hreason, except_bind_eq_ok.2 ⟨type, htype,
    except_bind_eq_ok.2 ⟨status, rfl, except_bind_eq_ok.2 ⟨scope, hscope,
    except_bind_eq_ok.2 ⟨options, hoptions, except_bind_eq_ok.2 ⟨refs, hrefs,
    except_bind_eq_ok.2 ⟨_, hcheck', except_bind_eq_ok.2 ⟨risk, hrisk,
    except_bind_eq_ok.2 ⟨requestedAt, hat, rfl⟩⟩⟩⟩⟩⟩⟩⟩⟩⟩⟩⟩

/-- A request is still read after its row, if it is the one that is updated, got another status. -/
theorem getApproval_update_ok {db db' : Db} {id updated : String} {req : ApprovalRequest}
    {f : ApprovalRow → ApprovalRow} (h : db.getApproval H id = .ok req)
    (hdb : db'.approvalRequests =
      Table.update (fun r => r.id = .text updated) f db.approvalRequests)
    (hid : ∀ r, (f r).id = r.id)
    (hf : id = updated → ∀ r, r.load H = .ok req → ∃ req', (f r).load H = .ok req') :
    ∃ req', db'.getApproval H id = .ok req' := by
  obtain ⟨v, hv, h⟩ := except_bind_eq_ok.1 h
  have hfind : db'.approval? id =
      (db.approval? id).map fun r => if r.id = .text updated then f r else r := by
    rw [Db.approval?, hdb]
    have hup := Table.find?_update (t := db.approvalRequests) (f := f)
      (p := fun r => decide (r.id = .text updated)) (q := fun r => decide (r.id = .text id))
      fun r => by rw [hid]
    simpa [Db.approval?] using hup
  cases hr : db.approval? id with
  | none =>
    rw [hr] at h
    cases h
  | some r =>
    rw [hr] at h hfind
    have hrow : r.id = .text id := by simpa using List.find?_some hr
    have hload : ∃ req', (if r.id = .text updated then f r else r).load H = .ok req' := by
      split_ifs with hup
      · rw [hrow] at hup
        exact hf (SqlVal.text.inj hup) r h
      · exact ⟨req, h⟩
    obtain ⟨req', hreq'⟩ := hload
    refine ⟨req', except_bind_eq_ok.2 ⟨v, hv, ?_⟩⟩
    rw [hfind]
    exact hreq'

theorem emit_staled (i : ℕ) (id prior current : String) (w : World) :
    Act.wp (emit H i (staledEvent id prior current))
      (fun _ w' => w'.rest = w.rest ∧ ∃ db : Db, db.exceptMirror = w.db.exceptMirror ∧
        w'.db = { db with
          approvalRequests := Table.update (fun r => r.id = .text (H.scrub id))
            (fun r => { r with status := .text "stale" }) db.approvalRequests })
      (fun _ w' => w'.rest = w.rest ∧ w'.db.exceptMirror = w.db.exceptMirror) w := by
  refine emit_of_fold (Q := fun db db' => db' = { db with
    approvalRequests := Table.update (fun r => r.id = .text (H.scrub id))
      (fun r => { r with status := .text "stale" }) db.approvalRequests }) (fun env henv db => ?_) i
  rw [applyEvent_staled (henv.payloadOf (Json.isObj_mkObj _)) henv.eventType, touched, wp_map]
  exact applyStaled_spec (by simp [staledEvent, List.lookup]) db

theorem assertCurrent_atomic (h : HeadEncodes H w) (i : ℕ) (id : String) (currentScope : Json) :
    Atomic (assertCurrent H i id currentScope) w := by
  unfold Atomic assertCurrent
  rw [wp_bind]
  refine wp_mono (getApproval_spec id w) ?_ fun _ _ hw _ => hw ▸ untouched_self _
  rintro req w₁ ⟨rfl, hreq⟩
  rw [wp_bind, wp_ofExcept]
  cases scopeDigest H currentScope with
  | error x => exact fun _ => untouched_self _
  | ok digest =>
    simp only
    rw [wp_ite]
    refine ⟨fun _ => (wp_pure _).2 trivial, fun _ => ?_⟩
    have henc := encodes_of_getApproval hreq
    rw [wp_bind]
    refine wp_mono (wp_and (emit_atomic i (staledEvent_emittable henc req.digest digest) h)
      (emit_staled i id req.digest digest w₁)) ?_ fun _ _ hw _ => hw.1
    rintro env w₂ ⟨-, -, db, hdb, hw₂⟩
    have happ : db.approvalRequests = w₁.db.approvalRequests :=
      (congrArg Db.approvalRequests hdb :)
    have hrows : w₂.db.approvalRequests = Table.update (fun r => r.id = .text (H.scrub id))
        (fun r => { r with status := .text "stale" }) w₁.db.approvalRequests := by
      rw [hw₂, happ]
    have hst : ApprovalStatus.ofText "stale" = .ok .stale := rfl
    obtain ⟨req', hreq'⟩ := getApproval_update_ok hreq hrows (fun _ => rfl) fun _ r hr =>
      load_decide_ok hr hst r.decidedAt r.decidedBy
        r.decisionReason
    rw [getApproval, wp_readDb, hreq']
    trivial

/-- Rows that agree on the columns that can fail to be read fail with the same error. -/
theorem recordFromRow_error {db db' : Db} {r r' : RecordRow} {x : Exc}
    (hauthority : r'.authority = r.authority) (hversion : r'.schemaVersion = r.schemaVersion)
    (htags : r'.tagsJson = r.tagsJson) (h : db'.recordFromRow H r' = .error x) :
    db.recordFromRow H r = .error x := by
  rw [Db.recordFromRow, hauthority, hversion, htags] at h
  rw [Db.recordFromRow]
  cases ha : pyFloat H r.authority.read with
  | error y =>
    rw [ha] at h
    exact h
  | ok authority =>
    cases hv : pyInt r.schemaVersion.read with
    | error y =>
      rw [ha, hv] at h
      exact h
    | ok version =>
      cases ht : loadTags r.tagsJson with
      | error y =>
        rw [ha, hv, ht] at h
        exact h
      | ok tags =>
        rw [ha, hv, ht] at h
        cases h

/-- A record that cannot be read after it was superseded or archived could not be read before. -/
theorem getMemory_retires {db db' : Db} {status : String} {archived : ℤ}
    (h : Retires status archived db db') {id : String} {x : Exc}
    (hx : db'.getMemory H id = .error x) : db.getMemory H id = .error x := by
  obtain ⟨p, updatedAt, hdb⟩ := h
  have hfind : db'.record? id = (db.record? id).map fun r =>
      if p r then r.retire status archived updatedAt else r := by
    rw [Db.record?, hdb]
    exact Table.find?_update fun _ => rfl
  unfold Db.getMemory at hx ⊢
  cases hb : bindText H (.str id) with
  | error y =>
    rw [hb] at hx
    exact hx
  | ok v =>
    rw [hb, hfind] at hx
    cases hr : db.record? id with
    | none =>
      rw [hr] at hx
      exact hx
    | some r =>
      rw [hr] at hx
      change db'.recordFromRow H (if p r then r.retire status archived updatedAt else r) = .error x
        at hx
      change db.recordFromRow H r = .error x
      split_ifs at hx
      · refine recordFromRow_error ?_ ?_ ?_ hx <;> rfl
      · exact recordFromRow_error rfl rfl rfl hx

/-- The record is read, or fails to be read with an error of another kind. -/
def RecordReadable (H : Host) (db : Db) (id : String) : Prop :=
  ∀ x, db.getMemory H id = .error x → x.isDomain = false

theorem RecordReadable.encodes {db : Db} {id : String} (h : RecordReadable H db id) :
    H.encodes id = true := by
  by_contra hno
  have hx : bindText H (.str id) = .error (.unicodeEncode id) := by
    rw [bindText, bindParam, if_neg hno]
    rfl
  have herr : db.getMemory H id = .error (.unicodeEncode id) := by
    rw [Db.getMemory, hx]
    rfl
  exact absurd (h _ herr) (by simp [Exc.isDomain])

theorem retireRecord_atomic (h : HeadEncodes H w) {kind status : String} {archived : ℤ}
    (hkind : (kind, status, archived) ∈ retirements) (i : ℕ) {id actor : String}
    (hid : H.encodes id = true) (hactor : H.encodes actor = true) :
    Act.wp (retireRecord H kind i id actor none) (fun _ w' => HeadEncodes H w')
      (fun _ w' => Untouched w w') w := by
  unfold retireRecord
  rw [wp_bind, givenOrNow, given, Option.filter_none]
  simp only
  rw [wp_now]
  have h₁ : HeadEncodes H { w with tick := w.tick + 1 } := h
  exact emit_atomic i (retiredEvent_emittable hkind hid hactor _) h₁

/-- **Superseding or archiving a record** leaves everything as it was when it raises, if the record
is one that can be read. -/
theorem retire_atomic (h : HeadEncodes H w) {kind status : String} {archived : ℤ}
    (hkind : (kind, status, archived) ∈ retirements) (i : ℕ) {id actor : String}
    (hactor : H.encodes actor = true) (hread : RecordReadable H w.db id) :
    Atomic (retireRecord H kind i id actor none >>= fun _ => getMemory H id) w := by
  unfold Atomic
  rw [wp_bind]
  refine wp_mono (wp_and (retireRecord_atomic h hkind i hread.encodes hactor)
    (retireRecord_spec hkind i id actor none w)) ?_ fun _ _ hw _ => hw.1
  rintro env w₁ ⟨-, -, hret⟩
  rw [getMemory, wp_readDb]
  cases hx : w₁.db.getMemory H id with
  | ok m => trivial
  | error x =>
    intro hdomain
    rw [hread x (getMemory_retires hret hx)] at hdomain
    cases hdomain

/-- The capability that a scope names can be bound, is registered and can be approved; or it is
none that can be bound. -/
def Movable (H : Host) (db : Db) (id : Json) : Prop :=
  match bindText H id with
  | .ok v => ∃ row ∈ db.capability? v, canTransition row.lifecycle .approved = true
  | .error x => x.isDomain = false

/-- **The approval of a capability that can be moved raises nothing of its own** in a log that every
object can append to. -/
theorem setLifecycle_movable (h : Appendable H w) (i : ℕ) {id : Json} (hmov : Movable H w.db id) :
    Act.wp (setLifecycle H i id Lifecycle.approved.value "human") (fun _ _ => True)
      (fun x _ => x.isDomain = false) w := by
  unfold setLifecycle getCapability
  rw [wp_bind, wp_readDb]
  unfold Movable at hmov
  cases hv : bindText H id with
  | error x =>
    rw [hv] at hmov
    exact hmov
  | ok v =>
    rw [hv] at hmov
    obtain ⟨row, hrow, hcan⟩ := hmov
    obtain ⟨s, -, htrans⟩ := canTransition_iff.1 hcan
    have hb : Bindable H id := by
      rcases bindText_eq_ok hv with rfl | ⟨hb, -⟩
      · have hnull := List.find?_some hrow
        simp at hnull
      · exact hb
    have hread : (Except.ok v >>= fun id => pure (w.db.capability? id) :
        Except Exc (Option CapabilityRow)) = .ok (some row) := congrArg Except.ok hrow
    rw [hread]
    simp only [Lifecycle.ofText?_value, Option.filter_some, hcan, if_true]
    rw [wp_bind]
    exact wp_mono (h.emitWith_returns i (lifecycleEvent_emittable hb htrans _
      (H.encodes_ascii "human" (by decide))) (returns_writeLifecycle hb .approved))
      (fun _ _ _ => (wp_pure _).2 trivial) fun _ _ hno => hno.elim

/-- What the claim theorem asks of a decision: its reason can be mirrored; the decision that is
stored is one that can be read; and the capability of an approved request can be moved, in a log
that is one chain. -/
structure DecisionArgs.Meets (H : Host) (w : World) (d : DecisionArgs) : Prop where
  reason : H.encodes d.reason = true
  status : d.approvalId = H.scrub d.approvalId → ∀ status, d.check = .ok status →
    ∃ st, ApprovalStatus.ofText (H.scrub status.value) = .ok st
  moves : d.check = .ok .approved → ∀ id ∈ w.db.movedBy H d.approvalId,
    Movable H w.db id ∧ ChainedAt H w (H.clock (w.tick + 1))

theorem Movable.congr {db db' : Db} {id : Json} (h : Movable H db id)
    (hdb : db'.capabilities = db.capabilities) : Movable H db' id := by
  unfold Movable Db.capability? at h ⊢
  rw [hdb]
  exact h

/-- **A decision** leaves everything as it was when it raises, if what follows the append goes
through. -/
theorem decideHuman_atomic (h : HeadEncodes H w) (i : ℕ) {d : DecisionArgs} (hd : d.Meets H w) :
    Atomic (decideHuman H i d) w := by
  unfold Atomic decideHuman
  rw [wp_bind, wp_ofExcept]
  cases hcheck : d.check with
  | error x => exact fun _ => untouched_self _
  | ok status =>
    simp only
    rw [wp_bind]
    refine wp_mono (getApproval_spec d.approvalId w) ?_ fun _ _ hw _ => hw ▸ untouched_self _
    rintro req w₀ ⟨rfl, hreq⟩
    rw [wp_bind, wp_now, wp_bind]
    have h₀ : HeadEncodes H { w₀ with tick := w₀.tick + 1 } := h
    -- after the append: the request as it is read again, and a log that can be appended to
    have hchained : (∃ id, approvedCapability req status = some id) →
        ChainedAt H { w₀ with tick := w₀.tick + 1 } (H.clock (w₀.tick + 1)) ∧
          ∀ id ∈ approvedCapability req status, Movable H w₀.db id := by
      rintro ⟨id, hcap⟩
      have happ : status = .approved := by
        unfold approvedCapability at hcap
        split_ifs at hcap with hc
        exact hc.2.1
      have hmoved : w₀.db.movedBy H d.approvalId = approvedCapability req status := by
        rw [Db.movedBy, hreq, happ]
      have hmoves := hd.moves (by rw [hcheck, happ])
      rw [hmoved] at hmoves
      obtain ⟨-, hchain, hhead, hlast⟩ := hmoves id hcap
      exact ⟨⟨hchain.congr rfl, hhead, hlast⟩, fun id' hid' => (hmoves id' hid').1⟩
    have hnext : Act.wp (emit H i (d.event status (H.clock w₀.tick)))
        (fun _ w' => (∃ id, approvedCapability req status = some id) → Appendable H w')
        (fun _ _ => True) { w₀ with tick := w₀.tick + 1 } := by
      by_cases hex : ∃ id, approvedCapability req status = some id
      · exact wp_mono (emit_chained i (hchained hex).1) (fun _ _ hw _ => hw) fun _ _ h => h
      · exact wp_mono (emit_decided i d status _ _) (fun _ _ _ hno => absurd hno hex)
          fun _ _ _ => trivial
    refine wp_mono (wp_and (emit_atomic i (decidedEvent_emittable hcheck
      (encodes_of_getApproval hreq) hd.reason w₀.tick) h₀)
      (wp_and (emit_decided i d status _ _) hnext)) ?_ fun _ _ hw _ => hw.1
    rintro env w₁ ⟨-, ⟨-, db, hdb, hw₁⟩, happendable⟩
    have hdb : db.exceptMirror = w₀.db.exceptMirror := hdb
    have hrequests : db.approvalRequests = w₀.db.approvalRequests :=
      (congrArg Db.approvalRequests hdb :)
    have hcapabilities : w₁.db.capabilities = w₀.db.capabilities := by
      rw [hw₁]
      exact (congrArg Db.capabilities hdb :)
    have hget : db.getApproval H d.approvalId = .ok req := by
      rw [← hreq, Db.getApproval, Db.getApproval, Db.approval?, Db.approval?, hrequests]
    have hrows : w₁.db.approvalRequests =
        Table.update (fun r => r.id = .text (H.scrub d.approvalId))
          (.decide (.text (H.scrub status.value)) (.text (H.scrub (H.clock w₀.tick)))
            (.text (H.scrub d.actor)) (.text (H.scrub d.reason))) db.approvalRequests := by
      rw [hw₁]
      rfl
    obtain ⟨req', hreq'⟩ := getApproval_update_ok hget hrows (fun _ => rfl) fun hsame r hr => by
      obtain ⟨st, hst⟩ := hd.status hsame status hcheck
      exact load_decide_ok hr hst _ _ _
    rw [wp_bind, getApproval, wp_readDb, hreq']
    -- the request asks for what it asked for before the decision
    obtain ⟨htype, hscope⟩ := getApproval_decided hget (hw₁ ▸ hreq')
    have hmoved : approvedCapability req' status = approvedCapability req status := by
      rw [approvedCapability, approvedCapability, htype, hscope]
    simp only [hmoved]
    cases hcap : approvedCapability req status with
    | none => exact (wp_pure _).2 trivial
    | some id =>
      have hmov : Movable H w₁.db id := ((hchained ⟨id, hcap⟩).2 id hcap).congr hcapabilities
      have happ : Appendable H { w₁ with
          objects := w₁.objects + 1
          recovered := Function.update w₁.recovered w₁.objects false } := by
        obtain ⟨hlock, hchain, hhead⟩ := happendable ⟨id, hcap⟩
        exact ⟨hlock, hchain.congr rfl, hhead⟩
      simp only
      rw [wp_bind, wp_newLog, wp_bind]
      refine wp_mono (setLifecycle_movable happ _ hmov) (fun _ _ _ => (wp_pure _).2 trivial) ?_
      intro x w₂ hx hdomain
      rw [hx] at hdomain
      cases hdomain

/-! ### Runs -/

/-- The calls. -/
inductive MutatingCall where
  | setGraphStatus (i : ℕ) (graphId status : String)
  | setNodeStatus (i : ℕ) (nodeId status : String) (expectedVersion : ℤ)
  | recordOutput (i : ℕ) (nodeId : String) (output : Json) (expectedVersion : ℤ)
  | decideHuman (i : ℕ) (d : DecisionArgs)
  | assertCurrent (i : ℕ) (id : String) (currentScope : Json)
  | setLifecycle (i : ℕ) (capabilityId target actor : String)
  | refreshDigest (i : ℕ) (capabilityId newDigest : String)
  | supersede (i : ℕ) (id actor : String)
  | archive (i : ℕ) (id actor : String)

namespace MutatingCall

variable (H)

/-- The computation of a call. -/
def op : MutatingCall → Op Unit
  | setGraphStatus i graphId status => Shiroe.setGraphStatus H i graphId status
  | setNodeStatus i nodeId status version => Shiroe.setNodeStatus H i nodeId status version
  | recordOutput i nodeId output version => Shiroe.recordOutput H i nodeId output version
  | decideHuman i d => discard (Shiroe.decideHuman H i d)
  | assertCurrent i id currentScope => discard (Shiroe.assertCurrent H i id currentScope)
  | setLifecycle i id target actor => Shiroe.setLifecycle H i (.str id) target actor
  | refreshDigest i id newDigest => discard (Shiroe.refreshDigest H i id newDigest)
  | supersede i id actor => discard (supersedeMemory H i id actor)
  | archive i id actor => discard (archiveMemory H i id actor)

/-- What the claim theorem asks of a call: what it mirrors or binds after the append can be encoded,
and what it does after the append goes through. -/
def Meets (w : World) : MutatingCall → Prop
  | setGraphStatus _ _ _ => True
  | setNodeStatus _ _ _ _ => True
  | recordOutput _ _ _ _ => True
  | decideHuman _ d => d.Meets H w
  | assertCurrent _ _ _ => True
  | setLifecycle _ _ _ actor => H.encodes actor = true
  | refreshDigest _ _ newDigest => H.encodes newDigest = true
  | supersede _ id actor => H.encodes actor = true ∧ RecordReadable H w.db id
  | archive _ id actor => H.encodes actor = true ∧ RecordReadable H w.db id

end MutatingCall

theorem discard_eq_map {α : Type} (x : Op α) : discard x = (fun _ => ()) <$> x := rfl

theorem Atomic.discard {α : Type} {x : Op α} (h : Atomic x w) : Atomic (discard x) w := by
  rw [discard_eq_map, Atomic, wp_map]
  exact h

theorem keeps_discard {α : Type} {I : World → Prop} {x : Op α} (h : Keeps I x) :
    Keeps I (Functor.discard x) := by
  rw [discard_eq_map]
  exact h.map

/-- **Every call** that meets its condition leaves the log and the tables as they were when it
raises an error of its own. -/
theorem call_atomic (h : HeadEncodes H w) {c : MutatingCall} (hc : c.Meets H w) :
    Atomic (c.op H) w := by
  cases c with
  | setGraphStatus i graphId status => exact setGraphStatus_atomic h i graphId status
  | setNodeStatus i nodeId status version => exact setNodeStatus_atomic h i nodeId status version
  | recordOutput i nodeId output version => exact recordOutput_atomic h i nodeId output version
  | decideHuman i d => exact (decideHuman_atomic h i hc).discard
  | assertCurrent i id currentScope => exact (assertCurrent_atomic h i id currentScope).discard
  | setLifecycle i id target actor => exact setLifecycle_atomic h i _ target hc
  | refreshDigest i id newDigest => exact (refreshDigest_atomic h i id hc).discard
  | supersede i id actor =>
    have hkind : ("memory.superseded", "superseded", 0) ∈ retirements := by simp [retirements]
    exact (retire_atomic h hkind i hc.1 hc.2).discard
  | archive i id actor =>
    have hkind : ("memory.archived", "archived", 1) ∈ retirements := by simp [retirements]
    exact (retire_atomic h hkind i hc.1 hc.2).discard

/-- No call puts a head in place that cannot be mirrored. -/
theorem keeps_headEncodes_op (c : MutatingCall) : Keeps (HeadEncodes H) (c.op H) := by
  have hlifecycle : ∀ i id target actor,
      Keeps (HeadEncodes H) (setLifecycle H i id target actor) := by
    intro i id target actor
    refine (keeps_headEncodes_readDb _).bind fun row => ?_
    cases row with
    | none => exact Keeps.throw _
    | some row =>
      simp only
      split
      · exact Keeps.throw _
      · exact (keeps_headEncodes_emitWith _ _ _).bind fun _ => Keeps.pure _
  have hversion : ∀ nodeId v, Keeps (HeadEncodes H) (checkVersion H nodeId v) := fun _ _ =>
    (keeps_headEncodes_readDb _).bind fun _ =>
      Keeps.ite (fun _ => Keeps.throw _) fun _ => Keeps.pure _
  have hretire : ∀ kind i id actor, Keeps (HeadEncodes H)
      (retireRecord H kind i id actor none >>= fun _ => getMemory H id) := by
    intro kind i id actor
    refine Keeps.bind (Keeps.bind ?_ fun _ => keeps_headEncodes_emit _ _) fun _ =>
      keeps_headEncodes_readDb _
    exact keeps_headEncodes_now
  cases c with
  | setGraphStatus i graphId status =>
    exact (Keeps.ofExcept _).bind fun _ => (keeps_headEncodes_readDb _).bind fun _ =>
      (Keeps.ofExcept _).bind fun _ => keeps_headEncodes_now.bind fun _ =>
        (keeps_headEncodes_emit _ _).bind fun _ => Keeps.pure _
  | setNodeStatus i nodeId status version =>
    exact (Keeps.ofExcept _).bind fun _ => (hversion _ _).bind fun _ =>
      (keeps_headEncodes_emit _ _).bind fun _ => Keeps.pure _
  | recordOutput i nodeId output version =>
    exact (hversion _ _).bind fun _ => (keeps_headEncodes_emit _ _).bind fun _ => Keeps.pure _
  | decideHuman i d =>
    refine keeps_discard ?_
    refine (Keeps.ofExcept _).bind fun status => (keeps_headEncodes_readDb _).bind fun _ =>
      keeps_headEncodes_now.bind fun _ => (keeps_headEncodes_emit _ _).bind fun _ =>
        (keeps_headEncodes_readDb _).bind fun req => ?_
    split
    · exact Keeps.pure _
    · refine Keeps.bind ?_ fun _ => (hlifecycle _ _ _ _).bind fun _ => Keeps.pure _
      intro w h
      rw [wp_newLog]
      exact h
  | assertCurrent i id currentScope =>
    exact keeps_discard ((keeps_headEncodes_readDb _).bind fun _ => (Keeps.ofExcept _).bind fun _ =>
      Keeps.ite (fun _ => Keeps.pure _) fun _ => (keeps_headEncodes_emit _ _).bind fun _ =>
        keeps_headEncodes_readDb _)
  | setLifecycle i id target actor => exact hlifecycle _ _ _ _
  | refreshDigest i id newDigest =>
    refine keeps_discard ((keeps_headEncodes_readDb _).bind fun row => ?_)
    cases row with
    | none => exact Keeps.throw _
    | some row =>
      exact Keeps.ite (fun _ => Keeps.pure _) fun _ =>
        (keeps_headEncodes_emitWith _ _ _).bind fun _ => Keeps.pure _
  | supersede i id actor => exact keeps_discard (hretire _ _ _ _)
  | archive i id actor => exact keeps_discard (hretire _ _ _ _)

/-- A step of a run: one of the calls, or anything else that happens to the project and leaves a
head that can be mirrored. -/
inductive ProjectStep (H : Host) where
  | call (c : MutatingCall)
  | other (f : World → World) (keeps : ∀ w, HeadEncodes H w → HeadEncodes H (f w))

namespace ProjectStep

/-- The world after a step. -/
def next (w : World) : ProjectStep H → World
  | call c => Act.final (c.op H) w
  | other f _ => f w

/-- A call meets its condition. -/
def Meets (w : World) : ProjectStep H → Prop
  | call c => c.Meets H w
  | other _ _ => True

/-- A call that raises an error of its own leaves the log and the tables as they were. -/
def IsAtomic (w : World) : ProjectStep H → Prop
  | call c => Atomic (c.op H) w
  | other _ _ => True

end ProjectStep

/-- **In every run, whatever else happens to the project**, the calls that meet their condition
leave the log and the tables as they were when they raise an error of their own. -/
theorem calls_atomic (h : HeadEncodes H w) {steps : List (ProjectStep H)}
    (hmeets : Run.Throughout ProjectStep.next ProjectStep.Meets w steps) :
    Run.Throughout ProjectStep.next ProjectStep.IsAtomic w steps := by
  refine hmeets.mono (I := HeadEncodes H) (fun w step h hc => ?_) h
  cases step with
  | call c => exact ⟨(keeps_headEncodes_op c).final h, call_atomic h hc⟩
  | other f keeps => exact ⟨keeps w h, trivial⟩

/-- A note about the owner. -/
def memo : MemoryWrite where
  kind := "fact"
  title := "Owner"
  claim := "Reports go to the owner"
  sourceRefs := ["README.md"]
  evidenceGrade := "A"
  owner := "ann"

/-- A request to publish the note. -/
def memoRequest : RequestArgs where
  approvalType := "action"
  requestedAction := "publish"
  scope := .mkObj []
  reason := "release"
  risk := "low"
  requestId := some "apr_memo"

/-- A project in which the note is written and the request is made. -/
def memoWorld : World :=
  Act.final (do
    let _ ← writeProposal .ascii (Host.quick id) 0 memo
    requestApproval (Host.quick id) 0 memoRequest) emptyWorld

/-- A human approves a request. -/
def approveMemo (approvalId : String) : DecisionArgs where
  approvalId := approvalId
  decision := "approved"
  actor := "ann"
  reason := "reviewed"

/-- The id of the note. -/
def memoId : String := "mem_0000000000000000"

/-- The project after the note is superseded. -/
def supersededMemo : World :=
  ProjectStep.next memoWorld (@ProjectStep.call (Host.quick id) (.supersede 0 memoId "ann"))

/-- The project after the note is archived. -/
def archivedMemo : World :=
  ProjectStep.next supersededMemo (@ProjectStep.call (Host.quick id) (.archive 0 memoId "ann"))

/-- The project after the request is decided. -/
def decidedMemo : World :=
  ProjectStep.next archivedMemo
    (@ProjectStep.call (Host.quick id) (.decideHuman 0 (approveMemo "apr_memo")))

theorem recordReadable_of_isOk {db : Db} {id : String}
    (h : (db.getMemory H id).toOption.isSome = true) : RecordReadable H db id := by
  intro x hx
  rw [hx] at h
  cases h

theorem approveMemo_meets {w : World} {approvalId : String}
    (h : w.db.movedBy (Host.quick id) approvalId = none) :
    (approveMemo approvalId).Meets (Host.quick id) w where
  reason := rfl
  status _ status _ := by cases status <;> exact ⟨_, rfl⟩
  moves _ capability hmoved := by
    rw [show w.db.movedBy _ (approveMemo approvalId).approvalId = none from h] at hmoved
    cases hmoved

/-- The note can be read before both calls, and neither decision moves a capability. -/
theorem memo_conditions :
    (memoWorld.db.getMemory (Host.quick id) memoId).toOption.isSome = true ∧
      (supersededMemo.db.getMemory (Host.quick id) memoId).toOption.isSome = true ∧
      archivedMemo.db.movedBy (Host.quick id) "apr_memo" = none ∧
      decidedMemo.db.movedBy (Host.quick id) "apr_1" = none := by
  decide +kernel

/-- The note is superseded and archived, the request is decided; then a decision on a request that
is not there and five more calls raise. -/
theorem refusals_atomic :
    Run.Throughout ProjectStep.next ProjectStep.IsAtomic memoWorld
      ([.call (.supersede 0 memoId "ann"), .call (.archive 0 memoId "ann"),
        .call (.decideHuman 0 (approveMemo "apr_memo")),
        .call (.decideHuman 0 (approveMemo "apr_1")), .call (.setGraphStatus 0 "graph-1" "running"),
        .call (.setNodeStatus 0 "node-1" "running" 0),
        .call (.setLifecycle 1 "tool" "approved" "ann"),
        .call (.refreshDigest 1 "tool" "sha256:1"), .call (.assertCurrent 2 "apr_1" (.mkObj []))] :
          List (ProjectStep (Host.quick id))) := by
  have henc : ∀ s, (Host.quick id).encodes s = true := fun _ => rfl
  obtain ⟨hnote, hnote', hmemo, hother⟩ := memo_conditions
  exact @calls_atomic (Host.quick id) memoWorld (henc _) _
    ⟨⟨henc _, recordReadable_of_isOk hnote⟩, ⟨henc _, recordReadable_of_isOk hnote'⟩,
      approveMemo_meets hmemo, approveMemo_meets hother, trivial, trivial, henc _, henc _, trivial,
      trivial⟩

theorem supersede_unknown_run :
    (match (MutatingCall.supersede 0 "mem_unknown" "ann").op (Host.quick id) emptyWorld with
      | .ok _ _ => false
      | .error x w' => decide (x.isDomain = true ∧ w'.dir.iterEvents ≠ [])) = true := by
  decide +kernel

/-- **Superseding a record that is not there** raises after its event is in the log. -/
theorem supersede_unknown_logged :
    ¬ Atomic ((MutatingCall.supersede 0 "mem_unknown" "ann").op (Host.quick id)) emptyWorld := by
  intro h
  have hrun := supersede_unknown_run
  cases hx : (MutatingCall.supersede 0 "mem_unknown" "ann").op (Host.quick id) emptyWorld with
  | ok u w' =>
    rw [hx] at hrun
    cases hrun
  | error x w' =>
    rw [hx] at hrun
    obtain ⟨hdomain, hlog⟩ := of_decide_eq_true hrun
    have hsame := (wp_of_error hx).1 h hdomain
    refine hlog ?_
    rw [hsame.1]
    rfl

end Shiroe
