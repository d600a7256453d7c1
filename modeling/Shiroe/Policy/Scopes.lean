import Shiroe.Storage.Kept
import Shiroe.Storage.Redaction
import Shiroe.Capabilities.Requests

/-!
# The scope that a request is compared by

A request keeps its scope as the redaction pass leaves it, and `assert_current` compares the digest
of the stored scope with the digest of the scope that it is given.

* `scopeDigest_scrubbed` : when the two digests agree;
* `scope_stays_current` : a scope that the pass leaves as it is stays current, through decisions,
  comparisons, other requests and rebuilds of the tables.
-/

namespace Shiroe

open Act

variable {H : Host}

/-- **The stored scope has the digest of the scope that was asked for** exactly if the redaction
pass leaves it as it is, or two texts have one hash. -/
theorem scopeDigest_scrubbed {s : Json} {d : String} (h : scopeDigest H s = .ok d) :
    scopeDigest H (s.mapStr H.scrub) = .ok d ↔ s.mapStr H.scrub = s ∨
      (H.encodes (String.ofList ((s.mapStr H.scrub).dumps false)) = true ∧
        s.mapStr H.scrub ≠ s ∧
        H.sha256 ((s.mapStr H.scrub).dumps false) = H.sha256 (s.dumps false)) := by
  by_cases hs : s.mapStr H.scrub = s
  · rw [hs]
    exact ⟨fun _ => Or.inl rfl, fun _ => h⟩
  · have hd : "sha256:" ++ H.sha256 (s.dumps false) = d := by
      unfold scopeDigest at h
      simp only at h
      split_ifs at h
      exact Except.ok.inj h
    unfold scopeDigest
    by_cases henc : H.encodes (String.ofList ((s.mapStr H.scrub).dumps false)) = true
    · simp only [henc, if_true, Except.ok.injEq, ← hd, hs, false_or, ne_eq, not_false_eq_true,
        true_and]
      exact ⟨(String.append_right_inj _).1, congrArg _⟩
    · simp [henc, hs]

/-! ### Requests under one id -/

/-- What the table holds under the id asks for the scope. -/
def Db.Scoped (id : String) (scope : Json) (db : Db) : Prop :=
  ∀ r ∈ db.approvalRequests, r.id = .text id → r.scopeJson = .json scope

/-- If the event requests under the id, it asks for the scope. -/
def AsksOnly (H : Host) (id : String) (scope env : Json) : Prop :=
  env.get "event_type" = .str "approval.requested" →
    bindText H ((env.get "payload").get "id") = .ok (.text id) →
    (env.get "payload").get "scope" = scope

section

variable {id : String} {scope : Json}

theorem asksOnly_of_ne {e : EventEnvelope} (he : e.eventType ≠ "approval.requested") (t : String)
    (env : Json) (henv : IsEnvOf H e t env) : AsksOnly H id scope env := by
  intro ht
  rw [henv.eventType] at ht
  exact absurd (Json.str.inj ht) he

theorem payloadOf_eq_ok {env p : Json} (h : payloadOf env = .ok p) :
    p = env.get "payload" ∨ p = .mkObj [] := by
  unfold payloadOf Json.orElse Json.dict at h
  split_ifs at h
  · exact Or.inl (Except.ok.inj h).symm
  · exact Or.inr (Except.ok.inj h).symm

theorem scoped_insertApproval {r : ApprovalRow} (h : r.id = .text id → r.scopeJson = .json scope) :
    Keeps (Db.Scoped id scope) (insertApproval r) := by
  intro db hdb
  rw [insertApproval, wp_exec]
  split
  · intro r' hr' hid
    rcases Table.mem_replace.1 hr' with ⟨hr', -⟩ | rfl
    · exact hdb r' hr' hid
    · exact h hid
  · exact hdb

theorem scoped_updateApproval {columns : List (String × SqlVal)} {v : SqlVal}
    {f : ApprovalRow → ApprovalRow} (hf : ∀ r, (f r).id = r.id ∧ (f r).scopeJson = r.scopeJson) :
    Keeps (Db.Scoped id scope) (updateApproval columns v f) := by
  refine Keeps.bind Keeps.get fun _ => Keeps.bind ?_ fun _ => Keeps.pure _
  intro db hdb
  rw [wp_exec]
  split
  · intro r' hr' hid
    obtain ⟨r, hr, rfl⟩ := Table.mem_update.1 hr'
    split_ifs at hid ⊢ with hmatch
    · rw [(hf r).2]
      exact hdb r hr ((hf r).1 ▸ hid)
    · exact hdb r hr hid
  · exact hdb

theorem scoped_applyRequested {p : Json}
    (h : bindText H (p.get "id") = .ok (.text id) → p.get "scope" = scope) :
    Keeps (Db.Scoped id scope) (applyRequested H p) := by
  refine Keeps.ite (fun _ => Keeps.pure _) fun _ => ?_
  intro db hdb
  rw [wp_bind]
  refine wp_text_any (fun _ => hdb) fun v hv => ?_
  have hinsert : ∀ r : ApprovalRow, r.id = v → r.scopeJson = .json (p.get "scope") →
      Keeps (Db.Scoped id scope) (insertApproval r) := by
    intro r hid hscope
    refine scoped_insertApproval fun hk => ?_
    rw [hscope, h (by rw [hv, ← hid, hk])]
  -- the other columns are bound, and then the row is put in
  refine Keeps.bind (Keeps.ofExcept _) (fun _ => ?_) db hdb
  iterate 9 refine Keeps.bind (Keeps.ofExcept _) fun _ => ?_
  exact Keeps.bind (hinsert _ rfl rfl) fun _ => Keeps.pure _

theorem scoped_applyApproval {env : Json} (h : AsksOnly H id scope env) :
    Keeps (Db.Scoped id scope) (applyApproval H env) := by
  intro db hdb
  unfold applyApproval
  rw [wp_bind, wp_ofExcept]
  cases hp : payloadOf env with
  | error x => exact hdb
  | ok p =>
    refine Keeps.ite (fun ht => scoped_applyRequested fun hid => ?_) (fun _ => ?_) db hdb
    · rcases payloadOf_eq_ok hp with rfl | rfl
      · exact h ht hid
      · cases hid
    · refine Keeps.ite (fun _ => ?_) fun _ => Keeps.ite (fun _ => ?_) fun _ => Keeps.pure _
      · refine Keeps.ite (fun _ => Keeps.pure _) fun _ => ?_
        iterate 5 refine Keeps.bind (Keeps.ofExcept _) fun _ => ?_
        exact Keeps.bind (scoped_updateApproval fun _ => ⟨rfl, rfl⟩) fun _ => Keeps.pure _
      · refine Keeps.ite (fun _ => Keeps.pure _) fun _ => Keeps.bind (Keeps.ofExcept _) fun _ => ?_
        exact Keeps.bind (scoped_updateApproval fun _ => ⟨rfl, rfl⟩) fun _ => Keeps.pure _

/-- The requests are all that the fact is about. -/
theorem keeps_scoped {α : Type} {x : Act Exc Db α} (h : Leaves Db.approvalRequests x) :
    Keeps (Db.Scoped id scope) x := by
  intro db hdb
  have hsame : ∀ db' : Db, db'.approvalRequests = db.approvalRequests → Db.Scoped id scope db' :=
    fun db' h => by
      unfold Db.Scoped
      rw [h]
      exact hdb
  exact wp_mono (h.wp db) (fun _ _ => hsame _) fun _ _ => hsame _

theorem folds_scoped : Folds H (AsksOnly H id scope) (Db.Scoped id scope) where
  fold env henv := by
    refine Keeps.bind (Keeps.ofExcept _) fun domain => ?_
    cases domain with
    | none => exact Keeps.pure _
    | some d =>
      cases d with
      | memory => exact Keeps.map (keeps_scoped ((leaves_applyMemory env).comp Db.approvalRequests))
      | capabilities =>
        exact Keeps.map (keeps_scoped ((leaves_applyCapability env).comp Db.approvalRequests))
      | approvals => exact Keeps.map (scoped_applyApproval henv)
      | workProjection =>
        exact Keeps.map (keeps_scoped ((leaves_applyWork env).comp Db.approvalRequests))
  mirror := by
    intro db db' h hdb
    have hrows : db'.approvalRequests = db.approvalRequests :=
      (congrArg Db.approvalRequests h :)
    unfold Db.Scoped
    rw [hrows]
    exact hdb
  cleared db := by
    intro r hr
    cases hr

/-! ### Runs of the approval service -/

/-- A call of the approval service, a rebuild of the tables, or what another service does. -/
inductive ApprovalCall where
  | request (object : ℕ) (a : RequestArgs)
  | decide (object : ℕ) (d : DecisionArgs)
  | assertCurrent (object : ℕ) (id : String) (currentScope : Json)
  | rebuild
  | other (change : World → World)

/-- The id that a request gets. -/
def requestIdAt (H : Host) (w : World) (a : RequestArgs) : String :=
  (given a.requestId).getD ("apr_" ++ H.uuid w.drawn)

variable (H) in
/-- The world after a call. -/
def approvalStep (w : World) : ApprovalCall → World
  | .request i a => Act.final (requestApproval H i a) w
  | .decide i d => Act.final (decideHuman H i d) w
  | .assertCurrent i id currentScope => Act.final (assertCurrent H i id currentScope) w
  | .rebuild => rebuild H w
  | .other change => change w

variable (H) in
/-- What is stored under the id is asked for the scope, and the other services make no requests. -/
def ApprovalCall.Meets (id : String) (scope : Json) (w : World) : ApprovalCall → Prop
  | request _ a => H.scrub (requestIdAt H w a) = id → a.scope = scope
  | other change =>
    (∀ r ∈ (change w).db.approvalRequests, r ∈ w.db.approvalRequests) ∧
      ∀ env ∈ (change w).dir.iterEvents,
        env ∈ w.dir.iterEvents ∨ env.get "event_type" ≠ .str "approval.requested"
  | _ => True

/-- What the log and the table hold under the id asks for the scope. -/
abbrev World.ScopedTo (H : Host) (id : String) (scope : Json) : World → Prop :=
  Kept (AsksOnly H id scope) (Db.Scoped id scope)

theorem scopedTo_congr {w w' : World} (h : w.ScopedTo H id scope) (hdir : w'.dir = w.dir)
    (hdb : w'.db = w.db) : w'.ScopedTo H id scope :=
  ⟨by rw [hdir]; exact h.log, by rw [hdb]; exact h.tables⟩

theorem scopedTo_readDb {α : Type} (f : Db → Except Exc α) :
    Keeps (World.ScopedTo H id scope) (readDb f) :=
  Keeps.get.bind fun _ => Keeps.ofExcept _

theorem scopedTo_request (i : ℕ) (a : RequestArgs) {w : World} (hw : w.ScopedTo H id scope)
    (hobj : scope.isObj = true)
    (ha : H.scrub (requestIdAt H w a) = id → a.scope.mapStr H.scrub = scope) :
    Act.wp (requestApproval H i a) (fun _ => World.ScopedTo H id scope)
      (fun _ => World.ScopedTo H id scope) w := by
  unfold requestApproval
  rw [wp_bind]
  have hid : Act.wp (requestId H a.requestId) (fun x w' => x = requestIdAt H w a ∧
      w'.ScopedTo H id scope) (fun _ => World.ScopedTo H id scope) w := by
    unfold requestId requestIdAt
    cases given a.requestId with
    | some x => exact (wp_pure _).2 ⟨rfl, hw⟩
    | none => simpa only [wp_bind, wp_uuidHex, wp_pure] using ⟨rfl, scopedTo_congr hw rfl rfl⟩
  refine wp_mono hid ?_ fun _ _ h => h
  rintro x w₁ ⟨rfl, hw₁⟩
  rw [wp_bind, wp_now, wp_bind, wp_ofExcept]
  split
  · rename_i r hr
    obtain ⟨t, st, scope', digest⟩ := r
    obtain ⟨-, -, hdict, -⟩ := checkRequest_eq_ok hr
    have hask : ∀ t' env, IsEnvOf H (a.event (requestIdAt H w a) (H.clock w₁.tick) t scope' digest)
        t' env → AsksOnly H id scope env := by
      intro t' env henv _ hbind
      rw [henv.payload] at hbind ⊢
      have hk : H.scrub (requestIdAt H w a) = id := by
        have hv : bindText H (.str (H.scrub (requestIdAt H w a))) = .ok (.text id) := by
          simpa [RequestArgs.event, List.lookup] using hbind
        exact (SqlVal.text.inj (bindText_str_eq_ok hv)).symm
      have hscope : scope' = a.scope := by
        -- a scope that the pass makes an object is one
        have h : (a.scope.mapStr H.scrub).isObj = true := by rw [ha hk, hobj]
        rw [Json.isObj_mapStr] at h
        cases hs : a.scope with
        | obj d =>
          rw [hs] at hdict
          exact (Except.ok.inj hdict).symm
        | _ =>
          rw [hs] at h
          cases h
      rw [← ha hk, ← hscope]
      simp [RequestArgs.event, List.lookup]
    exact (Keeps.bind (folds_scoped.emit i hask) fun _ => Keeps.pure _) _
      (scopedTo_congr hw₁ rfl rfl)
  · exact scopedTo_congr hw₁ rfl rfl

theorem scopedTo_setLifecycle (i : ℕ) (j : Json) (target actor : String) :
    Keeps (World.ScopedTo H id scope) (setLifecycle H i j target actor) := by
  unfold setLifecycle
  refine Keeps.bind (scopedTo_readDb _) fun row => ?_
  cases row with
  | none => exact Keeps.throw _
  | some row =>
    dsimp only
    split
    · exact Keeps.throw _
    · rename_i t _
      have ht : ∀ t : Lifecycle, t.eventType ≠ "approval.requested" := by
        intro t
        cases t <;> decide
      exact Keeps.bind (folds_scoped.emitWith i (asksOnly_of_ne (ht t))
        fun _ => keeps_scoped (requests_writeLifecycle _ _ _)) fun _ => Keeps.pure _

theorem scopedTo_decide (i : ℕ) (d : DecisionArgs) :
    Keeps (World.ScopedTo H id scope) (decideHuman H i d) := by
  refine Keeps.bind (Keeps.ofExcept _) fun status => Keeps.bind (scopedTo_readDb _) fun _ =>
    Keeps.bind (fun _ h => wp_now.2 (scopedTo_congr h rfl rfl)) fun when => ?_
  refine Keeps.bind (folds_scoped.emit i (asksOnly_of_ne (by simp [DecisionArgs.event])))
    fun _ => Keeps.bind (scopedTo_readDb _) fun req => ?_
  cases approvedCapability req status with
  | none => exact Keeps.pure _
  | some capabilityId =>
    exact Keeps.bind (fun _ h => wp_newLog.2 (scopedTo_congr h rfl rfl)) fun j =>
      Keeps.bind (scopedTo_setLifecycle j _ _ _) fun _ => Keeps.pure _

theorem scopedTo_assertCurrent (i : ℕ) (k : String) (s : Json) :
    Keeps (World.ScopedTo H id scope) (assertCurrent H i k s) :=
  Keeps.bind (scopedTo_readDb _) fun _ => Keeps.bind (Keeps.ofExcept _) fun _ =>
    Keeps.ite (fun _ => Keeps.pure _) fun _ =>
      Keeps.bind (folds_scoped.emit i (asksOnly_of_ne (by simp [staledEvent]))) fun _ =>
        scopedTo_readDb _

/-- What is stored under the id stays what the scope is after redaction. -/
theorem scopedTo_step {s : Json} (hobj : s.isObj = true) {w : World} {c : ApprovalCall}
    (hw : w.ScopedTo H id (s.mapStr H.scrub)) (hc : c.Meets H id s w) :
    (approvalStep H w c).ScopedTo H id (s.mapStr H.scrub) := by
  cases c with
  | request i a =>
    refine wp_final (scopedTo_request i a hw (by rw [Json.isObj_mapStr, hobj]) fun hk => ?_)
    rw [hc hk]
  | decide i d => exact (scopedTo_decide i d).final hw
  | assertCurrent i k current => exact (scopedTo_assertCurrent i k current).final hw
  | rebuild => exact folds_scoped.rebuild hw
  | other change =>
    refine ⟨fun env henv => ?_, fun r hr => hw.tables r (hc.1 r hr)⟩
    rcases hc.2 env henv with henv | hne
    · exact hw.log env henv
    · exact fun ht => absurd ht hne

theorem scopedTo_run {w : World} (empty : w.dir.files = [] ∧ w.db.approvalRequests = [])
    {s : Json} (hobj : s.isObj = true) {calls : List ApprovalCall}
    (hmeets : Run.Throughout (approvalStep H) (ApprovalCall.Meets H id s) w calls) (n : ℕ) :
    (Run.stateAt (approvalStep H) w calls n).ScopedTo H id (s.mapStr H.scrub) := by
  induction n with
  | zero =>
    refine ⟨fun env henv => ?_, fun r hr => ?_⟩
    · rw [Run.stateAt_zero, LogDir.iterEvents, empty.1] at henv
      cases henv
    · rw [Run.stateAt_zero, empty.2] at hr
      cases hr
  | succ n ih =>
    by_cases hn : n < calls.length
    · rw [Run.stateAt_succ hn]
      exact scopedTo_step hobj ih (hmeets.at hn)
    · rw [Run.stateAt_of_length_le (by omega)]
      exact ih

/-- The digest of a stored request is the one of its stored scope. -/
theorem Db.Scoped.digest {db : Db} (h : db.Scoped id scope) (hobj : scope.isObj = true)
    {req : ApprovalRequest} (hreq : db.getApproval H id = .ok req) :
    scopeDigest H scope = .ok req.digest := by
  unfold Db.getApproval at hreq
  obtain ⟨-, -, hreq⟩ := except_bind_eq_ok.1 hreq
  cases hr : db.approval? id with
  | none =>
    rw [hr] at hreq
    cases hreq
  | some r =>
    rw [hr] at hreq
    have hid : r.id = .text id := by simpa using List.find?_some hr
    obtain ⟨⟨s, hs, hdict, hdigest⟩, -⟩ := ApprovalRow.load_eq_ok hreq
    rw [h r (List.mem_of_find?_eq_some hr) hid] at hs
    obtain rfl : scope = s := Except.ok.inj hs
    cases scope with
    | obj d =>
      have hscope : Json.obj d = req.scope := Except.ok.inj hdict
      rw [hscope]
      exact hdigest
    | _ => cases hobj

theorem readDb_eq {α : Type} {f : Db → Except Exc α} (w : World) :
    readDb f w = Act.ofExcept (f w.db) w := rfl

/-- **A request whose scope the redaction pass leaves as it is stays current**: the comparison with
its scope only reads it, in every state that a run from an empty project reaches. -/
theorem scope_stays_current {w : World} (empty : w.dir.files = [] ∧ w.db.approvalRequests = [])
    {s : Json} (hobj : s.isObj = true) (hkept : s.mapStr H.scrub = s) {calls : List ApprovalCall}
    (hmeets : Run.Throughout (approvalStep H) (ApprovalCall.Meets H id s) w calls) (n i : ℕ) :
    let w' := Run.stateAt (approvalStep H) w calls n
    assertCurrent H i id s w' = getApproval H id w' := by
  intro w'
  have hscoped : w'.db.Scoped id s := hkept ▸ (scopedTo_run empty hobj hmeets n).tables
  unfold assertCurrent
  have hget := readDb_eq (f := (·.getApproval H id)) w'
  change getApproval H id w' = _ at hget
  cases hreq : w'.db.getApproval H id with
  | error x =>
    rw [hreq] at hget
    rw [bind_of_error hget, hget]
    rfl
  | ok req =>
    rw [hreq] at hget
    rw [bind_of_ok hget, hscoped.digest hobj hreq, ofExcept_ok_bind, if_pos rfl, hget]
    rfl

end

/-! ### Two runs -/

/-- A request to publish to a target. -/
def publishRequest (target : String) : RequestArgs where
  approvalType := "action"
  requestedAction := "publish"
  scope := .obj [("target", .str target)]
  reason := "release"
  risk := "high"
  requestId := some "apr_release"

/-- A human approves the request. -/
def approveRelease : DecisionArgs where
  approvalId := "apr_release"
  decision := "approved"
  actor := "human"
  reason := "reviewed"

/-- A request is made and approved, and the tables are rebuilt. -/
def releaseCalls (target : String) : List ApprovalCall :=
  [.request 0 (publishRequest target), .decide 0 approveRelease, .rebuild]

/-- The approved request is read back as it is. -/
theorem scope_stays_current_docs :
    let w' := Run.stateAt (approvalStep (Host.quick id)) emptyWorld (releaseCalls "docs") 3
    assertCurrent (Host.quick id) 0 "apr_release" (publishRequest "docs").scope w' =
        getApproval (Host.quick id) "apr_release" w' ∧
      (Act.result? (getApproval (Host.quick id) "apr_release") w').map (·.status) =
        some .approved := by
  intro w'
  have hmeets : Run.Throughout (approvalStep (Host.quick id)) (ApprovalCall.Meets (Host.quick id)
      "apr_release" (publishRequest "docs").scope) emptyWorld (releaseCalls "docs") :=
    ⟨fun _ => rfl, trivial, trivial, trivial⟩
  exact ⟨scope_stays_current ⟨rfl, rfl⟩ rfl (Json.mapStr_id _) hmeets 3 0, by decide +kernel⟩

/-- **A request whose scope holds a mail address goes stale** at the comparison with the scope that
it was made with, approved or not. -/
theorem scope_goes_stale :
    let H := Host.quick scrubMail
    let s := (publishRequest "ann@example.org").scope
    let w := Run.stateAt (approvalStep H) emptyWorld (releaseCalls "ann@example.org")
    let compared := fun n => (Act.result? (assertCurrent H 0 "apr_release" s) (w n)).map (·.status)
    Run.Throughout (approvalStep H) (ApprovalCall.Meets H "apr_release" s) emptyWorld
        (releaseCalls "ann@example.org") ∧
      compared 1 = some .stale ∧ compared 2 = some .stale ∧ compared 3 = some .stale :=
  ⟨⟨fun _ => rfl, trivial, trivial, trivial⟩, by decide +kernel⟩

end Shiroe
