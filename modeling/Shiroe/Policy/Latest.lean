import Shiroe.Atomicity
import Shiroe.Lib.LatestRow
import Shiroe.Policy.Scopes
import Shiroe.Storage.Lines
import Shiroe.Work.Store

/-!
# Which request is the latest

`_latest_approval_id` and `find_latest_matching` take the request with the greatest `requested_at`,
a text that names a second, and among requests of one second the one that was stored first.  The
log has the requests in the order in which they were made.

* `tableStep_approval` : what the calls of the approval service do to the requests and the log;
* `latest_iff` : exactly when both lookups return the request that was logged last, in every state
  of a run.
-/

namespace Shiroe

open Act LatestRow

variable {H : Host}

/-! ### The lookups and the log -/

/-- The id that an `approval.requested` event requests under. -/
def requestedId (env : Json) : Option SqlVal :=
  if env.get "event_type" = .str "approval.requested" then
    match (env.get "payload").get "id" with
    | .str id => some (.text id)
    | _ => none
  else none

/-- The ids of the requests that were logged between two states. -/
def newRequests (w w' : World) : List SqlVal :=
  (w'.linesOf requestedId).diff (w.linesOf requestedId)

variable (H) in
/-- One call.  The ids of the requests are kept beside the world, in the order in which their events
were appended to the log. -/
def requestStep (s : World × List SqlVal) (c : ApprovalCall) : World × List SqlVal :=
  (approvalStep H s.1 c, s.2 ++ newRequests s.1 (approvalStep H s.1 c))

/-- A request, a decision, or a comparison of scopes. -/
def ApprovalCall.own : ApprovalCall → Bool
  | .request _ _ => true
  | .decide _ _ => true
  | .assertCurrent _ _ _ => true
  | _ => false

/-- The time of a request, as the lookups order by it. -/
def ApprovalRow.time (r : ApprovalRow) : String := r.requestedAt.text?.getD ""

/-- The row has the graph and the node. -/
def ApprovalRow.inNode (graphId nodeId : String) (r : ApprovalRow) : Bool :=
  r.graphId = .text graphId && r.nodeId = .text nodeId

/-- What the two lookups select by. -/
def approvalLookups : Set (ApprovalRow → Bool) :=
  {p | (∃ k : MatchKey, p = (·.hasKey k)) ∨
    ∃ graphId nodeId, p = ApprovalRow.inNode graphId nodeId}

/-- **Both lookups return the request that was logged last** of those that they select. -/
structure LatestIsLast (H : Host) (s : World × List SqlVal) : Prop where
  /-- The row of `find_latest_matching`. -/
  matching : ∀ k : MatchKey, s.1.db.latestMatching? k =
    lastLogged ApprovalRow.id s.2 (s.1.requests.filter (·.hasKey k))
  /-- The row of `_latest_approval_id`. -/
  ofNode : ∀ graphId nodeId, s.1.db.latestApproval? graphId nodeId =
    lastLogged ApprovalRow.id s.2 (s.1.requests.filter (·.inNode graphId nodeId))
  /-- What `find_latest_matching` returns. -/
  found : ∀ k : MatchKey, k.bind H = .ok () → s.1.db.findLatestMatching H k =
    (lastLogged ApprovalRow.id s.2 (s.1.requests.filter (·.hasKey k))).elim (.ok none) fun r => do
      return some (← s.1.db.getApproval H (← r.id.asStr))
  /-- What `_latest_approval_id` returns. -/
  foundId : ∀ graphId nodeId, H.encodes graphId = true → H.encodes nodeId = true →
    latestApprovalId H graphId nodeId s.1 =
      .ok ((lastLogged ApprovalRow.id s.2
        (s.1.requests.filter (·.inNode graphId nodeId))).bind (·.id.text?)) s.1

theorem latestIsLast_iff {s : World × List SqlVal} : LatestIsLast H s ↔
    Law ApprovalRow.id ApprovalRow.time approvalLookups s.1.requests s.2 := by
  constructor
  · rintro ⟨hmatching, hnode, -, -⟩ p (⟨k, rfl⟩ | ⟨graphId, nodeId, rfl⟩)
    · exact hmatching k
    · exact hnode graphId nodeId
  · intro h
    have hmatching : ∀ k : MatchKey, s.1.db.latestMatching? k =
        lastLogged ApprovalRow.id s.2 (s.1.requests.filter (·.hasKey k)) :=
      fun k => h _ (Or.inl ⟨k, rfl⟩)
    have hnode : ∀ graphId nodeId, s.1.db.latestApproval? graphId nodeId =
        lastLogged ApprovalRow.id s.2 (s.1.requests.filter (·.inNode graphId nodeId)) :=
      fun graphId nodeId => h _ (Or.inr ⟨graphId, nodeId, rfl⟩)
    refine ⟨hmatching, hnode, fun k hk => ?_, fun graphId nodeId hg hn => ?_⟩
    · rw [← hmatching k, Db.findLatestMatching, hk]
      cases s.1.db.latestMatching? k <;> rfl
    · rw [← hnode graphId nodeId]
      have hbind : ∀ {t : String}, H.encodes t = true →
          bindText H (.str t) = .ok (.text t) := fun ht => by simp [bindText, bindParam, ht]
      rw [latestApprovalId, readDb_eq, hbind hg, hbind hn]
      rfl

/-! ### What the calls do -/

theorem newRequests_of_perm {w w' : World} {new : List SqlVal}
    (h : (w'.linesOf requestedId).Perm (w.linesOf requestedId ++ new)) :
    (newRequests w w').Perm new := by
  refine (h.diff_right _).trans ?_
  rw [List.perm_iff_count]
  intro v
  rw [List.count_diff, List.count_append]
  omega

/-- Calls that log no request. -/
theorem newRequests_eq_nil {w w' : World}
    (h : (w'.linesOf requestedId).Perm (w.linesOf requestedId)) : newRequests w w' = [] :=
  List.perm_nil.1 (newRequests_of_perm (by rwa [List.append_nil]))

theorem requestedId_of_ne {e : EventEnvelope} (he : e.eventType ≠ "approval.requested") (t : String)
    (env : Json) (henv : IsEnvOf H e t env) : requestedId env = none := by
  rw [requestedId, henv.eventType, if_neg fun h => he (Json.str.inj h)]

theorem requestedId_event {a : RequestArgs} {id requestedAt digest : String} {t : ApprovalType}
    {scope : Json} (time : String) (env : Json)
    (henv : IsEnvOf H (a.event id requestedAt t scope digest) time env) :
    requestedId env = some (.text (H.scrub id)) := by
  simp [requestedId, henv.eventType, henv.payload, RequestArgs.event, List.lookup]

/-- What a request logs. -/
theorem requestApproval_logs (i : ℕ) (a : RequestArgs) (w : World) :
    Act.wp (requestApproval H i a)
      (fun id w' => newRequests w w' = [.text (H.scrub id)])
      (fun _ w' => newRequests w w' = [] ∨ ∃ v, newRequests w w' = [v]) w := by
  have hnone : ∀ {w' : World}, w'.dir = w.dir → newRequests w w' = [] := fun h =>
    newRequests_eq_nil (by rw [World.linesOf, World.linesOf, h])
  unfold requestApproval
  rw [wp_bind]
  refine wp_mono (requestId_spec a.requestId) ?_ fun _ _ h => h
  rintro id w₁ ⟨⟨n, rfl⟩, -⟩
  rw [wp_bind, wp_now, wp_bind, wp_ofExcept]
  split
  · rename_i x hx
    obtain ⟨t, st, scope, digest⟩ := x
    have hadded : ∀ {w' : World}, LineAdded H (a.event id (H.clock w.tick) t scope digest)
        { w with drawn := n, tick := w.tick + 1 } w' →
          newRequests w w' = [.text (H.scrub id)] := fun h =>
      List.perm_singleton.1 (newRequests_of_perm (h.linesOf requestedId_event))
    rw [wp_bind]
    refine wp_mono (emit_lines i _ _) (fun _ w' h => (wp_pure _).2 (hadded h)) fun _ w' h => ?_
    rcases h with h | h
    · exact Or.inl (newRequests_eq_nil (by rw [World.linesOf, World.linesOf, h]))
    · exact Or.inr ⟨_, hadded h⟩
  · exact Or.inl (hnone rfl)

/-- What a decision logs. -/
theorem decideHuman_logs (i : ℕ) (d : DecisionArgs) (l : List SqlVal) :
    Keeps (fun w : World => (w.linesOf requestedId).Perm l) (decideHuman H i d) := by
  have hreads : ∀ {α : Type} (f : Db → Except Exc α),
      Keeps (fun w : World => (w.linesOf requestedId).Perm l) (readDb f) := fun f =>
    Keeps.bind Keeps.get fun _ => Keeps.ofExcept _
  have hlifecycle : ∀ (j : ℕ) (id : Json) (target : String),
      Keeps (fun w : World => (w.linesOf requestedId).Perm l)
        (setLifecycle H j id target "human") := by
    intro j id target
    refine Keeps.bind (hreads _) fun row => ?_
    cases row with
    | none => exact Keeps.throw _
    | some row =>
      dsimp only
      split
      · exact Keeps.throw _
      · rename_i t _
        have ht : t.eventType ≠ "approval.requested" := by cases t <;> decide
        exact Keeps.bind (linesOf_emitWith (requestedId_of_ne ht) j _ l) fun _ => Keeps.pure _
  refine Keeps.bind (Keeps.ofExcept _) fun status => Keeps.bind (hreads _) fun _ =>
    Keeps.bind (fun _ h => wp_now.2 h) fun when => ?_
  refine Keeps.bind (linesOf_emit (requestedId_of_ne (by simp [DecisionArgs.event])) i l)
    fun _ => Keeps.bind (hreads _) fun req => ?_
  cases approvedCapability req status with
  | none => exact Keeps.pure _
  | some capabilityId =>
    exact Keeps.bind (fun _ h => wp_newLog.2 h) fun j =>
      Keeps.bind (hlifecycle j _ _) fun _ => Keeps.pure _

theorem assertCurrent_logs (i : ℕ) (id : String) (scope : Json) (l : List SqlVal) :
    Keeps (fun w : World => (w.linesOf requestedId).Perm l) (assertCurrent H i id scope) := by
  have hreads : ∀ {α : Type} (f : Db → Except Exc α),
      Keeps (fun w : World => (w.linesOf requestedId).Perm l) (readDb f) := fun f =>
    Keeps.bind Keeps.get fun _ => Keeps.ofExcept _
  exact Keeps.bind (hreads _) fun _ => Keeps.bind (Keeps.ofExcept _) fun _ =>
    Keeps.ite (fun _ => Keeps.pure _) fun _ =>
      Keeps.bind (linesOf_emit (requestedId_of_ne (by simp [staledEvent])) i l) fun _ => hreads _

/-- A comparison marks the requests under an id as stale, or leaves all alone. -/
theorem assertCurrent_rows (i : ℕ) (id : String) (scope : Json) (w : World) :
    let done := fun w' : World => w'.requests = w.requests ∨ w'.requests =
      Table.update (fun r => r.id = .text (H.scrub id))
        (fun r => { r with status := .text "stale" })
        w.requests
    Act.wp (assertCurrent H i id scope) (fun _ => done) (fun _ => done) w := by
  intro done
  have hsame : ∀ {w' : World}, w'.requests = w.requests → done w' := fun h => Or.inl h
  unfold assertCurrent
  rw [wp_bind]
  refine wp_mono (getApproval_spec id w) ?_ fun _ w' h => hsame (h ▸ rfl)
  rintro req w₁ ⟨rfl, -⟩
  rw [wp_bind, wp_ofExcept]
  cases scopeDigest H scope with
  | error x => exact hsame rfl
  | ok digest =>
    simp only
    rw [wp_ite]
    refine ⟨fun _ => (wp_pure _).2 (hsame rfl), fun _ => ?_⟩
    rw [wp_bind]
    refine wp_mono (emit_staled i id req.digest digest w₁) ?_ fun _ w' h =>
      hsame (congrArg Db.approvalRequests h.2 :)
    rintro env w₂ ⟨-, db, hdb, hw₂⟩
    have hrows : db.approvalRequests = w₁.db.approvalRequests :=
      (congrArg Db.approvalRequests hdb :)
    have hdone : done w₂ := Or.inr (by rw [World.requests, hw₂, hrows]; rfl)
    exact wp_mono (getApproval_spec id w₂) (fun _ w' h => h.1 ▸ hdone) fun _ w' h => h ▸ hdone

/-! ### Steps over the table and the log -/

/-- A call on the requests and the ids that were logged. -/
abbrev ApprovalStep (rows : List ApprovalRow) (log : List SqlVal) (w' : World)
    (new : List SqlVal) : Prop :=
  TableStep ApprovalRow.id ApprovalRow.time approvalLookups rows log w'.requests (log ++ new)

theorem approvalStep_same {w w' : World} {log : List SqlVal} (h : w'.requests = w.requests) :
    ApprovalStep w.requests log w' [] := by
  have hsame : TableStep ApprovalRow.id ApprovalRow.time approvalLookups w.requests log
      (w.requests.map fun r => r) log :=
    TableStep.update _ (fun _ => rfl) (fun _ => rfl) fun _ _ _ => rfl
  rw [List.map_id'] at hsame
  rw [ApprovalStep, h, List.append_nil]
  exact hsame

/-- Columns that nothing is looked up by are changed. -/
theorem approvalStep_update {w w' : World} {log : List SqlVal} {p : ApprovalRow → Bool}
    {f : ApprovalRow → ApprovalRow} (h : w'.requests = Table.update p f w.requests)
    (hf : ∀ r, ∃ a b c d, f r = r.decide a b c d) : ApprovalStep w.requests log w' [] := by
  rw [ApprovalStep, h, List.append_nil]
  refine TableStep.update _ (fun r => ?_) (fun r => ?_) fun q hq r => ?_ <;>
    obtain ⟨a, b, c, d, hr⟩ := hf r <;> split_ifs
  · rw [hr]
    rfl
  · rfl
  · rw [hr]
    rfl
  · rfl
  · rcases hq with ⟨k, rfl⟩ | ⟨graphId, nodeId, rfl⟩ <;> rw [hr] <;> rfl
  · rfl

/-- The rows that a new one does not replace are those under other ids. -/
theorem replace_requests (r : ApprovalRow) {id : String} (hid : r.id = .text id)
    (t : List ApprovalRow) :
    Table.replace (·.id.key) r t = t.filter (fun r' => r'.id ≠ r.id) ++ [r] := by
  have hkey : r.id.key = some (.text id) := by rw [hid, SqlVal.key_text]
  rw [Table.replace, hkey, hid]
  congr 1
  refine List.filter_congr fun r' _ => ?_
  rw [Bool.eq_iff_iff, Bool.or_eq_true, decide_eq_true_iff, decide_eq_true_iff, decide_eq_true_iff]
  constructor
  · rintro (hnone | hne) hsame
    · rw [hsame, SqlVal.key_text] at hnone
      cases hnone
    · exact hne (by rw [hsame, SqlVal.key_text])
  · intro hne
    by_cases hnone : r'.id.key = none
    · exact Or.inl hnone
    · exact Or.inr fun hsame =>
        hne (SqlVal.eq_of_key_eq hnone (hsame.trans (SqlVal.key_text id).symm))

/-- **What one call does to the requests and the log.** -/
theorem tableStep_approval {c : ApprovalCall} (hc : c.own = true) (s : World × List SqlVal) :
    TableStep ApprovalRow.id ApprovalRow.time approvalLookups s.1.requests s.2
      (requestStep H s c).1.requests (requestStep H s c).2 := by
  obtain ⟨w, log⟩ := s
  change ApprovalStep w.requests log (approvalStep H w c) (newRequests w (approvalStep H w c))
  cases c with
  | request i a =>
    refine wp_final (I := fun w' => ApprovalStep w.requests log w' (newRequests w w'))
      (wp_mono (wp_and (requestApproval_spec i a w) (requestApproval_logs i a w)) ?_ ?_)
    · rintro id w' ⟨⟨-, t, scope, digest, db, -, -, -, hdb, hw'⟩, hnew⟩
      have hrows : db.approvalRequests = w.requests := (congrArg Db.approvalRequests hdb :)
      have hstored : w'.requests = Table.replace (·.id.key)
          (a.row H id (H.clock w.tick) t scope digest) w.requests := by
        rw [World.requests, hw', Db.withRequest, hrows]
      rw [hnew, ApprovalStep, hstored, replace_requests _ rfl]
      exact TableStep.stored (a.row H id (H.clock w.tick) t scope digest)
    · rintro x w' ⟨⟨-, hdb⟩, hnew | ⟨v, hnew⟩⟩
      all_goals
        have hrows : w'.requests = w.requests := (congrArg Db.approvalRequests hdb :)
        rw [hnew]
      · exact approvalStep_same hrows
      · rw [ApprovalStep, hrows]
        exact TableStep.logged v
  | decide i d =>
    have hnil : newRequests w (approvalStep H w (.decide i d)) = [] :=
      newRequests_eq_nil ((decideHuman_logs i d (w.linesOf requestedId)).final (List.Perm.refl _))
    rw [hnil]
    refine wp_final (I := fun w' => ApprovalStep w.requests log w' [])
      (wp_mono (decideHuman_rows i d w) (fun _ w' h => ?_) fun _ w' h => ?_)
    all_goals
      rcases h with h | ⟨id, a, b, c, d, h⟩
      · exact approvalStep_same h
      · exact approvalStep_update h fun r => ⟨_, _, _, _, rfl⟩
  | assertCurrent i id scope =>
    have hnil : newRequests w (approvalStep H w (.assertCurrent i id scope)) = [] :=
      newRequests_eq_nil
        ((assertCurrent_logs i id scope (w.linesOf requestedId)).final (List.Perm.refl _))
    rw [hnil]
    refine wp_final (I := fun w' => ApprovalStep w.requests log w' [])
      (wp_mono (assertCurrent_rows i id scope w) (fun _ w' h => ?_) fun _ w' h => ?_)
    all_goals
      rcases h with h | h
      · exact approvalStep_same h
      · exact approvalStep_update h fun r =>
          ⟨.text "stale", r.decidedAt, r.decidedBy, r.decisionReason, rfl⟩
  | rebuild => cases hc
  | other change => cases hc

/-! ### Runs -/

variable (H) in
/-- If the call logs a request, the request that is then stored under its id has a later time than
every other request that one of the lookups can choose instead. -/
def ApprovalCall.NamesLatest (s : World × List SqlVal) (c : ApprovalCall) : Prop :=
  NamesLater ApprovalRow.id ApprovalRow.time approvalLookups (requestStep H)
    (fun s => s.1.requests) Prod.snd s c

/-- **Exactly when the lookups return the request that was logged last**, in every state of a run:
each request that is logged has a later time than all others that it can be confused with. -/
theorem latest_iff {w : World} (empty : w.db.approvalRequests = []) {calls : List ApprovalCall}
    (hown : ∀ c ∈ calls, c.own = true) :
    (∀ n, LatestIsLast H (Run.stateAt (requestStep H) (w, []) calls n)) ↔
      Run.Throughout (requestStep H) (ApprovalCall.NamesLatest H) (w, []) calls := by
  have hstart : LookedUp ApprovalRow.id ApprovalRow.time approvalLookups w.requests [] := by
    rw [World.requests, empty]
    exact LookedUp.empty []
  simp only [latestIsLast_iff]
  exact law_throughout_iff (s := ((w, []) : World × List SqlVal)) hstart
    fun s c hc => tableStep_approval (hown c hc) s

/-! ### Requests of one second -/

/-- A request to publish the docs, under an id. -/
def docsRequest (id : String) : RequestArgs := { publishRequest "docs" with requestId := some id }

/-- The keys that it is found by. -/
def docsKey : MatchKey where
  graphId := none
  nodeId := none
  actionKind := none
  requestedAction := "publish"
  digest := "sha256:" ++ (Host.quick id).sha256 ((publishRequest "docs").scope.dumps false)

/-- **Of two requests of one second the first is found**, although the second was logged last. -/
theorem latest_is_first_of_second :
    let s := Run.stateAt (requestStep (Host.quick id)) (emptyWorld, [])
      [.request 0 (docsRequest "apr_1"), .request 0 (docsRequest "apr_2")] 2
    (s.1.db.latestMatching? docsKey).map (·.id) = some (.text "apr_1") ∧
      s.2 = [.text "apr_1", .text "apr_2"] ∧ ¬ LatestIsLast (Host.quick id) s := by
  intro s
  have hfound : (s.1.db.latestMatching? docsKey).map (·.id) = some (.text "apr_1") := by
    decide +kernel
  have hlast : (lastLogged ApprovalRow.id s.2 (s.1.requests.filter (·.hasKey docsKey))).map
      (·.id) = some (.text "apr_2") := by decide +kernel
  refine ⟨hfound, by decide +kernel, fun h => ?_⟩
  rw [h.matching docsKey, hlast] at hfound
  exact absurd hfound (by decide)

/-- A host whose clock has moved on to the next second after its first two readings. -/
def Host.secondLater : Host :=
  { Host.quick id with
    clock n := if n < 2 then "2026-01-01T00:00:00+00:00" else "2026-01-01T00:00:01+00:00"
    clock_iso n := by split <;> decide
    clock_ascii n := by split <;> decide }

/-- A call names the latest request if the request that was logged last has the greatest time. -/
theorem namesLatest_of_times {s : World × List SqlVal} {c : ApprovalCall}
    (h : ∀ v ∈ (requestStep H s c).2.getLast?, ∀ r ∈ (requestStep H s c).1.requests, r.id = v →
      ∀ r' ∈ (requestStep H s c).1.requests, r'.id ≠ v → r'.time < r.time) :
    c.NamesLatest H s := by
  intro v hlog r hr hid r' hr' hne _
  change (requestStep H s c).2 = s.2 ++ [v] at hlog
  refine h v ?_ r hr hid r' hr' hne
  rw [hlog, List.getLast?_concat]
  rfl

/-- Two requests to publish the docs, and a decision on the first one. -/
def docsCalls : List ApprovalCall :=
  [.request 0 (docsRequest "apr_1"), .request 0 (docsRequest "apr_2"),
    .decide 0 { approveRelease with approvalId := "apr_1" }]

/-- Of two requests of different seconds the later one is found, also after a decision on the
other one. -/
theorem latest_iff_two_seconds :
    (∀ n, LatestIsLast Host.secondLater
      (Run.stateAt (requestStep Host.secondLater) (emptyWorld, []) docsCalls n)) ∧
    let s := Run.stateAt (requestStep Host.secondLater) (emptyWorld, []) docsCalls 3
    (s.1.db.latestMatching? docsKey).map (·.id) = some (.text "apr_2") ∧
      s.1.requests.map (·.status) = [.text "approved", .text "pending"] := by
  have hnames : Run.Throughout (requestStep Host.secondLater)
      (ApprovalCall.NamesLatest Host.secondLater) (emptyWorld, []) docsCalls :=
    ⟨namesLatest_of_times (by decide +kernel), namesLatest_of_times (by decide +kernel),
      namesLatest_of_times (by decide +kernel), trivial⟩
  exact ⟨(latest_iff rfl (by decide)).2 hnames, by decide +kernel⟩

end Shiroe
