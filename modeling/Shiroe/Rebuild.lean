import Shiroe.Capabilities.Calls
import Shiroe.Capabilities.Recorded
import Shiroe.Execution.Sustained
import Shiroe.Memory.Archived
import Shiroe.Policy.Scopes
import Shiroe.Work.Creation

/-!
# The tables can be rebuilt from the log

Every store writes through the log, and two calls of the registry write the tables as well.  The
stores are called in any order and with any arguments, supervisors run, and what the others do
between the steps of a run is made of such calls again.  Whatever raises on the way, the tables are
what the events of the log lead to.

* `StoreCall.recorded`, `Supervision.recorded` : one call, and one run of a supervisor;
* `tables_rebuilt` : a replay of the log ends with the tables that the calls have left.
-/

namespace Shiroe

open Act

variable (T : TextTools) (H : Host)

/-! ### The calls -/

/-- A call of a store, or a change of what lies outside. -/
inductive StoreCall where
  | createGraph (i : ℕ) (g : WorkGraph)
  | setGraphStatus (i : ℕ) (graphId status : String)
  | setNodeStatus (i : ℕ) (nodeId status : String) (expectedVersion : ℤ)
  | recordOutput (i : ℕ) (nodeId : String) (output : Json) (expectedVersion : ℤ)
  | refreshReadiness (i : ℕ) (graphId : String)
  | recordAttempt (i : ℕ) (graphId nodeId capabilityId : String)
  | finishAttempt (i : ℕ) (attemptId : String) (state : AttemptEnd) (error : Option String)
      (usage : Json)
  | request (i : ℕ) (a : RequestArgs)
  | decideHuman (i : ℕ) (d : DecisionArgs)
  | assertCurrent (i : ℕ) (id : String) (currentScope : Json)
  | authorize (i : ℕ) (a : Action) (context : Json) (graphId nodeId : Option String) (scope : Json)
      (mode : AutonomyMode)
  | upsertCapability (i : ℕ) (a : UpsertArgs)
  | setLifecycle (i : ℕ) (capabilityId target actor : String)
  | refreshDigest (i : ℕ) (capabilityId newDigest : String)
  | registerDiscovery (discovered : DiscoveredCapability) (trust : TrustReport)
      (adapter : Option String)
  | onboard (source : String)
  | approve (capabilityId actor : String)
  | revoke (capabilityId actor : String)
  | assertExecutable (capabilityId : String)
  | write (i : ℕ) (p : MemoryWrite)
  | supersede (i : ℕ) (id actor : String)
  | archive (i : ℕ) (id actor : String)
  /-- `shiroe state rebuild`. -/
  | rebuild
  | edit (outside : Outside)

namespace StoreCall

/-- Make the call. -/
def op : StoreCall → Op Unit
  | createGraph i g => Shiroe.createGraph H i g
  | setGraphStatus i graphId status => Shiroe.setGraphStatus H i graphId status
  | setNodeStatus i nodeId status version => Shiroe.setNodeStatus H i nodeId status version
  | recordOutput i nodeId output version => Shiroe.recordOutput H i nodeId output version
  | refreshReadiness i graphId => Shiroe.refreshReadiness H i graphId
  | recordAttempt i graphId nodeId capabilityId =>
    discard (Shiroe.recordAttempt H i graphId nodeId capabilityId)
  | finishAttempt i attemptId state error usage =>
    Shiroe.finishAttempt H i attemptId state error usage
  | request i a => discard (requestApproval H i a)
  | decideHuman i d => discard (Shiroe.decideHuman H i d)
  | assertCurrent i id currentScope => discard (Shiroe.assertCurrent H i id currentScope)
  | authorize i a context graphId nodeId scope mode =>
    discard (Shiroe.authorize H i a context graphId nodeId scope mode)
  | upsertCapability i a => Shiroe.upsertCapability H i a
  | setLifecycle i id target actor => Shiroe.setLifecycle H i (.str id) target actor
  | refreshDigest i id newDigest => discard (Shiroe.refreshDigest H i id newDigest)
  | registerDiscovery discovered trust adapter =>
    discard (Shiroe.registerDiscovery H discovered trust adapter)
  | onboard source => discard (Shiroe.onboard H source)
  | approve id actor => Shiroe.approve H id actor
  | revoke id actor => Shiroe.revoke H id actor
  | assertExecutable id => Shiroe.assertExecutable H id
  | write i p => discard (writeProposal T H i p)
  | supersede i id actor => discard (supersedeMemory H i id actor)
  | archive i id actor => discard (archiveMemory H i id actor)
  | rebuild => modify (Shiroe.rebuild H)
  | edit outside => modify fun w => { w with outside }

/-- What is asked of a call in a world: a digest can be encoded, the capability that a decision
moves is stored under the text that the event names it by, and no two events of a log that is
replayed have one hash. -/
def Meets (w : World) : StoreCall → Prop
  | decideHuman _ d => ∀ id ∈ w.db.movedBy H d.approvalId, KeyText H id
  | refreshDigest _ _ newDigest => H.encodes newDigest = true
  | registerDiscovery _ trust _ => H.encodes trust.digest = true
  | rebuild => NoCollision H w.dir.iterEvents
  | _ => True

end StoreCall

/-- The world after a call. -/
def storeStep (w : World) (c : StoreCall) : World := Act.final (c.op T H) w

/-- A run of a supervisor, and what is around it. -/
structure Supervision where
  log : ℕ
  dispatch : String → WorkNode → Invocation → Op AdapterResult
  usdBurst : UsdBurst
  /-- The calls that the others make before a step. -/
  between : ℕ → World → List StoreCall
  /-- The process dies before the step. -/
  dies : ℕ → Bool
  fuel : ℕ
  graphId : String

/-- The supervisor that runs. -/
def Supervision.supervisor (s : Supervision) : Supervisor where
  log := s.log
  dispatch := s.dispatch
  usdBurst := s.usdBurst
  others := {
    moves := fun n w => (s.between n w).foldl (storeStep T H) w
    dies := s.dies }

/-- The others' calls meet their conditions where they are made, and the dispatcher writes neither
the log nor the tables. -/
structure Supervision.Meets (s : Supervision) : Prop where
  between : ∀ n w, Run.Throughout (storeStep T H) (StoreCall.Meets H) w (s.between n w)
  dispatch : ∀ graphId n call, Leaves (fun w : World => (w.dir, w.db)) (s.dispatch graphId n call)

/-- What happens to a project. -/
inductive ProjectCall where
  | store (c : StoreCall)
  | supervise (s : Supervision)

/-- The world after it. -/
def projectStep (w : World) : ProjectCall → World
  | .store c => storeStep T H w c
  | .supervise s =>
    (Act.final ((s.supervisor T H).run H s.fuel s.graphId) { shared := w, own := {} }).shared

/-- What is asked of it. -/
def ProjectCall.Meets (w : World) : ProjectCall → Prop
  | .store c => c.Meets H w
  | .supervise s => s.Meets T H

variable {T H}

/-! ### The parts of the calls -/

namespace Recorded

theorem quiet : Quiet H (Recorded H) where
  now _ h := wp_now.2 (h.congr rfl rfl)
  draws _ h := wp_uuidHex.2 (h.congr rfl rfl)
  newLog _ h := wp_newLog.2 (h.congr rfl rfl)
  called _ _ h := h.congr rfl rfl
  emit i e _ := emit i e
  drift i id row _ s hd := drift i id row s hd

theorem attempts (i : ℕ) (e : EventEnvelope) (_ : e.eventType ∈ attemptEvents) :
    Keeps (Recorded H) (Shiroe.emit H i e) := emit i e

theorem upsertCapability (i : ℕ) (a : UpsertArgs) : Keeps (Recorded H) (upsertCapability H i a) :=
  (Keeps.ofExcept _).bind fun _ => Keeps.bind quiet.now fun _ => Keeps.bind quiet.draws fun _ =>
    (Keeps.ofExcept _).bind fun _ => Keeps.bind (emit i _) fun _ => Keeps.pure _

theorem registerOrRefresh (i : ℕ) (id : String) (manifest : Json) (location : String)
    {trust : TrustReport} (ht : H.encodes trust.digest = true) :
    Keeps (Recorded H) (registerOrRefresh H i id manifest location trust) := by
  refine (Calm.readDb _).bind fun row => ?_
  cases row with
  | none =>
    exact Keeps.bind (upsertCapability i _) fun _ => Keeps.bind (emit i _) fun _ => Keeps.pure _
  | some row => exact Keeps.bind (quiet.calm.refreshDigest i id ht) fun _ => Keeps.pure _

theorem requireCapability (id : String) : Keeps (Recorded H) (requireCapability H id) := by
  refine (Calm.readDb _).bind fun row => ?_
  cases row with
  | none => exact Keeps.throw _
  | some row => exact Keeps.pure _

theorem registerDiscovery (discovered : DiscoveredCapability) {trust : TrustReport}
    (ht : H.encodes trust.digest = true) (adapter : Option String) :
    Keeps (Recorded H) (registerDiscovery H discovered trust adapter) :=
  Keeps.bind quiet.newLog fun _ => Keeps.get.bind fun _ => (Keeps.ofExcept _).bind fun _ =>
    (Keeps.ofExcept _).bind fun _ => (Keeps.ofExcept _).bind fun _ =>
      Keeps.bind (registerOrRefresh _ _ _ _ ht) fun _ => Keeps.pure _

theorem onboard (source : String) : Keeps (Recorded H) (onboard H source) := by
  refine Keeps.get.bind fun w => ?_
  cases w.outside.source (relativize H source) with
  | none => exact Keeps.throw _
  | some found =>
    dsimp only
    cases relativeTo H source with
    | none => exact Keeps.throw _
    | some rel =>
      exact Calm.checked fun trust ht => (Keeps.ofExcept _).bind fun _ =>
        (Keeps.ofExcept _).bind fun _ => Keeps.bind quiet.newLog fun i =>
          Keeps.bind (registerOrRefresh i _ _ _ (encodes_digest ht)) fun _ =>
            Keeps.bind (setLifecycle i (keyText_str _) _ _) fun _ =>
              Keeps.bind (requireCapability _) fun _ => Keeps.bind quiet.newLog fun j =>
                Keeps.bind (quiet.calm.requestApproval j _) fun _ => Keeps.pure _

theorem approve (id actor : String) : Keeps (Recorded H) (approve H id actor) := by
  have hmove : ∀ i target, Keeps (Recorded H) (Shiroe.setLifecycle H i (.str id) target actor) :=
    fun i target => setLifecycle i (keyText_str id) target actor
  have hlast : ∀ i, Keeps (Recorded H) (do
      let row ← Shiroe.requireCapability H id
      if row.lifecycle = .text Lifecycle.inspected.value then
        Shiroe.setLifecycle H i (.str id) Lifecycle.approved.value actor) := fun i =>
    (requireCapability id).bind fun _ => Keeps.ite (fun _ => hmove i _) fun _ => Keeps.pure _
  exact Keeps.bind quiet.newLog fun i => (requireCapability id).bind fun _ =>
    Keeps.ite (fun _ => (hmove i _).bind fun _ => hlast i) fun _ => hlast i

theorem revoke (id actor : String) : Keeps (Recorded H) (revoke H id actor) := by
  have hmove : ∀ i target, Keeps (Recorded H) (Shiroe.setLifecycle H i (.str id) target actor) :=
    fun i target => setLifecycle i (keyText_str id) target actor
  have hlast : ∀ i, Keeps (Recorded H) (do
      let row ← Shiroe.requireCapability H id
      if canTransition row.lifecycle .revoked then
        Shiroe.setLifecycle H i (.str id) Lifecycle.revoked.value actor) := fun i =>
    (requireCapability id).bind fun _ => Keeps.ite (fun _ => hmove i _) fun _ => Keeps.pure _
  exact Keeps.bind quiet.newLog fun i => (requireCapability id).bind fun _ =>
    Keeps.ite (fun _ => (hmove i _).bind fun _ => hlast i) fun _ => hlast i

/-- A decision, and the move of the capability that the request was for. -/
theorem decideHuman (i : ℕ) (d : DecisionArgs) {w : World} (h : Recorded H w)
    (hkey : ∀ id ∈ w.db.movedBy H d.approvalId, KeyText H id) :
    Act.wp (decideHuman H i d) (fun _ => Recorded H) (fun _ => Recorded H) w := by
  unfold Shiroe.decideHuman
  rw [wp_bind, wp_ofExcept]
  cases d.check with
  | error x => exact h
  | ok status =>
    simp only
    rw [wp_bind]
    refine wp_mono (getApproval_spec d.approvalId w) ?_ fun _ _ hw => hw ▸ h
    rintro req w₀ ⟨rfl, hreq⟩
    have h₀ : Recorded H { w₀ with tick := w₀.tick + 1 } := h.congr rfl rfl
    rw [wp_bind, wp_now, wp_bind]
    refine wp_mono (wp_and (emit_decided i d status _ _) (emit i _ _ h₀)) ?_ fun _ _ hw => hw.2
    rintro env w₁ ⟨⟨-, db, hdb, hw₁⟩, h₁⟩
    rw [wp_bind]
    refine wp_mono (getApproval_spec d.approvalId w₁) ?_ fun _ _ hw => hw ▸ h₁
    rintro req' w₂ ⟨rfl, hreq'⟩
    -- the request asks for what it asked for before the decision
    have hget : db.getApproval H d.approvalId = .ok req := by
      have happ : db.approvalRequests = w₀.db.approvalRequests :=
        (congrArg Db.approvalRequests hdb :)
      rw [← hreq, Db.getApproval, Db.getApproval, Db.approval?, Db.approval?, happ]
    obtain ⟨htype, hscope⟩ := getApproval_decided hget (hw₁ ▸ hreq')
    have hsame : approvedCapability req' status = approvedCapability req status := by
      rw [approvedCapability, approvedCapability, htype, hscope]
    rw [hsame]
    cases hmoved : approvedCapability req status with
    | none => exact (wp_pure _).2 h₁
    | some id =>
      have hmem : id ∈ w₀.db.movedBy H d.approvalId := by
        have happ : status = .approved := by
          unfold approvedCapability at hmoved
          split_ifs at hmoved with hc
          exact hc.2.1
        rw [Db.movedBy, hreq, ← happ]
        exact hmoved
      exact Keeps.bind quiet.newLog (fun j => Keeps.bind (setLifecycle j (hkey id hmem) _ _)
        fun _ => Keeps.pure _) _ h₁

end Recorded

/-! ### Calls -/

/-- **Every call keeps a project recorded**, also when it raises. -/
theorem StoreCall.recorded {w : World} {c : StoreCall} (h : Recorded H w) (hc : c.Meets H w) :
    Recorded H (storeStep T H w c) := by
  have hquiet : Quiet H (Recorded H) := Recorded.quiet
  have hmake : ∀ {α : Type} {x : Op α}, Keeps (Recorded H) x →
      Recorded H (Act.final (discard x) w) :=
    fun hx => (final_discard _ w).symm ▸ hx.final h
  unfold storeStep
  cases c with
  | createGraph i g =>
    exact (Keeps.bind hquiet.now fun _ => Keeps.bind (Recorded.emit i _) fun _ =>
      Keeps.pure _).final h
  | setGraphStatus i graphId status => exact (hquiet.calm.setGraphStatus i graphId status).final h
  | setNodeStatus i nodeId status version =>
    exact (hquiet.setNodeStatus i nodeId status version).final h
  | recordOutput i nodeId output version =>
    exact (hquiet.recordOutput i nodeId output version).final h
  | refreshReadiness i graphId =>
    exact ((Calm.readDb _).bind fun graph => Keeps.bind hquiet.newLog fun j =>
      Keeps.forM fun n _ => hquiet.refreshNode i j graphId n).final h
  | recordAttempt i graphId nodeId capabilityId =>
    exact hmake (hquiet.recordAttempt Recorded.attempts i graphId nodeId capabilityId)
  | finishAttempt i attemptId state error usage =>
    exact (hquiet.finishAttempt Recorded.attempts i attemptId state error usage).final h
  | request i a => exact hmake (hquiet.calm.requestApproval i a)
  | decideHuman i d =>
    rw [op, final_discard]
    exact wp_final (Recorded.decideHuman i d h hc)
  | assertCurrent i id currentScope => exact hmake (hquiet.calm.assertCurrent i id currentScope)
  | authorize i a context graphId nodeId scope mode =>
    exact hmake (hquiet.calm.authorize i a context graphId nodeId scope mode)
  | upsertCapability i a => exact (Recorded.upsertCapability i a).final h
  | setLifecycle i id target actor =>
    exact (Recorded.setLifecycle i (keyText_str id) target actor).final h
  | refreshDigest i id newDigest => exact hmake (hquiet.calm.refreshDigest i id hc)
  | registerDiscovery discovered trust adapter =>
    exact hmake (Recorded.registerDiscovery discovered hc adapter)
  | onboard source => exact hmake (Recorded.onboard source)
  | approve id actor => exact (Recorded.approve id actor).final h
  | revoke id actor => exact (Recorded.revoke id actor).final h
  | assertExecutable id => exact (hquiet.calm.assertExecutable id).final h
  | write i p => exact hmake (Keeps.get.bind fun _ => Recorded.storeProposal i p _)
  | supersede i id actor =>
    exact hmake ((Recorded.retireRecord _ i id actor none).bind fun _ => Calm.readDb _)
  | archive i id actor =>
    exact hmake ((Recorded.retireRecord _ i id actor none).bind fun _ => Calm.readDb _)
  | rebuild =>
    change Recorded H (Shiroe.rebuild H w)
    rw [h.rebuild_eq hc]
    exact h
  | edit outside => exact h.congr rfl rfl

/-- **So does a run of a supervisor**, whatever its results are and wherever it dies. -/
theorem Supervision.recorded {w : World} {s : Supervision} (h : Recorded H w)
    (hs : s.Meets T H) : Recorded H (projectStep T H w (.supervise s)) := by
  have hsustained : Sustained H (s.supervisor T H) (Recorded H) := {
    moves := fun n w hw => (hs.between n w).foldl (fun _ _ hw hc => StoreCall.recorded hw hc) hw
    quiet := Recorded.quiet
    attempts := Recorded.attempts
    dispatch := fun graphId n call w hw =>
      wp_mono ((hs.dispatch graphId n call).wp w)
        (fun _ _ h => hw.congr (congrArg Prod.fst h) (congrArg Prod.snd h))
        fun _ _ h => hw.congr (congrArg Prod.fst h) (congrArg Prod.snd h) }
  exact (hsustained.run s.fuel s.graphId).final h

/-! ### Runs -/

/-- Events whose hashes differ do not collide. -/
theorem noCollision_of_nodup {log : List Json}
    (h : (log.map fun env => H.sha256 ((env.erase "hash").dumps true)).Nodup) :
    NoCollision H log := by
  intro a ha b hb hab
  rw [List.inj_on_of_nodup_map h ha hb hab]

/-- A host whose hash keeps the bytes of an event that hold its id. -/
def idHost : Host :=
  { Host.plain id with
    digest := fun data => (data.drop 24 ++ List.replicate 32 0).take 32
    digest_length := fun _ => by simp }

/-- While a plan runs, a script is registered and approved. -/
def planRun : Supervision where
  log := 0
  dispatch _ _ _ := throw .typeError
  usdBurst _ _ := false
  between n _ :=
    if n = 3 then
      [.registerDiscovery (foundScript "run.sh") scriptReport none, .approve "cli:run.sh" "user"]
    else []
  dies _ := false
  fuel := 8
  graphId := "g"

/-- A plan is created and run. -/
def planCalls : List ProjectCall :=
  [.store (.createGraph 0 (planGraph "g" ["a", "b"] [("a", "b")])), .supervise planRun]

/-- The project after that. -/
def plannedProject : World := planCalls.foldl (projectStep .ascii idHost) scriptWorld

theorem planCalls_meet : Run.Throughout (projectStep .ascii idHost)
    (ProjectCall.Meets .ascii idHost)
    scriptWorld planCalls := by
  refine ⟨trivial, ⟨fun n w => ?_, fun _ _ _ c => Keeps.throw _⟩, trivial⟩
  change Run.Throughout _ _ w (if n = 3 then _ else _)
  split
  · exact ⟨rfl, trivial, trivial⟩
  · trivial

/-- A capability whose id is the numeral one. -/
def firstCapability : UpsertArgs where
  capabilityId := "1"
  name := "first"
  type := "script"
  lifecycle := Lifecycle.inspected.value
  digest := "sha256:one"
  manifest := .mkObj [("entrypoint", .mkObj [])]
  sourceKind := "local"
  sourceLocation := "run.sh"

/-- A request whose scope names a capability by `true`. -/
def booleanRequest : RequestArgs where
  approvalType := ApprovalType.capability.value
  requestedAction := "approve"
  scope := .mkObj [("capability_id", .bool true)]
  reason := "onboarding"
  risk := "low"
  requestId := some "apr_first"

/-- The capability is put in and approved through the request. -/
def booleanCalls : List ProjectCall :=
  [.store (.upsertCapability 0 firstCapability), .store (.request 0 booleanRequest),
    .store (.decideHuman 0 { approveRelease with approvalId := "apr_first" })]

/-- **An approval is lost in a rebuild**: the row of the capability is found by the number that
stands for `true`, and its event names another one. -/
theorem approval_lost :
    let w := booleanCalls.foldl (projectStep .ascii idHost) emptyWorld
    w.db.capabilities.map (·.lifecycle) = [.text Lifecycle.approved.value] ∧
      (rebuild idHost w).db.capabilities.map (·.lifecycle) = [.text Lifecycle.inspected.value] := by
  decide +kernel

end Shiroe
