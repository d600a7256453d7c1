import Shiroe.Execution.Calls
import Shiroe.Policy.Decisions
import Shiroe.Work.Progress
import Shiroe.Work.Steps

/-!
# The nodes that a run has completed

While a run is under way the rows of its graph keep their ids, kinds and retry policies, and the
nodes that it has completed stay completed.  A node is moved by an event under its own id, where
redaction leaves the id alone; all other calls of a run leave the nodes as they are.

* `Underway.stepped` : what an event of a node leaves of this;
* `calm_workNodes` : the calls that move no node;
* `setCompleted_underway`, `recordOutput_underway`, `refreshNode_underway` : those that may.
-/

namespace Shiroe

open Act

variable {H : Host} {graphId : String}

/-! ### Rows -/

/-- The row is one of an approval node. -/
def NodeRow.isApproval (r : NodeRow) : Bool := r.kind.read = .str NodeKind.approval.value

/-- What a run does not change of the row of a node. -/
def NodeRow.plan (r : NodeRow) : SqlVal × Bool × SqlVal := (r.id, r.isApproval, r.retryJson)

/-- The ids of the nodes that are no approvals. -/
def taskIds (plan : List (SqlVal × Bool × SqlVal)) : List SqlVal :=
  (plan.filter fun x => !x.2.1).map (·.1)

/-- The ids in the rows of a graph are texts that redaction leaves alone, and keys of the table. -/
structure Db.Held (H : Host) (graphId : String) (db : Db) : Prop where
  named : ∀ r ∈ db.nodesOf graphId, ∃ s, r.id = .text s ∧ H.scrub s = s
  unique : ∀ r ∈ db.nodesOf graphId, ∀ r' ∈ db.workNodes, r'.id = r.id → r' = r

/-- The rows of the graph are as planned, and the nodes in `done` are completed. -/
structure Underway (H : Host) (graphId : String) (plan : List (SqlVal × Bool × SqlVal))
    (done : List SqlVal) (db : Db) : Prop where
  planned : (db.nodesOf graphId).map NodeRow.plan = plan
  held : db.Held H graphId
  completed : ∀ r ∈ db.nodesOf graphId, r.id ∈ done → r.status = .text NodeStatus.completed.value

theorem Db.nodesOf_congr {db db' : Db} (h : db'.workNodes = db.workNodes) :
    db'.nodesOf graphId = db.nodesOf graphId := by
  rw [Db.nodesOf, Db.nodesOf, h]

theorem Db.nodesOf_stepped (db : Db) (x : String) (next : Option String) (output : Json) :
    (db.stepped x next output).nodesOf graphId =
      Table.update (fun r => r.id = .text x) (NodeRow.step next output) (db.nodesOf graphId) := by
  rw [Db.nodesOf, Db.stepped, Table.update, Db.nodesOf, Table.update, List.filter_map]
  congr 1
  refine List.filter_congr fun r _ => ?_
  by_cases h : r.id = .text x <;> simp [h, NodeRow.step]

namespace Underway

variable {plan : List (SqlVal × Bool × SqlVal)} {done done' : List SqlVal} {db db' : Db}

theorem congr (h : Underway H graphId plan done db) (hdb : db'.workNodes = db.workNodes) :
    Underway H graphId plan done db' := by
  have hnodes : _ = _ := @Db.nodesOf_congr graphId _ _ hdb
  refine ⟨by rw [hnodes, h.planned], ⟨?_, ?_⟩, ?_⟩
  · rw [hnodes]
    exact h.held.named
  · rw [hnodes, hdb]
    exact h.held.unique
  · rw [hnodes]
    exact h.completed

theorem mono (h : Underway H graphId plan done db) (hdone : done' ⊆ done) :
    Underway H graphId plan done' db :=
  ⟨h.planned, h.held, fun r hr hmem => h.completed r hr (hdone hmem)⟩

/-- An event of the node `x`: it names no status, or completes the node, or the node was not
completed. -/
theorem stepped (h : Underway H graphId plan done db) {x : String} {next : Option String}
    (output : Json) (hdone : ∀ v ∈ done', v ≠ .text x → v ∈ done)
    (hx : .text x ∈ done' →
      next = some NodeStatus.completed.value ∨ next = none ∧ .text x ∈ done) :
    Underway H graphId plan done' (db.stepped x next output) := by
  have hplan : ∀ r : NodeRow, (r.step next output).plan = r.plan := fun _ => rfl
  refine ⟨?_, ⟨?_, ?_⟩, ?_⟩
  · rw [Db.nodesOf_stepped, Table.map_update hplan, h.planned]
  · intro r' hr'
    rw [Db.nodesOf_stepped] at hr'
    obtain ⟨r, hr, rfl⟩ := Table.mem_update.1 hr'
    have hid : (if decide (r.id = .text x) = true then r.step next output else r).id = r.id := by
      split_ifs <;> rfl
    rw [hid]
    exact h.held.named r hr
  · intro r₁' hr₁' r₂' hr₂' hid
    rw [Db.nodesOf_stepped] at hr₁'
    obtain ⟨r₁, hr₁, rfl⟩ := Table.mem_update.1 hr₁'
    obtain ⟨r₂, hr₂, rfl⟩ := Table.mem_update.1 hr₂'
    have hids : ∀ r : NodeRow,
        (if decide (r.id = .text x) = true then r.step next output else r).id = r.id := by
      intro r
      split_ifs <;> rfl
    rw [hids, hids] at hid
    rw [h.held.unique r₁ hr₁ r₂ hr₂ hid]
  · intro r' hr' hmem
    rw [Db.nodesOf_stepped] at hr'
    obtain ⟨r, hr, rfl⟩ := Table.mem_update.1 hr'
    by_cases hid : r.id = .text x
    · rw [if_pos (decide_eq_true hid)] at hmem ⊢
      rw [NodeRow.step_id, hid] at hmem
      rcases hx hmem with rfl | ⟨rfl, hold⟩
      · rfl
      · exact h.completed r hr (hid ▸ hold)
    · rw [if_neg (by simpa using hid)] at hmem ⊢
      exact h.completed r hr (hdone _ hmem hid)

/-- The row of a node of the graph is found under its id. -/
theorem node?_eq (h : Underway H graphId plan done db) {r : NodeRow} (hr : r ∈ db.nodesOf graphId)
    {x : String} (hid : r.id = .text x) : db.node? x = some r := by
  obtain ⟨r', hr'⟩ : ∃ r', db.node? x = some r' := by
    refine Option.isSome_iff_exists.1 (List.find?_isSome.2 ⟨r, (List.mem_filter.1 hr).1, ?_⟩)
    exact decide_eq_true hid
  have hid' : r'.id = .text x := by simpa using List.find?_some hr'
  rw [hr', h.held.unique r hr r' (List.mem_of_find?_eq_some hr') (hid'.trans hid.symm)]

theorem mem_plan (h : Underway H graphId plan done db) {r : NodeRow}
    (hr : r ∈ db.nodesOf graphId) : r.plan ∈ plan := h.planned ▸ List.mem_map_of_mem hr

theorem exists_row (h : Underway H graphId plan done db) {y : SqlVal × Bool × SqlVal}
    (hy : y ∈ plan) : ∃ r ∈ db.nodesOf graphId, r.plan = y := by
  rw [← h.planned] at hy
  exact List.mem_map.1 hy

/-- Redaction leaves the ids of the plan alone. -/
theorem scrub_eq (h : Underway H graphId plan done db) {x : String} {b : Bool} {v : SqlVal}
    (hx : (.text x, b, v) ∈ plan) : H.scrub x = x := by
  obtain ⟨r, hr, hplan⟩ := h.exists_row hx
  obtain ⟨s, hs, hscrub⟩ := h.held.named r hr
  have hid : r.id = .text x := congrArg Prod.fst hplan
  rw [hs] at hid
  rwa [← SqlVal.text.inj hid]

/-- A node has one kind. -/
theorem kind_eq (h : Underway H graphId plan done db) {x : SqlVal} {b b' : Bool} {v v' : SqlVal}
    (hx : (x, b, v) ∈ plan) (hx' : (x, b', v') ∈ plan) : b = b' := by
  obtain ⟨r, hr, hplan⟩ := h.exists_row hx
  obtain ⟨r', hr', hplan'⟩ := h.exists_row hx'
  have hid : r'.id = r.id := (congrArg Prod.fst hplan').trans (congrArg Prod.fst hplan).symm
  rw [h.held.unique r hr r' (List.mem_filter.1 hr').1 hid] at hplan'
  rw [hplan] at hplan'
  exact (Prod.mk.inj (Prod.mk.inj hplan').2).1

end Underway

/-- A node that is loaded has the kind of its row. -/
theorem kind_of_load {r : NodeRow} {n : WorkNode} (h : r.load = .ok n) :
    r.isApproval = decide (n.kind = .approval) := by
  rw [NodeRow.isApproval, (load_spec h).2.1]
  cases n.kind <;> decide

/-- The nodes that are read are those of the plan. -/
theorem Underway.mem_plan_of_load {plan : List (SqlVal × Bool × SqlVal)} {done : List SqlVal}
    {db : Db} (h : Underway H graphId plan done db) {r : NodeRow} (hr : r ∈ db.nodesOf graphId)
    {n : WorkNode} (hload : r.load = .ok n) :
    (.text n.id, decide (n.kind = .approval), r.retryJson) ∈ plan := by
  have hmem := h.mem_plan hr
  obtain ⟨s, hs, -⟩ := h.held.named r hr
  have hread := (load_spec hload).1
  rw [hs] at hread
  rwa [NodeRow.plan, kind_of_load hload, hs, Json.str.inj hread] at hmem

/-- A ready node is a node of the plan that is not completed. -/
theorem Underway.of_ready {plan : List (SqlVal × Bool × SqlVal)} {done : List SqlVal} {db : Db}
    (h : Underway H graphId plan done db) {ready : List String}
    (hready : db.readyNodeIds H graphId = .ok ready) {x : String} (hx : x ∈ ready) :
    (∃ b v, (SqlVal.text x, b, v) ∈ plan) ∧ .text x ∉ done := by
  obtain ⟨g, hg⟩ : ∃ g, db.getGraph H graphId = .ok g := by
    obtain ⟨g, hg, -⟩ := except_bind_eq_ok.1 hready
    exact ⟨g, hg⟩
  obtain ⟨hmem, hun⟩ := (mem_ready_iff hg hready x).1 hx
  obtain ⟨n, hn, rfl⟩ := List.mem_map.1 hmem
  obtain ⟨r, hr, hload⟩ := exists_of_mem_forall₂ (nodes_of_getGraph hg) hn
  have hr := (List.mem_insertionSort _).1 hr
  have hplan := h.mem_plan_of_load hr hload
  refine ⟨⟨_, _, hplan⟩, fun hdone => ?_⟩
  have hpending := (Bool.and_eq_true_iff.1 hun).1
  obtain ⟨r₀, hr₀, hrow⟩ := h.exists_row hplan
  have hid₀ : r₀.id = .text n.id := congrArg Prod.fst hrow
  rw [isPending] at hpending
  cases hs : statusOf (db.nodeStatuses graphId) n.id with
  | none =>
    have hne := List.lookup_eq_none_iff.1 hs (r₀.id, r₀.status)
      (List.mem_reverse.2 (List.mem_map_of_mem hr₀))
    rw [hid₀] at hne
    simp at hne
  | some s =>
    obtain ⟨l₁, l₂, hl, -⟩ := List.lookup_eq_some_iff.1 hs
    have hin : (SqlVal.text n.id, s) ∈ db.nodeStatuses graphId :=
      List.mem_reverse.1 (hl ▸ List.mem_append_right _ List.mem_cons_self)
    obtain ⟨r₁, hr₁, he⟩ := List.mem_map.1 hin
    obtain ⟨hid₁, rfl⟩ := Prod.mk.inj he
    rw [hs, h.completed r₁ hr₁ (by rw [hid₁]; exact hdone)] at hpending
    revert hpending
    decide

/-! ### Calls that move no node -/

/-- The event types that move a node. -/
def movingEvents : List String := "run.created" :: stepEvents

/-- All other events leave the nodes as they are. -/
theorem workNodes_applyEvent {env : Json} {t : String} (ht : env.get "event_type" = .str t)
    (hne : t ≠ "") (hmem : t ∉ movingEvents) : Leaves Db.workNodes (applyEvent H env) := by
  have hcreated : t ≠ "run.created" := fun h => hmem (h ▸ List.mem_cons_self)
  have hstep : t ∉ stepEvents := fun h => hmem (List.mem_cons_of_mem _ h)
  intro c
  rw [applyEvent_eq ht hne]
  cases domainOfType t with
  | none => exact Keeps.pure _
  | some d =>
    cases d with
    | memory => exact Keeps.map ((leaves_applyMemory env).comp Db.workNodes c)
    | capabilities => exact Keeps.map ((leaves_applyCapability env).comp Db.workNodes c)
    | approvals => exact Keeps.map ((leaves_applyApproval env).comp Db.workNodes c)
    | workProjection =>
      refine Keeps.map (Keeps.bind (Keeps.ofExcept _) fun payload => ?_)
      rw [ht]
      refine Keeps.ite (fun h => absurd h hcreated) fun _ => Keeps.ite (fun _ => ?_) fun _ =>
        Keeps.ite (fun h => absurd h hstep) fun _ => Keeps.ite (fun _ => ?_) fun _ => Keeps.pure _
      · exact (leaves_applyRunStatus env payload).comp Db.workNodes c
      · exact (leaves_applyAttempt env payload).comp Db.workNodes c

theorem workNodes_emit (i : ℕ) (e : EventEnvelope) (hne : e.eventType ≠ "")
    (he : e.eventType ∉ movingEvents) : Leaves (fun w : World => w.db.workNodes) (emit H i e) :=
  leaves_emit (f := Db.workNodes) (fun _ env henv c =>
    Keeps.bind ((leaves_mirrorRow env).comp Db.workNodes c) fun _ =>
      workNodes_applyEvent henv.eventType hne he c) i

theorem workNodes_emitWith (i : ℕ) {e : EventEnvelope} {write : String → Act Exc Db Unit}
    (hne : e.eventType ≠ "") (he : e.eventType ∉ movingEvents)
    (hwrite : ∀ t, Leaves Db.workNodes (write t)) :
    Leaves (fun w : World => w.db.workNodes) (emitWith H i e write) :=
  leaves_emitWith (f := Db.workNodes) (fun _ _ h => (congrArg Db.workNodes h :)) hwrite
    (fun _ _ henv => workNodes_applyEvent henv.eventType hne he) i

theorem workNodes_writeDigest (id d : String) (s : Lifecycle) (t : String) :
    Leaves Db.workNodes (writeDigest H id d s t) := by
  intro c
  refine Keeps.bind (Keeps.ofExcept _) fun _ => Keeps.bind (Keeps.ofExcept _) fun _ =>
    Keeps.bind (Keeps.ofExcept _) fun _ => Keeps.bind (Keeps.ofExcept _) fun _ =>
      Keeps.bind ?_ fun _ => Keeps.pure _
  unfold updateCapability
  exact leaves_updateWhere (by intro t db; rfl) c

theorem calm_workNodes (rows : List NodeRow) : Calm H fun w => w.db.workNodes = rows where
  now w h := wp_now.2 h
  draws w h := wp_uuidHex.2 h
  newLog w h := wp_newLog.2 h
  called w n h := h
  emit i e he := by
    have hall : ∀ t ∈ calmEvents, t ≠ "" ∧ t ∉ movingEvents := by decide
    exact workNodes_emit i e (hall _ he).1 (hall _ he).2 rows
  drift i id row d s _ := workNodes_emitWith i (by simp [driftEvent]) (by simp [driftEvent,
    movingEvents, stepEvents]) (workNodes_writeDigest id d s) rows

/-- A human decision, and the move of a capability that may come with it. -/
theorem workNodes_decideHuman (i : ℕ) (d : DecisionArgs) :
    Leaves (fun w : World => w.db.workNodes) (decideHuman H i d) := by
  have hwrite : ∀ (id : Json) (s : Lifecycle) (t : String),
      Leaves Db.workNodes (writeLifecycle H id s t) := by
    intro id s t c
    refine Keeps.bind (Keeps.ofExcept _) fun _ => Keeps.bind (Keeps.ofExcept _) fun _ =>
      Keeps.bind (Keeps.ofExcept _) fun _ => Keeps.bind ?_ fun _ => Keeps.pure _
    unfold updateCapability
    exact leaves_updateWhere (by intro t db; rfl) c
  have htype : ∀ t : Lifecycle, t.eventType ≠ "" ∧ t.eventType ∉ movingEvents := by
    intro t
    cases t <;> decide
  intro rows
  have hcalm := calm_workNodes (H := H) rows
  refine Keeps.bind (Keeps.ofExcept _) fun status => Keeps.bind (Calm.readDb _) fun _ =>
    Keeps.bind hcalm.now fun when => Keeps.bind (workNodes_emit i _ (by simp [DecisionArgs.event])
      (by simp [DecisionArgs.event, movingEvents, stepEvents]) rows) fun _ =>
        Keeps.bind (Calm.readDb _) fun req => ?_
  cases approvedCapability req status with
  | none => exact Keeps.pure _
  | some capabilityId =>
    refine Keeps.bind hcalm.newLog fun j => Keeps.bind ?_ fun _ => Keeps.pure _
    unfold setLifecycle
    refine Keeps.bind (Calm.readDb _) fun row => ?_
    cases row with
    | none => exact Keeps.throw _
    | some row =>
      dsimp only
      split
      · exact Keeps.throw _
      · rename_i t _
        exact Keeps.bind (workNodes_emitWith j (htype t).1 (htype t).2 (hwrite _ _) rows)
          fun _ => Keeps.pure _

/-- The statuses do not change where no row does. -/
theorem keeps_underway {α : Type} {x : Op α} {plan : List (SqlVal × Bool × SqlVal)}
    {done : List SqlVal} (hx : Leaves (fun w : World => w.db.workNodes) x) :
    Keeps (fun w : World => Underway H graphId plan done w.db) x := fun w h =>
  wp_mono (hx.wp w) (fun _ _ hdb => h.congr hdb) fun _ _ hdb => h.congr hdb

theorem recordAttempt_workNodes (i : ℕ) (graphId nodeId capabilityId : String) :
    Leaves (fun w : World => w.db.workNodes) (recordAttempt H i graphId nodeId capabilityId) :=
  fun rows => Keeps.bind (calm_workNodes rows).draws fun _ => Keeps.bind (Calm.readDb _) fun _ =>
    Keeps.bind (calm_workNodes (H := H) rows).now fun _ =>
      Keeps.bind (workNodes_emit i _ (by simp [startedEvent]) (by simp [startedEvent,
        movingEvents, stepEvents]) rows) fun _ => Keeps.pure _

theorem finishAttempt_workNodes (i : ℕ) (attemptId : String) (state : AttemptEnd)
    (error : Option String) (usage : Json) :
    Leaves (fun w : World => w.db.workNodes) (finishAttempt H i attemptId state error usage) := by
  have htype : ∀ state : AttemptEnd, state.eventType ≠ "" ∧ state.eventType ∉ movingEvents := by
    intro state
    cases state <;> decide
  exact fun rows => Keeps.bind (Calm.readDb _) fun _ =>
    Keeps.bind (calm_workNodes (H := H) rows).now fun _ =>
      Keeps.bind (workNodes_emit i _ (htype state).1 (htype state).2 rows) fun _ => Keeps.pure _

/-! ### Calls that move a node -/

section

variable {plan : List (SqlVal × Bool × SqlVal)} {done done' : List SqlVal}

theorem underway_of_mirror {db db' : Db} (h : Underway H graphId plan done db)
    (hdb : db'.exceptMirror = db.exceptMirror) : Underway H graphId plan done db' :=
  h.congr (congrArg Db.workNodes hdb :)

/-- The event of a status. -/
theorem emitNodeStatus_underway (i : ℕ) {x : String} {next : NodeStatus} {w : World}
    (h : Underway H graphId plan done w.db) (hscrub : H.scrub x = x)
    (hdone : ∀ v ∈ done', v ≠ .text x → v ∈ done)
    (hx : .text x ∈ done' → H.scrub next.value = NodeStatus.completed.value) :
    Act.wp (emitNodeStatus H i x next) (fun _ w' => Underway H graphId plan done' w'.db)
      (fun _ w' => Underway H graphId plan done w'.db) w := by
  rw [emitNodeStatus, wp_bind]
  refine wp_mono (emit_of_fold (fun env henv db => applyEvent_stepEvent henv db) i) ?_ ?_
  · rintro env w' ⟨-, db, hdb, hw'⟩
    rw [wp_pure, hw', hscrub]
    refine (underway_of_mirror h hdb).stepped _ hdone fun hmem => ?_
    rw [hx hmem]
    exact Or.inl rfl
  · rintro x w' ⟨-, hdb⟩
    exact underway_of_mirror h hdb

/-- A node that is not among those that are completed is set to some status. -/
theorem setNodeStatus_underway (i : ℕ) {x : String} (status : String) (version : ℤ)
    (hscrub : H.scrub x = x) (hx : .text x ∉ done) :
    Keeps (fun w : World => Underway H graphId plan done w.db)
      (setNodeStatus H i x status version) :=
  Keeps.bind (Keeps.ofExcept _) fun _ => Keeps.bind (Quiet.checkVersion x version)
    fun _ _ h => emitNodeStatus_underway i h hscrub (fun _ hv _ => hv) fun hmem => absurd hmem hx

/-- A node that is set to completed. -/
theorem setCompleted_underway (i : ℕ) {x : String} {version : ℤ} {w : World}
    (h : Underway H graphId plan done w.db) (hscrub : H.scrub x = x)
    (hword : H.scrub NodeStatus.completed.value = NodeStatus.completed.value) :
    Act.wp (setNodeStatus H i x NodeStatus.completed.value version)
      (fun _ w' => Underway H graphId plan (.text x :: done) w'.db)
      (fun _ w' => Underway H graphId plan done w'.db) w := by
  have hofJson : NodeStatus.ofJson (.str NodeStatus.completed.value) = .ok .completed := by decide
  rw [setNodeStatus, hofJson, ofExcept_ok_bind, wp_bind]
  refine wp_mono (checkVersion_spec x version w) (fun _ w' h' => ?_) fun _ w' h' => ?_
  · rw [h'.1]
    refine emitNodeStatus_underway i h hscrub (fun v hv hne => ?_) fun _ => hword
    exact (List.mem_cons.1 hv).resolve_left hne
  · rw [h'.1]
    exact h

/-- The output of a node does not move it. -/
theorem recordOutput_underway (i : ℕ) {x : String} (output : Json) (version : ℤ)
    (hscrub : H.scrub x = x) :
    Keeps (fun w : World => Underway H graphId plan done w.db)
      (recordOutput H i x output version) := by
  refine Keeps.bind (Quiet.checkVersion x version) fun _ => Keeps.bind (fun w h => ?_) fun _ =>
    Keeps.pure _
  refine wp_mono (emit_of_fold (fun env henv db => applyEvent_outputEvent henv db) i) ?_ ?_
  · rintro env w' ⟨-, db, hdb, hw'⟩
    rw [hw', hscrub]
    exact (underway_of_mirror h hdb).stepped _ (fun v hv _ => hv) fun hx => Or.inr ⟨rfl, hx⟩
  · rintro x w' ⟨-, hdb⟩
    exact underway_of_mirror h hdb

/-- A pass of `refresh_readiness` moves approvals only. -/
theorem refreshNode_underway (i j : ℕ) {n : WorkNode} {v : SqlVal}
    (hn : (.text n.id, decide (n.kind = .approval), v) ∈ plan) (hdone : done ⊆ taskIds plan) :
    Keeps (fun w : World => Underway H graphId plan done w.db)
      (refreshNode H i j graphId n) := by
  have hlook : ∀ {α : Type} {x : Op α}, Look H x →
      Keeps (fun w : World => Underway H graphId plan done w.db) x :=
    fun hx => keeps_underway fun rows => (calm_workNodes rows).look hx
  refine Keeps.ite (fun hkind => ?_) fun _ => Keeps.pure _
  refine Keeps.bind (hlook (.latestApprovalId ..)) fun latest => ?_
  cases latest with
  | none => exact Keeps.pure _
  | some id =>
    refine Keeps.bind (hlook (.assertCurrent ..)) fun req => Keeps.bind (hlook (.getNode ..))
      fun state => Keeps.ite (fun _ w h => ?_) fun _ => Keeps.pure _
    refine emitNodeStatus_underway i h (h.scrub_eq hn) (fun v hv _ => hv) fun hmem => ?_
    -- no approval is among the nodes that the run completes
    obtain ⟨y, hy, hid⟩ := List.mem_map.1 (hdone hmem)
    obtain ⟨id', b, v'⟩ := y
    obtain ⟨hy, hb⟩ := List.mem_filter.1 hy
    cases hid
    rw [h.kind_eq hy hn] at hb
    simp [hkind] at hb

end

end Shiroe
