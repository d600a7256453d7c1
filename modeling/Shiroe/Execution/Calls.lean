import Shiroe.Execution.Passes

/-!
# What the calls of a run leave alone

The calls of a run that write no attempt read the tables, draw ids, read the clock, and emit events
about approvals, runs, steps and changed sources.

* `Call.keeps` : what each of these keeps, every such call keeps;
* `Call.aside` : such a call leaves the attempts and the retry policies as they are, and gives no id
  back.
-/

namespace Shiroe

open Act

variable {H : Host} {S : Supervisor}

/-- The types of the events that these calls emit by a reducer alone. -/
def quietEvents : List String :=
  ["approval.requested", "approval.staled"] ++ runStatusEvents ++ stepEvents

/-- Those of them that are not about a step. -/
def calmEvents : List String := ["approval.requested", "approval.staled"] ++ runStatusEvents

/-- What the calls that touch no step are made of keeps `I`. -/
structure Calm (H : Host) (I : World → Prop) : Prop where
  now : Keeps I (now H)
  draws : Keeps I (uuidHex H)
  newLog : Keeps I newLog
  called : ∀ w n, I w → I { w with calls := n }
  emit : ∀ i e, e.eventType ∈ calmEvents → Keeps I (emit H i e)
  drift : ∀ i id row d s, H.encodes d = true →
    Keeps I (emitWith H i (driftEvent id row d) (writeDigest H id d s))

/-- What the calls are made of keeps `I`. -/
structure Quiet (H : Host) (I : World → Prop) : Prop where
  now : Keeps I (now H)
  draws : Keeps I (uuidHex H)
  newLog : Keeps I newLog
  called : ∀ w n, I w → I { w with calls := n }
  emit : ∀ i e, e.eventType ∈ quietEvents → Keeps I (emit H i e)
  drift : ∀ i id row d s, H.encodes d = true →
    Keeps I (emitWith H i (driftEvent id row d) (writeDigest H id d s))

theorem Quiet.calm {I : World → Prop} (h : Quiet H I) : Calm H I where
  now := h.now
  draws := h.draws
  newLog := h.newLog
  called := h.called
  emit i e he := h.emit i e (List.mem_append_left _ he)
  drift := h.drift

namespace Calm

variable {I : World → Prop} {α : Type}

theorem readDb (f : Db → Except Exc α) : Keeps I (Shiroe.readDb f) :=
  Keeps.get.bind fun _ => Keeps.ofExcept _

/-- A computation that may raise in front of what follows. -/
theorem checked {β : Type} {r : Except Exc β} {f : β → Op α}
    (hf : ∀ b, r = .ok b → Keeps I (f b)) : Keeps I (Act.ofExcept r >>= f) := by
  cases r with
  | error e => exact Keeps.throw e
  | ok b =>
    rw [ofExcept_ok_bind]
    exact hf b rfl

/-- `if c: raise e` in front of what follows. -/
theorem guard {c : Prop} [Decidable c] {e : Exc} {f : PUnit → Op α} (hf : ∀ u, Keeps I (f u)) :
    Keeps I (if c then (MonadExcept.throw e : Op PUnit) >>= f else f ⟨⟩) :=
  Keeps.ite (fun _ => (Keeps.throw e).bind hf) fun _ => hf ⟨⟩

variable (h : Calm H I)

include h

theorem refreshDigest (i : ℕ) (id : String) {d : String} (hd : H.encodes d = true) :
    Keeps I (refreshDigest H i id d) := by
  refine (readDb _).bind fun row => ?_
  cases row with
  | none => exact Keeps.throw _
  | some row =>
    exact Keeps.ite (fun _ => Keeps.pure _) fun _ =>
      Keeps.bind (h.drift i id row d _ hd) fun _ => Keeps.pure _

theorem resolveSource (i : ℕ) (id : String) (d : SqlVal) : Keeps I (resolveSource H i id d) := by
  refine (readDb _).bind fun version => ?_
  cases version with
  | none => exact Keeps.throw _
  | some version =>
    refine (Keeps.ofExcept _).bind fun location => Keeps.get.bind fun w => ?_
    cases w.outside.source (relativize H location) with
    | none => exact Keeps.throw _
    | some source =>
      refine checked fun trust htrust => ?_
      refine Keeps.ite (fun _ => Keeps.bind (h.refreshDigest i id (encodes_digest htrust)) fun _ =>
        (readDb _).bind fun row => ?_) fun _ => (readDb _).bind fun row => ?_
      all_goals
        cases row with
        | none => exact Keeps.throw _
        | some row => exact Keeps.pure row

theorem assertExecutable (id : String) : Keeps I (assertExecutable H id) := by
  refine Keeps.bind h.newLog fun i => (readDb _).bind fun row => ?_
  cases row with
  | none => exact Keeps.throw _
  | some row =>
    refine guard fun _ => Keeps.bind (h.resolveSource i id _) fun current => guard fun _ =>
      (readDb _).bind fun version => ?_
    cases version with
    | none => exact Keeps.throw _
    | some version =>
      exact (Keeps.ofExcept _).bind fun manifest => (Keeps.ofExcept _).bind fun name =>
        Keeps.get.bind fun w => Keeps.ofExcept _

theorem requestApproval (i : ℕ) (a : RequestArgs) : Keeps I (requestApproval H i a) := by
  refine Keeps.bind ?_ fun id => Keeps.bind h.now fun when => (Keeps.ofExcept _).bind fun r =>
    Keeps.bind (h.emit i _ (by simp [calmEvents, RequestArgs.event])) fun _ => Keeps.pure _
  unfold requestId
  cases given a.requestId with
  | some id => exact Keeps.pure id
  | none => exact Keeps.bind h.draws fun _ => Keeps.pure _

theorem assertCurrent (i : ℕ) (id : String) (scope : Json) :
    Keeps I (assertCurrent H i id scope) :=
  (readDb _).bind fun _ => (Keeps.ofExcept _).bind fun _ => Keeps.ite (fun _ => Keeps.pure _)
    fun _ => Keeps.bind (h.emit i _ (by simp [calmEvents, staledEvent])) fun _ => readDb _

theorem setGraphStatus (i : ℕ) (graphId status : String) :
    Keeps I (setGraphStatus H i graphId status) := by
  have htype : ∀ (current : SqlVal) (next : GraphStatus) (t : String),
      graphStatusEvent current next = .ok t → t ∈ calmEvents := by
    intro current next t ht
    cases next with
    | running =>
      cases Except.ok.inj ht
      split <;> decide
    | draft => cases ht
    | ready => cases ht
    | _ =>
      cases Except.ok.inj ht
      decide
  refine (Keeps.ofExcept _).bind fun next => (readDb _).bind fun current => ?_
  cases ht : graphStatusEvent current next with
  | error e => exact Keeps.throw e
  | ok t =>
    rw [ofExcept_ok_bind]
    exact Keeps.bind h.now fun when => Keeps.bind (h.emit i _ (htype _ _ _ ht)) fun _ =>
      Keeps.pure _

theorem authorize (j : ℕ) (a : Action) (context : Json) (graphId nodeId : Option String)
    (scope : Json) (mode : AutonomyMode) :
    Keeps I (authorize H j a context graphId nodeId scope mode) := by
  refine Keeps.get.bind fun w => Keeps.ite (fun _ => Keeps.pure _) fun _ =>
    (Keeps.ofExcept _).bind fun _ => (Keeps.ofExcept _).bind fun _ => (readDb _).bind
    fun prior => ?_
  cases prior with
  | some prior => exact Keeps.pure _
  | none => exact Keeps.bind (h.requestApproval j _) fun _ => Keeps.pure _

omit h in
theorem adapterEntry (id : String) : Keeps I (adapterEntry H id) := by
  refine (readDb _).bind fun version => ?_
  cases version with
  | none => exact Keeps.throw _
  | some version =>
    exact (Keeps.ofExcept _).bind fun _ => (Keeps.ofExcept _).bind fun _ => Keeps.ofExcept _

omit h in
theorem resolveAdapter (name : Json) : Keeps I (resolveAdapter name) := by
  refine Keeps.get.bind fun w => ?_
  cases name with
  | str name => exact Keeps.ite (fun _ => Keeps.throw _) fun _ => Keeps.pure _
  | _ => exact Keeps.throw _

theorem invokeAdapter : Keeps I invokeAdapter := by
  intro w hw
  cases ha : w.outside.answer w.calls with
  | ok result =>
    have hx : Shiroe.invokeAdapter w = .ok result { w with calls := w.calls + 1 } := by
      simp only [Shiroe.invokeAdapter, ha]
    exact (wp_of_ok hx).2 (h.called w _ hw)
  | error e =>
    have hx : Shiroe.invokeAdapter w = .error e { w with calls := w.calls + 1 } := by
      simp only [Shiroe.invokeAdapter, ha]
    exact (wp_of_error hx).2 (h.called w _ hw)

theorem review (executor reviewer : Json) (required : Bool) :
    Keeps I (runIndependentReview H executor reviewer required) :=
  Keeps.ite (fun _ => Keeps.throw _) fun _ => (Keeps.ofExcept _).bind fun _ =>
    Keeps.bind (h.assertExecutable _) fun _ => Keeps.bind (adapterEntry _) fun _ =>
      Keeps.bind (resolveAdapter _) fun _ => Keeps.bind h.invokeAdapter fun _ =>
        Keeps.ite (fun _ => Keeps.pure _) fun _ => (Keeps.ofExcept _).bind fun _ => Keeps.ofExcept _

/-- What these parts keep, every call that sets no status keeps. -/
theorem look {α : Type} {x : Op α} (hx : Look H x) : Keeps I x := by
  cases hx with
  | newLog => exact h.newLog
  | assertCurrent j id scope => exact h.assertCurrent _ _ _
  | assertExecutable id => exact h.assertExecutable _
  | authorize j a context graphId nodeId scope mode => exact h.authorize _ _ _ _ _ _ _
  | adapterEntry id => exact adapterEntry _
  | resolveAdapter name => exact resolveAdapter _
  | review executor reviewer required => exact h.review _ _ _
  | getGraph | getNode | readyNodeIds | nodeOutput | nodeStateVersion | latestApprovalId
  | attemptCount => exact readDb _

end Calm

namespace Quiet

variable {I : World → Prop} (h : Quiet H I)

include h

theorem emitNodeStatus (i : ℕ) (nodeId : String) (next : NodeStatus) :
    Keeps I (emitNodeStatus H i nodeId next) := by
  have htype : ∀ s : NodeStatus, nodeStatusEvent s ∈ quietEvents := by
    intro s
    cases s <;> decide
  exact Keeps.bind (h.emit i _ (htype next)) fun _ => Keeps.pure _

omit h in
theorem checkVersion (nodeId : String) (version : ℤ) : Keeps I (checkVersion H nodeId version) :=
  (Calm.readDb _).bind fun _ => Keeps.ite (fun _ => Keeps.throw _) fun _ => Keeps.pure _

theorem setNodeStatus (i : ℕ) (nodeId status : String) (version : ℤ) :
    Keeps I (setNodeStatus H i nodeId status version) :=
  (Keeps.ofExcept _).bind fun _ => Keeps.bind (checkVersion nodeId version) fun _ =>
    h.emitNodeStatus i nodeId _

theorem recordOutput (i : ℕ) (nodeId : String) (output : Json) (version : ℤ) :
    Keeps I (recordOutput H i nodeId output version) :=
  Keeps.bind (checkVersion nodeId version) fun _ =>
    Keeps.bind (h.emit i _ (by decide : "step.completed" ∈ quietEvents)) fun _ => Keeps.pure _

theorem refreshNode (i j : ℕ) (graphId : String) (n : WorkNode) :
    Keeps I (refreshNode H i j graphId n) := by
  refine Keeps.ite (fun _ => (Calm.readDb _).bind fun latest => ?_) fun _ => Keeps.pure _
  cases latest with
  | none => exact Keeps.pure _
  | some id =>
    exact Keeps.bind (h.calm.assertCurrent j id _) fun req => (Calm.readDb _).bind fun state =>
      Keeps.ite (fun _ => h.emitNodeStatus i n.id _) fun _ => Keeps.pure _

end Quiet

/-- What the parts of the calls keep, every call keeps. -/
theorem Call.keeps {I : World → Prop} (h : Quiet H I) {α : Type} {x : Op α} (hx : Call H S x) :
    Keeps I x := by
  cases hx with
  | setNodeStatus nodeId status version => exact h.setNodeStatus _ _ _ _
  | setGraphStatus graphId status => exact h.calm.setGraphStatus _ _ _
  | recordOutput nodeId output version => exact h.recordOutput _ _ _ _
  | requestApproval j a => exact h.calm.requestApproval _ _
  | refreshNode j graphId n => exact h.refreshNode _ _ _ _
  | newLog => exact h.newLog
  | assertCurrent j id scope => exact h.calm.assertCurrent _ _ _
  | assertExecutable id => exact h.calm.assertExecutable _
  | authorize j a context graphId nodeId scope mode => exact h.calm.authorize _ _ _ _ _ _ _
  | adapterEntry id => exact Calm.adapterEntry _
  | resolveAdapter name => exact Calm.resolveAdapter _
  | review executor reviewer required => exact h.calm.review _ _ _
  | getGraph | getNode | readyNodeIds | nodeOutput | nodeStateVersion | latestApprovalId
  | attemptCount => exact Calm.readDb _

/-! ### Attempts and retry policies -/

/-- Which node may be tried how often. -/
def NodeRow.policy (r : NodeRow) : SqlVal × SqlVal := (r.id, r.retryJson)

/-- The attempts, and how often each node may be tried. -/
def Db.trials (db : Db) : List AttemptRow × List (SqlVal × SqlVal) :=
  (db.workAttempts, db.workNodes.map NodeRow.policy)

/-- From `w` to `w'` no attempt and no retry policy changes, and no id is given back. -/
structure Aside (w w' : World) : Prop where
  trials : w'.db.trials = w.db.trials
  drawn : w.drawn ≤ w'.drawn

theorem Aside.refl (w : World) : Aside w w := ⟨rfl, le_rfl⟩

theorem Aside.trans {w₁ w₂ w₃ : World} (h : Aside w₁ w₂) (h' : Aside w₂ w₃) : Aside w₁ w₃ :=
  ⟨h'.trials.trans h.trials, h.drawn.trans h'.drawn⟩

theorem trials_applyStep (payload : Json) : Leaves Db.trials (applyStep H payload) := by
  intro c
  refine Keeps.ite (fun _ => Keeps.pure _) fun _ => Keeps.bind (Keeps.ofExcept _) fun status =>
    Keeps.bind (Keeps.ofExcept _) fun id => Keeps.bind ?_ fun _ => Keeps.pure _
  refine Keeps.bind Keeps.get fun _ => Keeps.bind (leaves_exec (fun db => ?_) c) fun _ =>
    Keeps.pure _
  exact Prod.ext rfl (Table.map_update fun _ => rfl)

/-- The event touches no attempt and no retry policy. -/
theorem trials_applyEvent {env : Json} {t : String} (ht : env.get "event_type" = .str t)
    (hmem : t ∈ quietEvents) : Leaves Db.trials (applyEvent H env) := by
  have hdomain : ∀ t ∈ quietEvents, t ≠ "" ∧ t ≠ "run.created" ∧ t ∉ attemptEvents ∧
      (domainOfType t = some .approvals ∨ domainOfType t = some .workProjection) := by decide
  obtain ⟨hne, hcreated, hattempt, hd | hd⟩ := hdomain t hmem
  all_goals
    intro c
    rw [applyEvent_eq ht hne, hd]
  · exact Keeps.map (((leaves_applyApproval env).comp Db.trials) c)
  · refine Keeps.map (Keeps.bind (Keeps.ofExcept _) fun payload => ?_)
    rw [ht]
    refine Keeps.ite (fun h => absurd h hcreated) fun _ => Keeps.ite (fun _ => ?_) fun _ =>
      Keeps.ite (fun _ => trials_applyStep payload c) fun _ =>
        Keeps.ite (fun h => absurd h hattempt) fun _ => Keeps.pure _
    exact ((leaves_applyRunStatus env payload).comp Db.trials) c

theorem trials_mirrorRow (env : Json) : Leaves Db.trials (mirrorRow H env) :=
  (leaves_mirrorRow env).comp Db.trials

/-- An append gives no id back. -/
theorem append_drawn (i : ℕ) (e : EventEnvelope) (cut : Option Cut) (n : ℕ) :
    Keeps (fun w => n ≤ w.drawn) (append H i e cut) := by
  intro w hw
  simp only [append, appendScrubbed, reach, modifyDir, onDb, wp_bind, wp_get, wp_ite, wp_throw,
    wp_pure, wp_set, wp_modify, wp_ofExcept, wp_zoom]
  refine ⟨fun _ => hw, fun _ => ⟨fun _ => hw, fun _ => ?_⟩⟩
  refine wp_mono (loadHead_spec i cut w) (fun head w₁ hl => ?_) fun _ w' h => by rwa [h]
  have hdrawn : n ≤ ((e.scrubbed H).stamp w₁).drawn := by
    have h₁ : w₁.drawn = w.drawn := by rw [hl.frame]
    simp only [EventEnvelope.stamp, h₁]
    split_ifs <;> omega
  generalize (e.scrubbed H).stamp w₁ = w₂ at hdrawn ⊢
  cases validateEnvelope true ((e.scrubbed H).preparedAt H w₁ head) with
  | error x => exact hdrawn
  | ok u =>
    exact ⟨fun _ => hdrawn, fun _ => ⟨fun _ => hdrawn, fun _ => ⟨fun _ => hdrawn, fun _ =>
      Keeps.const _ _ _ hdrawn⟩⟩⟩

/-- A computation on the tables draws no id. -/
theorem onDb_drawn {α : Type} (x : Act Exc Db α) (n : ℕ) :
    Keeps (fun w => n ≤ w.drawn) (onDb x) :=
  Keeps.zoom (J := fun _ => True) (Keeps.const _ _) (fun _ _ => trivial) fun _ _ h _ => h

theorem trials_writeDigest (id d : String) (s : Lifecycle) (t : String) :
    Leaves Db.trials (writeDigest H id d s t) := by
  intro c
  refine Keeps.bind (Keeps.ofExcept _) fun _ => Keeps.bind (Keeps.ofExcept _) fun _ =>
    Keeps.bind (Keeps.ofExcept _) fun _ => Keeps.bind (Keeps.ofExcept _) fun _ =>
      Keeps.bind ?_ fun _ => Keeps.pure _
  unfold updateCapability
  exact leaves_updateWhere (by intro t db; rfl) c

/-- What leaves the trials alone and gives no id back. -/
theorem keeps_aside {α : Type} {x : Op α} (htrials : Leaves (fun w : World => w.db.trials) x)
    (hdrawn : ∀ n, Keeps (fun w : World => n ≤ w.drawn) x) (w₀ : World) : Keeps (Aside w₀) x := by
  intro w h
  exact wp_mono (wp_and (htrials.wp w) (hdrawn w.drawn w le_rfl))
    (fun _ _ h' => h.trans ⟨h'.1, h'.2⟩) fun _ _ h' => h.trans ⟨h'.1, h'.2⟩

theorem quiet_aside (w₀ : World) : Quiet H (Aside w₀) where
  now w h := wp_now.2 ⟨h.trials, h.drawn⟩
  draws w h := wp_uuidHex.2 ⟨h.trials, h.drawn.trans (Nat.le_succ _)⟩
  newLog w h := wp_newLog.2 ⟨h.trials, h.drawn⟩
  called w n h := ⟨h.trials, h.drawn⟩
  emit i e he := keeps_aside
    (leaves_emit (fun _ env henv c => Keeps.bind (trials_mirrorRow env c) fun _ =>
      trials_applyEvent henv.eventType he c) i)
    (fun n => Keeps.bind (append_drawn i e none n) fun _ =>
      Keeps.bind (onDb_drawn _ n) fun _ => Keeps.pure _) w₀
  drift i id row d s _ := by
    have hdomain : domainOfType "capability.digest_drift" = some .capabilities ∧
        "capability.digest_drift" ≠ "" := by decide
    refine keeps_aside (leaves_emitWith (fun _ _ h => (congrArg Db.trials h :))
      (trials_writeDigest id d s) (fun _ env henv c => ?_) i) (fun n => ?_) w₀
    · rw [applyEvent_eq henv.eventType hdomain.2]
      change Keeps _ (reduce H (domainOfType "capability.digest_drift") env)
      rw [hdomain.1]
      exact Keeps.map (((leaves_applyCapability env).comp Db.trials) c)
    · refine Keeps.bind (append_drawn i _ none n) fun _ => Keeps.bind (fun w h => wp_now.2 h)
        fun _ => Keeps.bind (onDb_drawn _ n) fun _ => Keeps.bind (onDb_drawn _ n) fun _ =>
          Keeps.pure _

/-- **A call that writes no attempt leaves the attempts and the retry policies as they are.** -/
theorem Call.aside {α : Type} {x : Op α} (hx : Call H S x) (w : World) :
    Act.wp x (fun _ => Aside w) (fun _ => Aside w) w :=
  hx.keeps (quiet_aside w) w (.refl w)

end Shiroe
