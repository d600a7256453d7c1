import Shiroe.Execution.Supervisor

/-!
# What a run keeps

An invariant of a run speaks of the world, of what the run remembers, and of its trace.  It is kept
by the parts of a run around the attempts when the others keep it, each call keeps it, and each mark
that is not of an attempt does.

* `Routine.run_goes` : what such an invariant gives for a whole run, from what it gives for the
  nodes that are tried;
* `Trial.visitTask_goes` : what it gives for a node that is tried, from what it gives for one
  attempt.
-/

namespace Shiroe

open Act
open Process (Inv)

/-- The calls of a run, but for those that write an attempt or reach the executor. -/
inductive Call (H : Host) (S : Supervisor) : {α : Type} → Op α → Prop where
  | getGraph (graphId : String) : Call H S (getGraph H graphId)
  | getNode (nodeId : String) : Call H S (getNode H nodeId)
  | readyNodeIds (graphId : String) : Call H S (readyNodeIds H graphId)
  | nodeOutput (nodeId : String) : Call H S (nodeOutput H nodeId)
  | nodeStateVersion (nodeId : String) : Call H S (nodeStateVersion H nodeId)
  | latestApprovalId (graphId nodeId : String) : Call H S (latestApprovalId H graphId nodeId)
  | attemptCount (nodeId : String) : Call H S (attemptCount H nodeId)
  | newLog : Call H S newLog
  | setNodeStatus (nodeId status : String) (version : ℤ) :
    Call H S (setNodeStatus H S.log nodeId status version)
  | setGraphStatus (graphId status : String) : Call H S (setGraphStatus H S.log graphId status)
  | recordOutput (nodeId : String) (output : Json) (version : ℤ) :
    Call H S (recordOutput H S.log nodeId output version)
  | requestApproval (j : ℕ) (a : RequestArgs) : Call H S (requestApproval H j a)
  | assertCurrent (j : ℕ) (id : String) (scope : Json) : Call H S (assertCurrent H j id scope)
  | refreshNode (j : ℕ) (graphId : String) (n : WorkNode) :
    Call H S (refreshNode H S.log j graphId n)
  | assertExecutable (id : String) : Call H S (assertExecutable H id)
  | authorize (j : ℕ) (a : Action) (context : Json) (graphId nodeId : Option String) (scope : Json)
    (mode : AutonomyMode) : Call H S (authorize H j a context graphId nodeId scope mode)
  | adapterEntry (id : String) : Call H S (adapterEntry H id)
  | resolveAdapter (name : Json) : Call H S (resolveAdapter name)
  | review (executor reviewer : Json) (required : Bool) :
    Call H S (runIndependentReview H executor reviewer required)

/-- Those of these calls that set no status. -/
inductive Look (H : Host) : {α : Type} → Op α → Prop where
  | getGraph (graphId : String) : Look H (getGraph H graphId)
  | getNode (nodeId : String) : Look H (getNode H nodeId)
  | readyNodeIds (graphId : String) : Look H (readyNodeIds H graphId)
  | nodeOutput (nodeId : String) : Look H (nodeOutput H nodeId)
  | nodeStateVersion (nodeId : String) : Look H (nodeStateVersion H nodeId)
  | latestApprovalId (graphId nodeId : String) : Look H (latestApprovalId H graphId nodeId)
  | attemptCount (nodeId : String) : Look H (attemptCount H nodeId)
  | newLog : Look H newLog
  | assertCurrent (j : ℕ) (id : String) (scope : Json) : Look H (assertCurrent H j id scope)
  | assertExecutable (id : String) : Look H (assertExecutable H id)
  | authorize (j : ℕ) (a : Action) (context : Json) (graphId nodeId : Option String) (scope : Json)
    (mode : AutonomyMode) : Look H (authorize H j a context graphId nodeId scope mode)
  | adapterEntry (id : String) : Look H (adapterEntry H id)
  | resolveAdapter (name : Json) : Look H (resolveAdapter name)
  | review (executor reviewer : Json) (required : Bool) :
    Look H (runIndependentReview H executor reviewer required)

theorem Look.call {H : Host} {S : Supervisor} {α : Type} {x : Op α} (h : Look H x) :
    Call H S x := by
  cases h with
  | getGraph graphId => exact .getGraph _
  | getNode nodeId => exact .getNode _
  | readyNodeIds graphId => exact .readyNodeIds _
  | nodeOutput nodeId => exact .nodeOutput _
  | nodeStateVersion nodeId => exact .nodeStateVersion _
  | latestApprovalId graphId nodeId => exact .latestApprovalId _ _
  | attemptCount nodeId => exact .attemptCount _
  | newLog => exact .newLog
  | assertCurrent j id scope => exact .assertCurrent _ _ _
  | assertExecutable id => exact .assertExecutable _
  | authorize j a context graphId nodeId scope mode => exact .authorize _ _ _ _ _ _ _
  | adapterEntry id => exact .adapterEntry _
  | resolveAdapter name => exact .resolveAdapter _
  | review executor reviewer required => exact .review _ _ _

/-- The mark is not one of an attempt. -/
def Mark.isRoutine : Mark → Bool
  | .projected _ _ => false
  | .started _ _ => false
  | .resolving _ _ => false
  | .invoked _ _ => false
  | .answered _ _ => false
  | .finishing _ _ => false
  | _ => true

/-- A fact about a run. -/
abbrev RunFact := World → RunState → List (Mark × World) → Prop

/-- What the others, the calls that set no status, and the marks of a run keep. -/
structure Steady (H : Host) (S : Supervisor) (I : RunFact) : Prop where
  moves : ∀ n w t l, I w t l → I (S.others.moves n w) t l
  looks : ∀ {α : Type} {x : Op α}, Look H x → ∀ t l, Keeps (fun w => I w t l) x
  marks : ∀ m : Mark, m.isRoutine = true → ∀ w t l, I w t l → I w t (l ++ [(m, w)])

/-- What the others, the calls, the marks and the lists of a run keep. -/
structure Routine (H : Host) (S : Supervisor) (I : RunFact) : Prop where
  moves : ∀ n w t l, I w t l → I (S.others.moves n w) t l
  calls : ∀ {α : Type} {x : Op α}, Call H S x → ∀ t l, Keeps (fun w => I w t l) x
  marks : ∀ m : Mark, m.isRoutine = true → ∀ w t l, I w t l → I w t (l ++ [(m, w)])
  lists : ∀ w t t' l, t'.budget = t.budget → I w t l → I w t' l

variable {H : Host} {S : Supervisor} {I : RunFact}

namespace Steady

variable (h : Steady H S I)

include h

theorem step {α : Type} {x : Op α} (hx : Look H x) : Keeps (Inv I) (S.step x) :=
  Process.keeps_step h.moves (h.looks hx)

theorem await : Keeps (Inv I) (Process.await S.others Exc.killed) := Process.keeps_await h.moves

theorem note {m : Mark} (hm : m.isRoutine = true) : Keeps (Inv I) (Process.note (ε := Exc) m) :=
  Process.keeps_note (h.marks m hm)

theorem approvalGate (graphId : String) (n : WorkNode) :
    Keeps (Inv I) (S.approvalGate H graphId n) := by
  refine Keeps.ite (fun _ => ?_) fun _ => Keeps.pure _
  refine (Keeps.ofExcept _).bind fun scope => (h.step (.latestApprovalId ..)).bind fun latest => ?_
  cases latest with
  | none => exact Keeps.pure _
  | some id =>
    exact (h.step .newLog).bind fun _ => (h.step (.assertCurrent ..)).bind fun _ =>
      Keeps.ite (fun _ => (h.note rfl).bind fun _ => Keeps.pure _) fun _ => Keeps.pure _

theorem independentReviewPasses (n : WorkNode) :
    Keeps (Inv I) (S.independentReviewPasses H n) := by
  refine Keeps.ite (fun _ => Keeps.pure _) fun _ => Keeps.bind ?_ fun _ =>
    (h.note rfl).bind fun _ => Keeps.pure _
  exact Keeps.catching ((h.step (.nodeOutput ..)).bind fun _ => (h.step (.review ..)).bind fun _ =>
    Keeps.pure _) fun _ => Keeps.pure _

theorem reviewGate (n : WorkNode) : Keeps (Inv I) (S.reviewGate H n) :=
  Keeps.ite (fun _ => h.independentReviewPasses n) fun _ => Keeps.pure _

theorem attemptGates (graphId : String) (n : WorkNode) :
    Keeps (Inv I) (S.attemptGates H graphId n) := by
  refine Keeps.bind (Keeps.forM fun _ _ => ?_) fun _ => (Keeps.ofExcept _).bind fun _ =>
    (h.step .newLog).bind fun _ => (h.step (.authorize ..)).bind fun _ =>
      (h.note rfl).bind fun _ => Keeps.pure _
  exact (Keeps.ofExcept _).bind fun _ => (h.step (.assertExecutable ..)).bind fun _ => h.note rfl

theorem statuses (nodes : List WorkNode) :
    Keeps (Inv I) (nodes.mapM fun n => do
      return (n.id, (← S.step (getNode H n.id)).status)) :=
  Keeps.mapM fun _ _ => (h.step (.getNode ..)).bind fun _ => Keeps.pure _

end Steady

/-- A fact that does not speak of the world is kept by all calls. -/
theorem Routine.of_own {J : RunState → List Mark → Prop}
    (marks : ∀ m : Mark, m.isRoutine = true → ∀ t l, J t l → J t (l ++ [m]))
    (lists : ∀ t t' l, t'.budget = t.budget → J t l → J t' l) :
    Routine H S fun _ t l => J t (l.map Prod.fst) where
  moves _ _ _ _ h := h
  calls _ _ _ := Keeps.const _ _
  marks m hm w t l h := by
    rw [List.map_append]
    exact marks m hm t _ h
  lists _ _ _ _ := lists _ _ _

namespace Routine

variable (h : Routine H S I)

include h

theorem steady : Steady H S I := ⟨h.moves, fun hx => h.calls hx.call, h.marks⟩

theorem step {α : Type} {x : Op α} (hx : Call H S x) : Keeps (Inv I) (S.step x) :=
  Process.keeps_step h.moves (h.calls hx)

theorem await : Keeps (Inv I) (Process.await S.others Exc.killed) := h.steady.await

theorem note {m : Mark} (hm : m.isRoutine = true) : Keeps (Inv I) (Process.note (ε := Exc) m) :=
  h.steady.note hm

theorem stepAt {α : Type} {x : Op α} {m : Mark} (hm : m.isRoutine = true) (hx : Call H S x) :
    Keeps (Inv I) (S.stepAt m x) :=
  h.await.bind fun _ => (h.note hm).bind fun _ => Process.keeps_lift (h.calls hx)

theorem remember {f : RunState → RunState} (hf : ∀ t, (f t).budget = t.budget) :
    Keeps (Inv I) (Process.remember (ε := Exc) f) :=
  Process.keeps_remember fun w t l => h.lists w t (f t) l (hf t)

omit h in
theorem summary (graphId status : String) (reason : Option RunReason) (pending : List String) :
    Keeps (Inv I) (Supervisor.summary graphId status reason pending) :=
  (Process.keeps_recollect id).bind fun _ => Keeps.pure _

theorem pause (graphId nodeId : String) (version : ℤ) (reason : String) (pending : List String) :
    Keeps (Inv I) (S.pause H graphId nodeId version reason pending) :=
  (h.step (.setNodeStatus ..)).bind fun _ => (h.remember fun _ => by rfl).bind fun _ =>
    (h.step (.setGraphStatus ..)).bind fun _ => summary _ _ _ _

theorem complete (nodeId : String) (version : ℤ) :
    Keeps (Inv I) (S.complete H nodeId version) :=
  (h.stepAt rfl (.setNodeStatus ..)).bind fun _ => h.remember fun _ => by rfl

theorem pauseForApproval (graphId : String) (n : WorkNode) (version : ℤ)
    (actionKind reason : String) :
    Keeps (Inv I) (S.pauseForApproval H graphId n version actionKind reason) := by
  refine (Keeps.ofExcept _).bind fun scope => Keeps.bind ?_ fun _ => h.pause _ _ _ _ _
  refine (h.step (.latestApprovalId ..)).bind fun latest => ?_
  cases latest with
  | some id => exact Keeps.pure _
  | none => exact (h.step .newLog).bind fun _ => h.step (.requestApproval ..)

theorem approvalGate (graphId : String) (n : WorkNode) :
    Keeps (Inv I) (S.approvalGate H graphId n) := h.steady.approvalGate graphId n

theorem reviewGate (n : WorkNode) : Keeps (Inv I) (S.reviewGate H n) := h.steady.reviewGate n

theorem attemptGates (graphId : String) (n : WorkNode) :
    Keeps (Inv I) (S.attemptGates H graphId n) := h.steady.attemptGates graphId n

theorem giveUp (graphId nodeId : String) (last : Option Exc) :
    Keeps (Inv I) (S.giveUp H graphId nodeId last) := by
  refine Keeps.bind ?_ fun _ => (h.remember fun _ => by rfl).bind fun _ =>
    (h.step (.setGraphStatus ..)).bind fun _ => summary _ _ _ _
  exact (h.step (.getNode ..)).bind fun _ =>
    Keeps.ite (fun _ => h.stepAt rfl (.setNodeStatus ..)) fun _ => Keeps.pure _

theorem refresh (graphId : String) : Keeps (Inv I) (S.refresh H graphId) :=
  (h.step (.getGraph ..)).bind fun _ => (h.step .newLog).bind fun _ => Keeps.forM fun _ _ =>
    (h.stepAt rfl (.refreshNode ..)).bind fun _ => h.note rfl

theorem conclude (graphId : String) (statuses : List (String × NodeStatus)) :
    Keeps (Inv I) (S.conclude H graphId statuses) :=
  Keeps.ite (fun _ => (h.step (.setGraphStatus ..)).bind fun _ => summary _ _ _ _)
    fun _ => (h.step (.setGraphStatus ..)).bind fun _ => summary _ _ _ _

theorem unblockTaskNodes (graphId : String) : Keeps (Inv I) (S.unblockTaskNodes H graphId) := by
  refine (h.step (.getGraph ..)).bind fun graph => Keeps.forM fun n _ =>
    Keeps.ite (fun _ => ?_) fun _ => Keeps.pure _
  exact (h.step (.getNode ..)).bind fun state =>
    Keeps.ite (fun _ => h.step (.setNodeStatus ..)) fun _ => Keeps.pure _

theorem statuses (nodes : List WorkNode) :
    Keeps (Inv I) (nodes.mapM fun n => do
      return (n.id, (← S.step (getNode H n.id)).status)) := h.steady.statuses nodes

end Routine

/-! ### Parts of a run that may end it -/

variable {A B E : RunFact}

/-- From `A`, a part of a run ends with `B`, with `A` as well where the run goes on, and with `E`
when it raises. -/
def Goes (A B E : RunFact) (x : Sup (Option RunSummary)) : Prop :=
  ∀ p, Inv A p → Act.wp x (fun r p' => (r = none → Inv A p') ∧ Inv B p') (fun _ p' => Inv E p') p

/-- The one fact is about the ends of a run, the other about its exceptions. -/
structure Ends (A B E : RunFact) : Prop where
  returns : ∀ w t l, A w t l → B w t l
  raises : ∀ w t l, A w t l → E w t l

variable (hABE : Ends A B E)

include hABE

theorem Goes.of_keeps {x : Sup (Option RunSummary)} (hx : Keeps (Inv A) x) : Goes A B E x := by
  intro p hp
  exact wp_mono (hx p hp) (fun _ _ hp' => ⟨fun _ => hp', hABE.returns _ _ _ hp'⟩)
    fun _ _ hp' => hABE.raises _ _ _ hp'

/-- A first part that keeps `A`. -/
theorem Ends.wp_bind {α β : Type} {x : Sup α} {f : α → Sup β} {Q : β → Session → Prop}
    (hx : Keeps (Inv A) x)
    (hf : ∀ a p, Inv A p → Act.wp (f a) Q (fun _ => Inv E) p) :
    ∀ p, Inv A p → Act.wp (x >>= f) Q (fun _ => Inv E) p := by
  intro p hp
  rw [Act.wp_bind]
  exact wp_mono (hx p hp) (fun a p' hp' => hf a p' hp') fun _ _ hp' => hABE.raises _ _ _ hp'

namespace Routine

variable (hA : Routine H S A) {P : WorkNode → Prop} {graphId : String}
  (hload : ∀ nodeId w t l state, A w t l → w.db.getNode H nodeId = .ok state → P state.node)
  (hvisit : ∀ fuel n version, P n → Goes A B E (S.visitTask H fuel graphId n version))

include hA

theorem visitIdle_goes (graphId : String) (n : WorkNode) (version : ℤ) :
    Goes A B E (S.visitIdle H graphId n version) := by
  refine Goes.of_keeps hABE
    ((hA.reviewGate n).bind fun passed => Keeps.ite (fun _ => ?_) fun _ => ?_)
  · exact (hA.complete _ _).bind fun _ => Keeps.pure _
  · exact (hA.pause _ _ _ _ _).bind fun _ => Keeps.pure _

include hload hvisit

theorem visit_goes (fuel : ℕ) (nodeId : String) : Goes A B E (S.visit H fuel graphId nodeId) := by
  have hpause : ∀ n version actionKind reason, Goes A B E (do
      return some (← S.pauseForApproval H graphId n version actionKind reason)) := fun _ _ _ _ =>
    Goes.of_keeps hABE ((hA.pauseForApproval _ _ _ _ _).bind fun _ => Keeps.pure _)
  intro p hp
  rw [Supervisor.visit, Act.wp_bind]
  have hstate : Act.wp (S.step (getNode H nodeId)) (fun state p' => Inv A p' ∧ P state.node)
      (fun _ => Inv E) p := by
    rw [Supervisor.step, Process.step, Act.wp_bind]
    refine wp_mono (hA.await p hp) (fun _ p₁ hp₁ => ?_) fun _ _ => hABE.raises _ _ _
    rw [Process.wp_lift, getNode, wp_readDb]
    split
    · rename_i state hget
      exact ⟨hp₁, hload _ _ _ _ _ hp₁ hget⟩
    · exact hABE.raises _ _ _ hp₁
  refine wp_mono hstate (fun state p₁ hp₁ => ?_) fun _ _ h => h
  revert p₁
  suffices h : ∀ n version, P n → Goes A B E (do
      if n.kind = .approval then
        return some (← S.pauseForApproval H graphId n version "approval_node" "approval")
      else if ← S.approvalGate H graphId n then
        if n.requires = [] then S.visitIdle H graphId n version
        else S.visitTask H fuel graphId n version
      else
        return some (← S.pauseForApproval H graphId n version "approval_required"
          "approval_required")) from
    fun p₁ hp₁ => h state.node state.stateVersion hp₁.2 p₁ hp₁.1
  intro n version hn
  by_cases hkind : n.kind = .approval
  · simp only [hkind, if_true]
    exact hpause _ _ _ _
  · simp only [hkind, if_false]
    refine hABE.wp_bind (hA.approvalGate _ _) fun passed => ?_
    cases passed with
    | false => exact hpause _ _ _ _
    | true =>
      by_cases hrequires : n.requires = []
      · simp only [hrequires, if_true]
        exact hA.visitIdle_goes hABE _ _ _
      · simp only [hrequires, if_false, if_true]
        exact hvisit _ _ _ hn

theorem visitAll_goes (fuel : ℕ) (ready : List String) :
    Goes A B E (S.visitAll H fuel graphId ready) := by
  induction ready with
  | nil => exact Goes.of_keeps hABE (Keeps.pure _)
  | cons nodeId ready ih =>
    intro p hp
    rw [Supervisor.visitAll, wp_bind]
    refine wp_mono (hA.visit_goes hABE hload hvisit fuel nodeId p hp) (fun r p' hr => ?_)
      fun _ _ hp' => hp'
    cases r with
    | some s => exact (wp_pure _).2 ⟨nofun, hr.2⟩
    | none => exact ih p' (hr.1 rfl)

theorem passes_goes (fuel : ℕ) :
    ∀ p, Inv A p → Act.wp (S.passes H graphId fuel) (fun _ => Inv B) (fun _ => Inv E) p := by
  induction fuel with
  | zero => exact fun p hp => (wp_throw _).2 (hABE.raises _ _ _ hp)
  | succ fuel ih =>
    rw [Supervisor.passes]
    refine hABE.wp_bind (hA.refresh graphId) fun _ => hABE.wp_bind (hA.step (.readyNodeIds ..))
      fun ready => hABE.wp_bind (hA.step (.getGraph ..)) fun graph =>
        hABE.wp_bind (hA.statuses graph.nodes) fun statuses p hp => ?_
    rw [wp_ite]
    refine ⟨fun _ => ?_, fun _ => ?_⟩
    · exact wp_mono (hA.conclude graphId statuses p hp) (fun _ _ => hABE.returns _ _ _)
        fun _ _ => hABE.raises _ _ _
    · rw [wp_bind]
      refine wp_mono (hA.visitAll_goes hABE hload hvisit fuel ready p hp) (fun r p' hr => ?_)
        fun _ _ hp' => hp'
      cases r with
      | some s => exact (wp_pure _).2 hr.2
      | none => exact ih p' (hr.1 rfl)

/-- **What a run keeps**: from `A` it ends with `B` and raises with `E`, if every node that is tried
does. -/
theorem run_goes (fuel : ℕ) :
    ∀ p, Inv A p → Act.wp (S.run H fuel graphId) (fun _ => Inv B) (fun _ => Inv E) p := by
  refine hABE.wp_bind (hA.unblockTaskNodes graphId) fun _ =>
    hABE.wp_bind (hA.step (.setGraphStatus ..)) fun _ =>
      hABE.wp_bind (hA.remember fun _ => by rfl) fun _ => ?_
  exact hA.passes_goes hABE hload hvisit fuel

end Routine

/-! ### A node that is tried -/

omit hABE

/-- What holds while a node is tried: `P` when the budget has room for it, and `W k` when `k` of its
attempts are counted. -/
structure Trial (H : Host) (S : Supervisor) (A B E P : RunFact) (W : ℕ → RunFact) (graphId : String)
    (n : WorkNode) (version : ℤ) : Prop where
  room : ∀ projection w t l, t.budget.wouldExceed H S.usdBurst projection = .ok none → A w t l →
    P w t (l ++ [(.projected n.id projection, w)])
  counted : ∀ p, Inv P p →
    Act.wp (S.step (attemptCount H n.id)) (fun k => Inv (W k)) (fun _ => Inv E) p
  attempt : ∀ k p, Supervisor.mayTry n.retry k = .ok true → Inv (W k) p →
    Act.wp (S.attempt H graphId n version) (fun r p' => (r = none → Inv A p') ∧ Inv B p')
      (fun e p' => if e.isRetried then Inv (W (k + 1)) p' else Inv E p') p
  routine : ∀ k, Routine H S (W k)
  ends : ∀ k, Ends (W k) B E

namespace Trial

variable {P : RunFact} {W : ℕ → RunFact} {graphId : String} {n : WorkNode} {version : ℤ}
  (h : Trial H S A B E P W graphId n version)

include h

/-- The retry loop, by induction on its fuel. -/
theorem wp_retry (fuel k : ℕ) (last : Option Exc) : ∀ p, Inv (W k) p →
    Act.wp (S.retry H graphId n version fuel k last)
      (fun r p' => match r with
        | .completed => Inv A p' ∧ Inv B p'
        | .paused _ => Inv B p'
        | .exhausted _ => ∃ k, Inv (W k) p')
      (fun _ => Inv E) p := by
  induction fuel generalizing k last with
  | zero => exact fun p hp => (wp_throw _).2 ((h.ends k).raises _ _ _ hp)
  | succ fuel ih =>
    intro p hp
    rw [Supervisor.retry, wp_bind, wp_ofExcept]
    cases hmay : Supervisor.mayTry n.retry k with
    | error e => exact (h.ends k).raises _ _ _ hp
    | ok may =>
      cases may with
      | false => exact (wp_pure _).2 ⟨k, hp⟩
      | true =>
        simp only [if_true]
        rw [wp_bind, wp_catching, wp_bind]
        refine wp_mono (h.attempt k p hmay hp) (fun r p' hr => ?_) fun e p' he => ?_
        · cases r with
          | none => exact (wp_pure _).2 ((wp_pure _).2 ⟨hr.1 rfl, hr.2⟩)
          | some s => exact (wp_pure _).2 ((wp_pure _).2 hr.2)
        · split
          · rename_i hretried
            rw [if_pos hretried] at he
            exact (wp_pure _).2 (ih (k + 1) (some e) p' he)
          · rename_i hraised
            rw [if_neg hraised] at he
            exact he

/-- A node that is tried. -/
theorem visitTask_goes (hABE : Ends A B E) (hA : Routine H S A) (fuel : ℕ) :
    Goes A B E (S.visitTask H fuel graphId n version) := by
  intro p hp
  rw [Supervisor.visitTask, wp_bind, wp_ofExcept]
  cases (n.metadata.getD "budget_projection" (.mkObj [])).toDict with
  | error e => exact hABE.raises _ _ _ hp
  | ok projection =>
    dsimp only
    rw [wp_bind, Process.wp_recollect, wp_bind, wp_ofExcept]
    cases hburst : p.own.budget.wouldExceed H S.usdBurst projection with
    | error e => exact hABE.raises _ _ _ hp
    | ok burst =>
      cases burst with
      | some axis =>
        exact Goes.of_keeps hABE ((hA.pause _ _ _ _ _).bind fun _ => Keeps.pure _) p hp
      | none =>
        change Act.wp (Process.note (.projected n.id projection) >>= _) _ _ p
        rw [wp_bind, Process.wp_note, wp_bind]
        refine wp_mono (h.counted _ (h.room projection _ _ _ hburst hp)) (fun k p₁ hk => ?_)
          fun _ _ he => he
        rw [wp_bind]
        refine wp_mono (h.wp_retry fuel k none p₁ hk) (fun r p₂ hr => ?_) fun _ _ he => he
        cases r with
        | completed => exact (wp_pure _).2 ⟨fun _ => hr.1, hr.2⟩
        | paused s => exact (wp_pure _).2 ⟨nofun, hr⟩
        | exhausted last =>
          obtain ⟨k', hk'⟩ := hr
          rw [wp_bind]
          refine wp_mono ((h.routine k').giveUp graphId n.id last p₂ hk') (fun s p₃ hp₃ => ?_)
            fun _ _ => (h.ends k').raises _ _ _
          exact (wp_pure _).2 ⟨nofun, (h.ends k').returns _ _ _ hp₃⟩

end Trial

end Shiroe
