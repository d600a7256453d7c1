import Shiroe.Execution.Numbers
import Shiroe.Execution.Underway

/-!
# A run ends

Every pass of the outer loop that does not end the run completes a node that is no approval, and no
step of the run takes such a node back; whatever people decide meanwhile moves approvals only.  So
the loop ends after one pass more than there are such nodes.

* `passes_bounded` : the outer loop, by induction on the nodes that are left;
* `retry_bounded` : the retry loop, by induction on the attempts that are left;
* `run_ends` : a run of the only supervisor of a graph.
-/

namespace Shiroe

open Act
open Process (Inv)

/-! ### The outer loop, cut off -/

namespace Supervisor

variable (H : Host) (S : Supervisor)

/-- One pass of the outer loop, with its retry loops cut off after `tries` passes: the summary, if
the run ends here. -/
def pass (tries : ℕ) (graphId : String) : Sup (Option RunSummary) := do
  S.refresh H graphId
  let ready ← S.step (readyNodeIds H graphId)
  let graph ← S.step (getGraph H graphId)
  let statuses ← graph.nodes.mapM fun n => do
    return (n.id, (← S.step (getNode H n.id)).status)
  if ready = [] then return some (← S.conclude H graphId statuses)
  else S.visitAll H tries graphId ready

/-- The outer loop, left after `n` passes if the run has not ended. -/
def passesWithin (tries : ℕ) (graphId : String) : ℕ → Sup (Option RunSummary)
  | 0 => return none
  | n + 1 => do
    match ← S.pass H tries graphId with
    | some summary => return some summary
    | none => passesWithin tries graphId n

/-- A run whose outer loop is left after `n` passes. -/
def runWithin (tries : ℕ) (graphId : String) (n : ℕ) : Sup (Option RunSummary) := do
  S.unblockTaskNodes H graphId
  S.step (setGraphStatus H S.log graphId GraphStatus.running.value)
  Process.remember fun r => { r with completed := [], failed := [], blocked := [] }
  S.passesWithin H tries graphId n

variable {H S}

/-- The outer loop goes pass by pass. -/
theorem passes_succ (graphId : String) (fuel : ℕ) :
    S.passes H graphId (fuel + 1) = (do
      match ← S.pass H fuel graphId with
      | some summary => return summary
      | none => S.passes H graphId fuel) := by
  rw [passes, pass]
  simp only [bind_assoc]
  congr 1
  funext _
  congr 1
  funext ready
  congr 1
  funext graph
  congr 1
  funext statuses
  by_cases h : ready = []
  · simp only [h, if_true, bind_assoc, pure_bind, bind_pure]
  · exact (if_neg h).trans (congrArg (· >>= _) (if_neg h).symm)

end Supervisor

variable {H : Host} {S : Supervisor} {graphId : String}

/-! ### Alone at work -/

/-- Between the calls of the run and while a node is dispatched, people may decide and other
programs may write, but not the nodes of the graph. -/
structure WorksAlone (H : Host) (graphId : String) (S : Supervisor) : Prop where
  moves : ∀ plan done n w, Underway H graphId plan done w.db →
    Underway H graphId plan done (S.others.moves n w).db
  dispatch : ∀ plan done n call, Keeps (fun w : World => Underway H graphId plan done w.db)
    (S.dispatch graphId n call)

/-- The others may do what moves no node; human decisions are of that kind
(`workNodes_decideHuman`). -/
theorem WorksAlone.of_workNodes
    (hmoves : ∀ n w, (S.others.moves n w).db.workNodes = w.db.workNodes)
    (hdispatch : ∀ n call, Leaves (fun w : World => w.db.workNodes) (S.dispatch graphId n call)) :
    WorksAlone H graphId S where
  moves _ _ n w h := h.congr (hmoves n w)
  dispatch _ _ n call := keeps_underway (hdispatch n call)

/-- The nodes in `done` are completed, as a fact about a run. -/
abbrev DoneSoFar (H : Host) (graphId : String) (plan : List (SqlVal × Bool × SqlVal))
    (done : List SqlVal) : RunFact := fun w _ _ => Underway H graphId plan done w.db

namespace WorksAlone

variable {plan : List (SqlVal × Bool × SqlVal)} {done : List SqlVal} (hS : WorksAlone H graphId S)

include hS

theorem steady : Steady H S (DoneSoFar H graphId plan done) where
  moves n w _ _ h := hS.moves plan done n w h
  looks hx _ _ := keeps_underway fun rows => (calm_workNodes rows).look hx
  marks _ _ _ _ _ h := h

/-- A call that keeps the fact, in a run. -/
theorem keeps_step {α : Type} {x : Op α}
    (hx : Keeps (fun w : World => Underway H graphId plan done w.db) x) :
    Keeps (Inv (DoneSoFar H graphId plan done)) (S.step x) :=
  Process.keeps_step (fun n w _ _ h => hS.moves plan done n w h) fun _ _ => hx

theorem keeps_stepAt {α : Type} {x : Op α} (m : Mark)
    (hx : Keeps (fun w : World => Underway H graphId plan done w.db) x) :
    Keeps (Inv (DoneSoFar H graphId plan done)) (S.stepAt m x) :=
  hS.steady.await.bind fun _ => Keeps.bind (Process.keeps_note fun _ _ _ h => h) fun _ =>
    Process.keeps_lift fun _ _ => hx

omit hS in
theorem keeps_note (m : Mark) :
    Keeps (Inv (DoneSoFar H graphId plan done)) (Process.note (ε := Exc) m) :=
  Process.keeps_note fun _ _ _ h => h

/-! ### One attempt -/

theorem finish (id : String) (state : AttemptEnd) (error : Option String) (usage : Json) :
    Keeps (Inv (DoneSoFar H graphId plan done)) (S.finish H id state error usage) :=
  hS.keeps_stepAt _ (keeps_underway (finishAttempt_workNodes _ _ _ _ _))

theorem checkResult (n : WorkNode) (id : String) (result : AdapterResult) :
    Keeps (Inv (DoneSoFar H graphId plan done)) (S.checkResult H n id result) := by
  have hfail : ∀ error message, Keeps (Inv (DoneSoFar H graphId plan done))
      (S.failAttempt (α := Unit) H id error result.usage message) := fun _ _ =>
    Keeps.bind (hS.finish _ _ _ _) fun _ => Keeps.throw _
  refine Keeps.ite (fun _ => hfail _ _) fun _ => (Keeps.ofExcept _).bind fun _ => ?_
  exact Keeps.ite (fun _ => hfail _ _) fun _ => Keeps.ite (fun _ => hfail _ _) fun _ => Keeps.pure _

theorem startAttempt (n : WorkNode) (capabilityId : String) :
    Keeps (Inv (DoneSoFar H graphId plan done)) (S.startAttempt H graphId n capabilityId) := by
  refine (hS.keeps_step (keeps_underway (recordAttempt_workNodes _ _ _ _))).bind fun id =>
    Keeps.bind (keeps_note _) fun _ => Keeps.bind (Keeps.ofExcept _) fun inputs =>
      Keeps.bind (Keeps.ofExcept _) fun timeoutS => Keeps.bind ?_ fun result =>
        Keeps.bind (keeps_note _) fun _ => Keeps.pure _
  refine Keeps.ite (fun _ => hS.keeps_stepAt _ (hS.dispatch plan done n _)) fun _ => ?_
  refine (hS.keeps_stepAt _ (keeps_underway fun rows => Calm.adapterEntry _)).bind fun name =>
    (hS.keeps_step (keeps_underway fun rows => Calm.resolveAdapter _)).bind fun _ =>
      hS.keeps_stepAt _ (keeps_underway fun rows => (calm_workNodes (H := H) rows).invokeAdapter)

theorem settleAttempt {n : WorkNode} (hscrub : H.scrub n.id = n.id) (id : String)
    (result : AdapterResult) :
    Keeps (Inv (DoneSoFar H graphId plan done)) (S.settleAttempt H n id result) :=
  Keeps.bind (Process.keeps_recollect _) fun _ => (Keeps.ofExcept _).bind fun _ =>
    Keeps.bind (Process.keeps_remember fun _ _ _ h => h) fun _ =>
      (hS.finish _ _ _ _).bind fun _ => (hS.steady.step (.nodeStateVersion ..)).bind fun _ =>
        (hS.keeps_step (recordOutput_underway _ _ _ hscrub)).bind fun _ =>
          Keeps.bind (keeps_note _) fun _ => Keeps.pure _

theorem pause {x : String} (hscrub : H.scrub x = x) (hx : .text x ∉ done) (version : ℤ)
    (reason : String) (pending : List String) :
    Keeps (Inv (DoneSoFar H graphId plan done)) (S.pause H graphId x version reason pending) :=
  (hS.keeps_step (setNodeStatus_underway _ _ _ hscrub hx)).bind fun _ =>
    Keeps.bind (Process.keeps_remember fun _ _ _ h => h) fun _ =>
      (hS.keeps_step (keeps_underway fun rows => (calm_workNodes rows).setGraphStatus _ _ _)).bind
        fun _ => Keeps.bind (Process.keeps_recollect _) fun _ => Keeps.pure _

variable (hword : H.scrub NodeStatus.completed.value = NodeStatus.completed.value)

include hword

theorem complete {x : String} (hscrub : H.scrub x = x) (version : ℤ) :
    ∀ p, Inv (DoneSoFar H graphId plan done) p → Act.wp (S.complete H x version)
      (fun _ => Inv (DoneSoFar H graphId plan (.text x :: done)))
      (fun _ => Inv (DoneSoFar H graphId plan done)) p := by
  intro p hp
  rw [Supervisor.complete, Supervisor.stepAt, wp_bind, wp_bind]
  refine wp_mono (hS.steady.await p hp) (fun _ p₁ hp₁ => ?_) fun _ _ h => h
  rw [wp_bind, Process.wp_note, Process.wp_lift]
  refine wp_mono (setCompleted_underway S.log hp₁ hscrub hword) (fun _ w' hw' => ?_)
    fun _ _ h => h
  rw [Process.wp_remember]
  exact hw'

/-- An attempt that is not the last one leaves the nodes that are completed; one that completes its
node adds it to them. -/
theorem attempt {n : WorkNode} (hscrub : H.scrub n.id = n.id) (hn : .text n.id ∉ done)
    (version : ℤ) :
    ∀ p, Inv (DoneSoFar H graphId plan done) p → Act.wp (S.attempt H graphId n version)
      (fun r p' => r = none → Inv (DoneSoFar H graphId plan (.text n.id :: done)) p')
      (fun _ => Inv (DoneSoFar H graphId plan done)) p := by
  have hpause : ∀ version reason pending p, Inv (DoneSoFar H graphId plan done) p →
      Act.wp (do return some (← S.pause H graphId n.id version reason pending))
        (fun r p' => r = none → Inv (DoneSoFar H graphId plan (.text n.id :: done)) p')
        (fun _ => Inv (DoneSoFar H graphId plan done)) p := by
    intro version reason pending p hp
    rw [wp_bind]
    refine wp_mono (hS.pause hscrub hn version reason pending p hp) (fun _ _ _ => ?_) fun _ _ h => h
    exact (wp_pure _).2 nofun
  intro p hp
  rw [Supervisor.attempt, wp_bind]
  refine wp_mono (hS.steady.attemptGates graphId n p hp) (fun gates p₁ hp₁ => ?_) fun _ _ h => h
  obtain ⟨capabilityId, auth⟩ := gates
  dsimp only
  cases auth.verdict with
  | deny => exact (wp_throw _).2 hp₁
  | requireApproval => exact hpause _ _ _ p₁ hp₁
  | allow =>
    dsimp only
    rw [wp_bind]
    refine wp_mono (hS.startAttempt n capabilityId p₁ hp₁) (fun r p₂ hp₂ => ?_) fun _ _ h => h
    obtain ⟨id, result⟩ := r
    dsimp only
    rw [wp_bind]
    refine wp_mono (hS.checkResult n id result p₂ hp₂) (fun _ p₃ hp₃ => ?_) fun _ _ h => h
    rw [wp_bind]
    refine wp_mono (hS.settleAttempt hscrub id result p₃ hp₃) (fun v p₄ hp₄ => ?_) fun _ _ h => h
    rw [wp_bind]
    refine wp_mono (hS.steady.reviewGate n p₄ hp₄) (fun passed p₅ hp₅ => ?_) fun _ _ h => h
    rw [wp_ite]
    refine ⟨fun _ => ?_, fun _ => hpause _ _ _ p₅ hp₅⟩
    rw [wp_bind]
    exact wp_mono (hS.complete hword hscrub (v + 1) p₅ hp₅)
      (fun _ p₆ hp₆ => (wp_pure _).2 fun _ => hp₆) fun _ _ h => h

/-- The retry loop, by induction on its fuel. -/
theorem retry {n : WorkNode} (hscrub : H.scrub n.id = n.id) (hn : .text n.id ∉ done)
    (version : ℤ) (fuel k : ℕ) (last : Option Exc) :
    ∀ p, Inv (DoneSoFar H graphId plan done) p →
      Act.wp (S.retry H graphId n version fuel k last)
        (fun r p' => match r with
          | .completed => Inv (DoneSoFar H graphId plan (.text n.id :: done)) p'
          | _ => True)
        (fun _ _ => True) p := by
  induction fuel generalizing k last with
  | zero => exact fun p _ => (wp_throw _).2 trivial
  | succ fuel ih =>
    intro p hp
    rw [Supervisor.retry, wp_bind, wp_ofExcept]
    cases Supervisor.mayTry n.retry k with
    | error e => trivial
    | ok may =>
      cases may with
      | false => exact (wp_pure _).2 trivial
      | true =>
        simp only [if_true]
        rw [wp_bind, wp_catching, wp_bind]
        refine wp_mono (hS.attempt hword hscrub hn version p hp) (fun r p' hr => ?_)
          fun e p' he => ?_
        · cases r with
          | none => exact (wp_pure _).2 ((wp_pure _).2 (hr rfl))
          | some s => exact (wp_pure _).2 ((wp_pure _).2 trivial)
        · split
          · exact (wp_pure _).2 (ih (k + 1) (some e) p' he)
          · trivial

/-! ### One node -/

omit hS hword in
/-- A part of a run that ends it. -/
theorem wp_ends {x : Sup RunSummary} {Q : Session → Prop} (p : Session) :
    Act.wp (do return some (← x)) (fun r p' => r = none → Q p') (fun _ _ => True) p := by
  rw [wp_bind]
  exact wp_mono (Keeps.const True x p trivial) (fun _ _ _ => (wp_pure _).2 nofun) fun _ _ h => h

theorem visitIdle {n : WorkNode} (hscrub : H.scrub n.id = n.id) (version : ℤ) :
    ∀ p, Inv (DoneSoFar H graphId plan done) p → Act.wp (S.visitIdle H graphId n version)
      (fun r p' => r = none → Inv (DoneSoFar H graphId plan (.text n.id :: done)) p')
      (fun _ _ => True) p := by
  intro p hp
  rw [Supervisor.visitIdle, wp_bind]
  refine wp_mono (hS.steady.reviewGate n p hp) (fun passed p₁ hp₁ => ?_) fun _ _ _ => trivial
  rw [wp_ite]
  refine ⟨fun _ => ?_, fun _ => wp_ends p₁⟩
  rw [wp_bind]
  exact wp_mono (hS.complete hword hscrub version p₁ hp₁)
    (fun _ p₂ hp₂ => (wp_pure _).2 fun _ => hp₂) fun _ _ _ => trivial

theorem visitTask {n : WorkNode} (hscrub : H.scrub n.id = n.id) (hn : .text n.id ∉ done)
    (tries : ℕ) (version : ℤ) :
    ∀ p, Inv (DoneSoFar H graphId plan done) p → Act.wp (S.visitTask H tries graphId n version)
      (fun r p' => r = none → Inv (DoneSoFar H graphId plan (.text n.id :: done)) p')
      (fun _ _ => True) p := by
  intro p hp
  rw [Supervisor.visitTask, wp_bind, wp_ofExcept]
  cases (n.metadata.getD "budget_projection" (.mkObj [])).toDict with
  | error e => trivial
  | ok projection =>
    dsimp only
    rw [wp_bind, Process.wp_recollect, wp_bind, wp_ofExcept]
    cases p.own.budget.wouldExceed H S.usdBurst projection with
    | error e => trivial
    | ok burst =>
      dsimp only
      rw [wp_ite]
      refine ⟨fun _ => wp_ends p, fun _ => ?_⟩
      rw [wp_bind, Process.wp_note, wp_bind]
      refine wp_mono (hS.steady.step (.attemptCount n.id) _ (show Inv _ _ from hp))
        (fun k p₁ hp₁ => ?_) fun _ _ _ => trivial
      rw [wp_bind]
      refine wp_mono (hS.retry hword hscrub hn version tries k none p₁ hp₁) (fun r p₂ hr => ?_)
        fun _ _ _ => trivial
      cases r with
      | completed => exact (wp_pure _).2 fun _ => hr
      | paused s => exact (wp_pure _).2 fun h => by cases h
      | exhausted last => exact wp_ends p₂

omit hword in
/-- The node that is read is the one of the plan. -/
theorem getNode {x : String} {b : Bool} {v : SqlVal} (hx : (.text x, b, v) ∈ plan) :
    ∀ p, Inv (DoneSoFar H graphId plan done) p → Act.wp (S.step (Shiroe.getNode H x))
      (fun state p' => Inv (DoneSoFar H graphId plan done) p' ∧ state.node.id = x ∧
        b = decide (state.node.kind = .approval) ∧ retryOf v = .ok state.node.retry)
      (fun _ _ => True) p := by
  intro p hp
  rw [Supervisor.step, Process.step, wp_bind]
  refine wp_mono (hS.steady.await p hp) (fun _ p₁ hp₁ => ?_) fun _ _ _ => trivial
  rw [Process.wp_lift, Shiroe.getNode, wp_readDb]
  split
  · rename_i state hget
    obtain ⟨r, hr, hget⟩ := except_bind_eq_ok.1 hget
    obtain ⟨node, hnode, hget⟩ := except_bind_eq_ok.1 hget
    obtain ⟨status, -, hget⟩ := except_bind_eq_ok.1 hget
    cases Except.ok.inj hget
    obtain ⟨r', hr', hplan⟩ := hp₁.exists_row hx
    have hid : r'.id = .text x := congrArg Prod.fst hplan
    have hrow : r = r' :=
      Option.some.inj ((nodeRow_eq_ok.1 hr).2.symm.trans (hp₁.node?_eq hr' hid))
    subst hrow
    obtain ⟨hread, -, policy, hjson, hpolicy⟩ := load_spec hnode
    have hkind : b = decide (node.kind = .approval) := by
      rw [← kind_of_load hnode]
      exact (congrArg (fun y => y.2.1) hplan).symm
    rw [hid] at hread
    have hretry : r.retryJson = v := congrArg (fun y => y.2.2) hplan
    refine ⟨hp₁, (Json.str.inj hread).symm, hkind, ?_⟩
    rwa [← hretry, retryOf, hjson]
  · trivial

/-- A visit that does not end the run completes a node that is no approval. -/
theorem visit {x : String} {b : Bool} {v : SqlVal} (hx : (.text x, b, v) ∈ plan)
    (hn : .text x ∉ done) (tries : ℕ) :
    ∀ p, Inv (DoneSoFar H graphId plan done) p → Act.wp (S.visit H tries graphId x)
      (fun r p' => r = none →
        b = false ∧ Inv (DoneSoFar H graphId plan (.text x :: done)) p')
      (fun _ _ => True) p := by
  intro p hp
  rw [Supervisor.visit, wp_bind]
  refine wp_mono (hS.getNode hx p hp) (fun state p₁ h₁ => ?_) fun _ _ h => h
  obtain ⟨hp₁, hid, hb, -⟩ := h₁
  have hscrub : H.scrub state.node.id = state.node.id := by
    rw [hid]
    exact hp₁.scrub_eq hx
  rw [← hid] at hn
  dsimp only
  rw [wp_ite]
  refine ⟨fun _ => wp_ends p₁, fun hkind => ?_⟩
  rw [wp_bind]
  refine wp_mono (hS.steady.approvalGate graphId state.node p₁ hp₁) (fun passed p₂ hp₂ => ?_)
    fun _ _ _ => trivial
  have hbfalse : b = false := by
    rw [hb]
    exact decide_eq_false hkind
  rw [wp_ite]
  refine ⟨fun _ => ?_, fun _ => wp_ends p₂⟩
  rw [wp_ite, ← hid]
  refine ⟨fun _ => ?_, fun _ => ?_⟩
  · exact wp_mono (hS.visitIdle hword hscrub state.stateVersion p₂ hp₂)
      (fun _ _ hr hnone => ⟨hbfalse, hr hnone⟩) fun _ _ h => h
  · exact wp_mono (hS.visitTask hword hscrub hn tries state.stateVersion p₂ hp₂)
      (fun _ _ hr hnone => ⟨hbfalse, hr hnone⟩) fun _ _ h => h

/-! ### One pass -/

/-- The nodes that are completed stay so while the other ready nodes are visited. -/
theorem visitAll (tries : ℕ) {ready : List String}
    (hready : ∀ x ∈ ready, ∃ b v, (SqlVal.text x, b, v) ∈ plan) :
    ∀ p, Inv (DoneSoFar H graphId plan done) p → Act.wp (S.visitAll H tries graphId ready)
      (fun r p' => r = none → Inv (DoneSoFar H graphId plan done) p') (fun _ _ => True) p := by
  induction ready with
  | nil => exact fun p hp => (wp_pure _).2 fun _ => hp
  | cons x ready ih =>
    intro p hp
    obtain ⟨b, v, hx⟩ := hready x List.mem_cons_self
    -- the node itself may be among them: it is completed once more
    have hsub : done ⊆ .text x :: done.filter (· ≠ .text x) := by
      intro y hy
      by_cases hyx : y = .text x
      · exact hyx ▸ List.mem_cons_self
      · exact List.mem_cons_of_mem _ (List.mem_filter.2 ⟨hy, decide_eq_true hyx⟩)
    have hn : SqlVal.text x ∉ done.filter (· ≠ .text x) := by
      intro hmem
      simpa using (List.mem_filter.1 hmem).2
    rw [Supervisor.visitAll, wp_bind]
    refine wp_mono (hS.visit hword hx hn tries p
      (Underway.mono hp (List.filter_subset_self ..))) (fun r p₁ hr => ?_) fun _ _ h => h
    · cases r with
      | some s => exact (wp_pure _).2 fun h => by cases h
      | none =>
        exact ih (fun y hy => hready y (List.mem_cons_of_mem _ hy)) p₁
          (Underway.mono (hr rfl).2 hsub)

omit hword in
/-- The ready nodes are nodes of the plan that are not completed. -/
theorem readyNodeIds :
    ∀ p, Inv (DoneSoFar H graphId plan done) p →
      Act.wp (S.step (Shiroe.readyNodeIds H graphId))
        (fun ready p' => Inv (DoneSoFar H graphId plan done) p' ∧
          ∀ x ∈ ready, (∃ b v, (SqlVal.text x, b, v) ∈ plan) ∧ .text x ∉ done)
        (fun _ _ => True) p := by
  intro p hp
  rw [Supervisor.step, Process.step, wp_bind]
  refine wp_mono (hS.steady.await p hp) (fun _ p₁ hp₁ => ?_) fun _ _ _ => trivial
  rw [Process.wp_lift, Shiroe.readyNodeIds, wp_readDb]
  split
  · rename_i ready hready
    exact ⟨hp₁, fun x hx => Underway.of_ready hp₁ hready hx⟩
  · trivial

omit hword in
theorem getGraph :
    ∀ p, Inv (DoneSoFar H graphId plan done) p → Act.wp (S.step (Shiroe.getGraph H graphId))
      (fun g p' => Inv (DoneSoFar H graphId plan done) p' ∧
        ∀ n ∈ g.nodes, ∃ v, (.text n.id, decide (n.kind = .approval), v) ∈ plan)
      (fun _ => Inv (DoneSoFar H graphId plan done)) p := by
  intro p hp
  rw [Supervisor.step, Process.step, wp_bind]
  refine wp_mono (hS.steady.await p hp) (fun _ p₁ hp₁ => ?_) fun _ _ h => h
  rw [Process.wp_lift, Shiroe.getGraph, wp_readDb]
  split
  · rename_i g hg
    refine ⟨hp₁, fun n hn => ?_⟩
    obtain ⟨r, hr, hload⟩ := exists_of_mem_forall₂ (nodes_of_getGraph hg) hn
    exact ⟨_, hp₁.mem_plan_of_load ((List.mem_insertionSort _).1 hr) hload⟩
  · exact hp₁

omit hword in
theorem refresh (hdone : done ⊆ taskIds plan) :
    Keeps (Inv (DoneSoFar H graphId plan done)) (S.refresh H graphId) := by
  intro p hp
  rw [Supervisor.refresh, wp_bind]
  refine wp_mono (hS.getGraph p hp) (fun g p₁ h₁ => ?_) fun _ _ h => h
  obtain ⟨hp₁, hnodes⟩ := h₁
  refine Keeps.bind (hS.steady.step .newLog) (fun j => Keeps.forM fun n hn => ?_) p₁ hp₁
  obtain ⟨v, hv⟩ := hnodes n hn
  exact (hS.keeps_stepAt _ (refreshNode_underway _ _ hv hdone)).bind fun _ => keeps_note _

/-- A pass that does not end the run completes one more node that is no approval. -/
theorem pass (hdone : done ⊆ taskIds plan) (tries : ℕ) :
    ∀ p, Inv (DoneSoFar H graphId plan done) p → Act.wp (S.pass H tries graphId)
      (fun r p' => r = none → ∃ x, x ∈ taskIds plan ∧ x ∉ done ∧
        Inv (DoneSoFar H graphId plan (x :: done)) p')
      (fun _ _ => True) p := by
  intro p hp
  rw [Supervisor.pass, wp_bind]
  refine wp_mono (hS.refresh hdone p hp) (fun _ p₁ hp₁ => ?_) fun _ _ _ => trivial
  rw [wp_bind]
  refine wp_mono (hS.readyNodeIds p₁ hp₁) (fun ready p₂ h₂ => ?_) fun _ _ _ => trivial
  obtain ⟨hp₂, hready⟩ := h₂
  rw [wp_bind]
  refine wp_mono (hS.steady.step (.getGraph graphId) p₂ hp₂) (fun graph p₃ hp₃ => ?_)
    fun _ _ _ => trivial
  rw [wp_bind]
  refine wp_mono (hS.steady.statuses graph.nodes p₃ hp₃) (fun statuses p₄ hp₄ => ?_)
    fun _ _ _ => trivial
  rw [wp_ite]
  refine ⟨fun _ => wp_ends p₄, fun hne => ?_⟩
  obtain ⟨x, ready, rfl⟩ := List.exists_cons_of_ne_nil hne
  obtain ⟨⟨b, v, hx⟩, hn⟩ := hready x List.mem_cons_self
  rw [Supervisor.visitAll, wp_bind]
  refine wp_mono (hS.visit hword hx hn tries p₄ hp₄) (fun r p₅ hr => ?_) fun _ _ h => h
  cases r with
  | some s => exact (wp_pure _).2 fun h => by cases h
  | none =>
    obtain ⟨rfl, hp₅⟩ := hr rfl
    have hrest : ∀ y ∈ ready, ∃ b v, (SqlVal.text y, b, v) ∈ plan := fun y hy =>
      (hready y (List.mem_cons_of_mem _ hy)).1
    refine wp_mono (hS.visitAll hword tries hrest p₅ hp₅) (fun r p₆ hr hnone => ?_) fun _ _ h => h
    exact ⟨.text x, List.mem_map.2 ⟨_, List.mem_filter.2 ⟨hx, rfl⟩, rfl⟩, hn, hr hnone⟩

/-- The outer loop, by induction on the passes: with every pass one node less is left. -/
theorem passesWithin (hdone : done ⊆ taskIds plan) (hnodup : done.Nodup) (tries : ℕ) {n : ℕ}
    (hn : (taskIds plan).length < done.length + n) :
    ∀ p, Inv (DoneSoFar H graphId plan done) p →
      Act.wp (S.passesWithin H tries graphId n) (fun r _ => r.isSome = true) (fun _ _ => True)
        p := by
  induction n generalizing done with
  | zero =>
    have := (hnodup.subperm hdone).length_le
    omega
  | succ n ih =>
    intro p hp
    rw [Supervisor.passesWithin, wp_bind]
    refine wp_mono (hS.pass hword hdone tries p hp) (fun r p₁ hr => ?_) fun _ _ h => h
    cases r with
    | some s => exact (wp_pure _).2 rfl
    | none =>
      obtain ⟨x, hx, hnew, hp₁⟩ := hr rfl
      exact ih (List.cons_subset.2 ⟨hx, hdone⟩) (List.nodup_cons.2 ⟨hnew, hnodup⟩)
        (by rw [List.length_cons]; omega) p₁ hp₁

end WorksAlone

/-! ### The retry loop -/

/-- A node that may be tried `m` times more is tried `m` times more at the most: a loop that is cut
off after that is the same loop. -/
theorem retry_bounded {n : WorkNode} (hwhole : n.retry.isWhole = true) (version : ℤ) {k m : ℕ}
    (hallows : ¬ n.retry.Allows (k + m + 1)) (last : Option Exc) {fuel : ℕ} (hfuel : m < fuel) :
    S.retry H graphId n version fuel k last = S.retry H graphId n version (m + 1) k last := by
  induction m generalizing k last fuel with
  | zero =>
    obtain ⟨fuel, rfl⟩ : ∃ f, fuel = f + 1 := ⟨fuel - 1, by omega⟩
    have hnot : Supervisor.mayTry n.retry k ≠ .ok true := fun hmay =>
      hallows (RetryPolicy.allows_succ hwhole hmay)
    rw [Supervisor.retry, Supervisor.retry]
    cases hmay : Supervisor.mayTry n.retry k with
    | error e => rfl
    | ok may =>
      cases may with
      | false => rfl
      | true => exact absurd hmay hnot
  | succ m ih =>
    obtain ⟨fuel, rfl⟩ : ∃ f, fuel = f + 1 := ⟨fuel - 1, by omega⟩
    rw [Supervisor.retry, Supervisor.retry]
    have hrest : ∀ e : Exc, S.retry H graphId n version fuel (k + 1) (some e) =
        S.retry H graphId n version (m + 1) (k + 1) (some e) := fun e =>
      ih (by rwa [show k + 1 + m + 1 = k + (m + 1) + 1 by omega]) (some e) (by omega)
    simp only [hrest]

/-- The policy is no fraction above one and allows at most `m` attempts. -/
def RetryPolicy.Within (retry : RetryPolicy) (m : ℕ) : Prop :=
  retry.isWhole = true ∧ ¬ retry.Allows (m + 1)

theorem visitTask_bounded {n : WorkNode} {m : ℕ} (hn : n.retry.Within m) (version : ℤ) {tries : ℕ}
    (htries : m < tries) :
    S.visitTask H tries graphId n version = S.visitTask H (m + 1) graphId n version := by
  have hretry : ∀ k, S.retry H graphId n version tries k none =
      S.retry H graphId n version (m + 1) k none := fun k =>
    retry_bounded hn.1 version (fun h => hn.2 (h.mono (by omega))) none htries
  rw [Supervisor.visitTask, Supervisor.visitTask]
  simp only [hretry]

/-! ### Fuel -/

namespace WorksAlone

variable {plan : List (SqlVal × Bool × SqlVal)} {done : List SqlVal} (hS : WorksAlone H graphId S)
  (hword : H.scrub NodeStatus.completed.value = NodeStatus.completed.value) {m : ℕ}
  (hplan : ∀ y ∈ plan, ∀ retry, retryOf y.2.2 = .ok retry → retry.Within m)

include hS hword hplan

theorem visitAll_bounded {tries : ℕ} (htries : m < tries) {ready : List String}
    (hready : ∀ x ∈ ready, ∃ b v, (SqlVal.text x, b, v) ∈ plan) :
    ∀ p, Inv (DoneSoFar H graphId plan []) p →
      S.visitAll H tries graphId ready p = S.visitAll H (m + 1) graphId ready p := by
  induction ready with
  | nil => exact fun _ _ => rfl
  | cons x ready ih =>
    intro p hp
    obtain ⟨b, v, hx⟩ := hready x List.mem_cons_self
    have hvisit : S.visit H tries graphId x p = S.visit H (m + 1) graphId x p := by
      rw [Supervisor.visit, Supervisor.visit]
      refine bind_congr_of_wp rfl (hS.getNode hx p hp) fun state p₁ h₁ => ?_
      have hwithin := hplan _ hx _ h₁.2.2.2
      simp only [visitTask_bounded hwithin _ htries]
    rw [Supervisor.visitAll, Supervisor.visitAll]
    refine bind_congr_of_wp hvisit (hS.visit hword hx List.not_mem_nil (m + 1) p hp)
      fun r p₁ hr => ?_
    cases r with
    | some s => rfl
    | none =>
      exact ih (fun y hy => hready y (List.mem_cons_of_mem _ hy)) p₁
        (Underway.mono (hr rfl).2 (List.nil_subset _))

theorem pass_bounded {tries : ℕ} (htries : m < tries) :
    ∀ p, Inv (DoneSoFar H graphId plan []) p →
      S.pass H tries graphId p = S.pass H (m + 1) graphId p := by
  intro p hp
  rw [Supervisor.pass, Supervisor.pass]
  refine bind_congr_of_wp rfl (hS.refresh (List.nil_subset _) p hp) fun _ p₁ hp₁ => ?_
  refine bind_congr_of_wp rfl (hS.readyNodeIds p₁ hp₁) fun ready p₂ h₂ => ?_
  refine bind_congr_of_wp rfl (hS.steady.step (.getGraph graphId) p₂ h₂.1) fun graph p₃ hp₃ => ?_
  refine bind_congr_of_wp rfl (hS.steady.statuses graph.nodes p₃ hp₃) fun statuses p₄ hp₄ => ?_
  by_cases hempty : ready = []
  · rw [if_pos hempty, if_pos hempty]
  · rw [if_neg hempty, if_neg hempty]
    exact hS.visitAll_bounded hword hplan htries (fun x hx => (h₂.2 x hx).1) p₄ hp₄

/-- More fuel makes no difference to the outer loop. -/
theorem passes_bounded {n : ℕ} (hdone : done ⊆ taskIds plan) (hnodup : done.Nodup)
    (hn : (taskIds plan).length < done.length + n) {fuel fuel' : ℕ} (hfuel : n + m + 1 ≤ fuel)
    (hfuel' : n + m + 1 ≤ fuel') :
    ∀ p, Inv (DoneSoFar H graphId plan done) p →
      S.passes H graphId fuel p = S.passes H graphId fuel' p := by
  induction n generalizing done fuel fuel' with
  | zero =>
    have := (hnodup.subperm hdone).length_le
    omega
  | succ n ih =>
    intro p hp
    obtain ⟨fuel, rfl⟩ : ∃ f, fuel = f + 1 := ⟨fuel - 1, by omega⟩
    obtain ⟨fuel', rfl⟩ : ∃ f, fuel' = f + 1 := ⟨fuel' - 1, by omega⟩
    have hp₀ := Underway.mono hp (List.nil_subset done)
    have hpass : S.pass H fuel graphId p = S.pass H fuel' graphId p :=
      (hS.pass_bounded hword hplan (by omega) p hp₀).trans
        (hS.pass_bounded hword hplan (by omega) p hp₀).symm
    rw [Supervisor.passes_succ, Supervisor.passes_succ]
    refine bind_congr_of_wp hpass (hS.pass hword hdone fuel' p hp) fun r p₁ hr => ?_
    cases r with
    | some s => rfl
    | none =>
      obtain ⟨x, hx, hnew, hp₁⟩ := hr rfl
      exact ih (List.cons_subset.2 ⟨hx, hdone⟩) (List.nodup_cons.2 ⟨hnew, hnodup⟩)
        (by rw [List.length_cons]; omega) (by omega) (by omega) p₁ hp₁

omit hword hplan

/-- The nodes that a run may take up again were not completed by it. -/
theorem unblockTaskNodes :
    Keeps (Inv (DoneSoFar H graphId plan [])) (S.unblockTaskNodes H graphId) := by
  intro p hp
  rw [Supervisor.unblockTaskNodes, wp_bind]
  refine wp_mono (hS.getGraph p hp) (fun g p₁ h₁ => ?_) fun _ _ h => h
  refine wp_forM h₁.1 fun n hn p₂ hp₂ => ?_
  obtain ⟨v, hv⟩ := h₁.2 n hn
  refine Keeps.ite (fun _ => ?_) (fun _ => Keeps.pure _) p₂ hp₂
  refine (hS.steady.step (.getNode n.id)).bind fun state => Keeps.ite (fun _ => ?_)
    fun _ => Keeps.pure _
  exact hS.keeps_step fun w h =>
    setNodeStatus_underway _ _ _ (h.scrub_eq hv) List.not_mem_nil w h

end WorksAlone

/-! ### Runs -/

/-- The number of the nodes of a graph that are no approvals. -/
def Db.taskCount (db : Db) (graphId : String) : ℕ :=
  (db.nodesOf graphId).countP fun r => !r.isApproval

theorem length_taskIds (db : Db) :
    (taskIds ((db.nodesOf graphId).map NodeRow.plan)).length = db.taskCount graphId := by
  rw [taskIds, List.length_map, ← List.countP_eq_length_filter, List.countP_map, Db.taskCount]
  rfl

/-- **A run ends** after one pass of its outer loop more than the graph has nodes that are no
approvals; each of its retry loops ends after the attempts that are left to its node; so all fuel
beyond a bound gives the same run. -/
theorem run_ends (hS : WorksAlone H graphId S)
    (hword : H.scrub NodeStatus.completed.value = NodeStatus.completed.value) (p : Session)
    (hheld : p.shared.db.Held H graphId) {m : ℕ}
    (hretry : ∀ r ∈ p.shared.db.nodesOf graphId, ∀ retry, retryOf r.retryJson = .ok retry →
      retry.Within m) :
    (∀ tries, Act.wp (S.runWithin H tries graphId (p.shared.db.taskCount graphId + 1))
      (fun r _ => r.isSome = true) (fun _ _ => True) p) ∧
    (∀ (n : WorkNode) (version : ℤ) (k left : ℕ) (last : Option Exc) (fuel : ℕ),
      n.retry.isWhole = true → ¬ n.retry.Allows (k + left + 1) → left < fuel →
        S.retry H graphId n version fuel k last = S.retry H graphId n version (left + 1) k last) ∧
    ∀ fuel, p.shared.db.taskCount graphId + m + 2 ≤ fuel →
      S.run H fuel graphId p = S.run H (p.shared.db.taskCount graphId + m + 2) graphId p := by
  have hp : Inv (DoneSoFar H graphId ((p.shared.db.nodesOf graphId).map NodeRow.plan) []) p :=
    ⟨rfl, hheld, fun _ _ h => absurd h List.not_mem_nil⟩
  have hplan : ∀ y ∈ (p.shared.db.nodesOf graphId).map NodeRow.plan, ∀ retry,
      retryOf y.2.2 = .ok retry → retry.Within m := by
    intro y hy
    obtain ⟨r, hr, rfl⟩ := List.mem_map.1 hy
    exact hretry r hr
  have hlength := @length_taskIds graphId p.shared.db
  have hstart : Keeps (Inv
    (DoneSoFar H graphId ((p.shared.db.nodesOf graphId).map NodeRow.plan) []))
      (S.step (setGraphStatus H S.log graphId GraphStatus.running.value)) :=
    hS.keeps_step (keeps_underway fun rows => (calm_workNodes rows).setGraphStatus _ _ _)
  refine ⟨fun tries => ?_, fun n version k left last fuel hwhole hallows hfuel =>
    retry_bounded hwhole version hallows last hfuel, fun fuel hfuel => ?_⟩
  · rw [Supervisor.runWithin, wp_bind]
    refine wp_mono (hS.unblockTaskNodes p hp) (fun _ p₁ hp₁ => ?_) fun _ _ _ => trivial
    rw [wp_bind]
    refine wp_mono (hstart p₁ hp₁) (fun _ p₂ hp₂ => ?_) fun _ _ _ => trivial
    rw [wp_bind, Process.wp_remember]
    exact hS.passesWithin hword (List.nil_subset _) List.nodup_nil tries
      (by rw [List.length_nil]; omega) _ hp₂
  · rw [Supervisor.run, Supervisor.run]
    refine bind_congr_of_wp rfl (hS.unblockTaskNodes p hp) fun _ p₁ hp₁ => ?_
    refine bind_congr_of_wp rfl (hstart p₁ hp₁) fun _ p₂ hp₂ => ?_
    refine bind_congr_of_wp (Q := fun _ => Inv (DoneSoFar H graphId _ [])) (E := fun _ _ => True)
      rfl ((Process.wp_remember _).2 hp₂) fun _ p₃ hp₃ => ?_
    exact hS.passes_bounded hword hplan (List.nil_subset _) List.nodup_nil
      (by rw [List.length_nil]; omega) (n := p.shared.db.taskCount graphId + 1) (by omega)
      (by omega)
      p₃ hp₃

/-! ### A task that is tried twice, and one that never gets completed -/

/-- A supervisor beside which somebody keeps deciding. -/
def decidedSupervisor : Supervisor where
  log := 0
  dispatch _ _ _ := invokeAdapter
  others.moves _ w := final (decideHuman (Host.quick id) 1
    { approvalId := "apr_1", decision := "approved", actor := "human", reason := "" }) w

theorem decidedSupervisor_worksAlone : WorksAlone (Host.quick id) graphId decidedSupervisor :=
  .of_workNodes (fun _ w => wp_final ((workNodes_decideHuman 1 _).wp w)) fun _ _ rows =>
    (calm_workNodes (H := Host.quick id) rows).invokeAdapter

theorem failingPolicy_within {retry : RetryPolicy}
    (h : retryOf (.json (.mkObj [("max_attempts", .int 2), ("backoff_s", .int 0)])) = .ok retry) :
    retry.Within 2 := by
  have hpolicy : retryOf (.json (.mkObj [("max_attempts", .int 2), ("backoff_s", .int 0)])) =
      .ok (failingPolicy (.int 2)) := by decide +kernel
  cases Except.ok.inj (hpolicy.symm.trans h)
  exact ⟨rfl, by decide +kernel⟩

theorem run_ends_twice :
    Act.wp (decidedSupervisor.runWithin (Host.quick id) 3 "g" 2) (fun r _ => r.isSome = true)
      (fun _ _ => True) { shared := failingWorld (.int 2), own := {} } ∧
    ∀ fuel, 5 ≤ fuel → decidedSupervisor.run (Host.quick id) fuel "g"
      { shared := failingWorld (.int 2), own := {} } = decidedSupervisor.run (Host.quick id) 5 "g"
        { shared := failingWorld (.int 2), own := {} } := by
  have h := @run_ends (Host.quick id) decidedSupervisor "g" decidedSupervisor_worksAlone rfl
    { shared := failingWorld (.int 2), own := {} } ⟨?_, ?_⟩ 2 ?_
  · exact ⟨h.1 3, h.2.2⟩
  · intro r hr
    cases List.mem_singleton.1 (List.mem_filter.1 hr).1
    exact ⟨"n", rfl, rfl⟩
  · intro r hr r' hr' _
    rw [List.mem_singleton.1 hr', List.mem_singleton.1 (List.mem_filter.1 hr).1]
  · intro r hr retry hread
    cases List.mem_singleton.1 (List.mem_filter.1 hr).1
    exact failingPolicy_within hread

/-- A redaction pass that finds its word in what it wrote itself. -/
def markAcme (s : String) : String := if s = "<acme>" then "<<acme>>" else s

/-- A project with one task that needs no executor, stored under an id that was redacted. -/
def acmeWorld : World :=
  taskWorld { taskNode 80 with id := .text "<acme>", requiresJson := .json (.arr []) }
    fun _ => .ok { ok := true }

/-- The run there, after two passes of its outer loop. -/
def acmeRun : Option (Option RunSummary) :=
  result? (taskSupervisor.runWithin (Host.quick markAcme) 1 "g" 2)
    { shared := acmeWorld, own := {} }

theorem acmeRun_eq : acmeRun = some none := by decide +kernel

/-- The task is completed under another id, so it is ready in every pass. -/
theorem run_goes_on : ¬ ∀ (H : Host) (S : Supervisor) (graphId : String) (p : Session) (m : ℕ),
    (∀ n w, (S.others.moves n w).db.workNodes = w.db.workNodes) →
    (∀ n call, Leaves (fun w : World => w.db.workNodes) (S.dispatch graphId n call)) →
    (p.shared.db.workNodes.map (·.id)).Nodup →
    (∀ r ∈ p.shared.db.nodesOf graphId, ∀ retry, retryOf r.retryJson = .ok retry →
      retry.Within m) →
    ∀ tries, Act.wp (S.runWithin H tries graphId (p.shared.db.taskCount graphId + 1))
      (fun r _ => r.isSome = true) (fun _ _ => True) p := by
  intro hclaim
  have h := hclaim (Host.quick markAcme) taskSupervisor "g" { shared := acmeWorld, own := {} } 2
    (fun _ _ => rfl) (fun _ _ rows => (calm_workNodes (H := Host.quick id) rows).invokeAdapter)
    (by decide) (fun r hr retry hread => ?_) 1
  · have hrun : acmeRun = some none := acmeRun_eq
    rw [acmeRun, result?] at hrun
    change Act.wp (taskSupervisor.runWithin (Host.quick markAcme) 1 "g" 2) _ _ _ at h
    split at hrun
    · rename_i r p' hr
      cases Option.some.inj hrun
      rw [wp_of_ok hr] at h
      cases h
    · cases hrun
  · cases List.mem_singleton.1 (List.mem_filter.1 hr).1
    exact failingPolicy_within hread

end Shiroe
