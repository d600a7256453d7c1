import Shiroe.Execution.Recording

/-!
# What a whole run keeps

A run makes the calls of `Call`, records its attempts, and lets a dispatcher or an adapter do the
work.  What the parts of all these keep in the world, the run keeps, whatever the results are and
however often it tries, also when it raises or dies.

* `Sustained.run` : a run.
-/

namespace Shiroe

open Act
open Process (Inv)

variable {H : Host} {S : Supervisor} {I : World → Prop}

/-- What the others, the parts of the calls, the records of the attempts and the dispatcher of a run
keep. -/
structure Sustained (H : Host) (S : Supervisor) (I : World → Prop) : Prop where
  moves : ∀ n w, I w → I (S.others.moves n w)
  quiet : Quiet H I
  attempts : ∀ i e, e.eventType ∈ attemptEvents → Keeps I (emit H i e)
  dispatch : ∀ graphId n call, Keeps I (S.dispatch graphId n call)

/-- The fact about a run that its world has a property. -/
def worldFact (I : World → Prop) : RunFact := fun w _ _ => I w

theorem Quiet.recordAttempt (hquiet : Quiet H I)
    (hattempts : ∀ i e, e.eventType ∈ attemptEvents → Keeps I (Shiroe.emit H i e)) (i : ℕ)
    (graphId nodeId capabilityId : String) :
    Keeps I (Shiroe.recordAttempt H i graphId nodeId capabilityId) :=
  Keeps.bind hquiet.draws fun _ => Keeps.bind (Calm.readDb _) fun _ => Keeps.bind hquiet.now
    fun _ =>
    Keeps.bind (hattempts i _ (by decide : "attempt.started" ∈ attemptEvents)) fun _ => Keeps.pure _

theorem Quiet.finishAttempt (hquiet : Quiet H I)
    (hattempts : ∀ i e, e.eventType ∈ attemptEvents → Keeps I (Shiroe.emit H i e)) (i : ℕ)
    (attemptId : String) (state : AttemptEnd) (error : Option String) (usage : Json) :
    Keeps I (Shiroe.finishAttempt H i attemptId state error usage) := by
  have htype : ∀ state : AttemptEnd, state.eventType ∈ attemptEvents := by
    intro state
    cases state <;> decide
  exact Keeps.bind (Calm.readDb _) fun _ => Keeps.bind hquiet.now fun _ =>
    Keeps.bind (hattempts i _ (htype state)) fun _ => Keeps.pure _

namespace Sustained

variable (h : Sustained H S I)

include h

theorem routine : Routine H S (worldFact I) where
  moves n w _ _ hw := h.moves n w hw
  calls hx _ _ := hx.keeps h.quiet
  marks _ _ _ _ _ hw := hw
  lists _ _ _ _ _ hw := hw

theorem await : Keeps (Inv (worldFact I)) (Process.await S.others Exc.killed) := h.routine.await

omit h in
theorem note (m : Mark) : Keeps (Inv (worldFact I)) (Process.note (ε := Exc) m) :=
  Process.keeps_note fun _ _ _ hw => hw

theorem step {α : Type} {x : Op α} (hx : Keeps I x) : Keeps (Inv (worldFact I)) (S.step x) :=
  Process.keeps_step (fun n w _ _ hw => h.moves n w hw) fun _ _ => hx

theorem stepAt {α : Type} (m : Mark) {x : Op α} (hx : Keeps I x) :
    Keeps (Inv (worldFact I)) (S.stepAt m x) :=
  Keeps.bind h.await fun _ => Keeps.bind (note m) fun _ => Process.keeps_lift fun _ _ => hx

/-! ### One attempt -/

theorem finish (attemptId : String) (state : AttemptEnd) (error : Option String) (usage : Json) :
    Keeps (Inv (worldFact I)) (S.finish H attemptId state error usage) :=
  h.stepAt _ (h.quiet.finishAttempt h.attempts _ _ _ _ _)

theorem checkResult (n : WorkNode) (attemptId : String) (result : AdapterResult) :
    Keeps (Inv (worldFact I)) (S.checkResult H n attemptId result) := by
  have hfail : ∀ error message, Keeps (Inv (worldFact I))
      (S.failAttempt (α := Unit) H attemptId error result.usage message) := fun _ _ =>
    Keeps.bind (h.finish _ _ _ _) fun _ => Keeps.throw _
  refine Keeps.ite (fun _ => hfail _ _) fun _ => (Keeps.ofExcept _).bind fun _ => ?_
  exact Keeps.ite (fun _ => hfail _ _) fun _ => Keeps.ite (fun _ => hfail _ _) fun _ => Keeps.pure _

theorem startAttempt (graphId : String) (n : WorkNode) (capabilityId : String) :
    Keeps (Inv (worldFact I)) (S.startAttempt H graphId n capabilityId) := by
  refine (h.step (h.quiet.recordAttempt h.attempts _ _ _ _)).bind fun id =>
    Keeps.bind (note _) fun _ => Keeps.bind (Keeps.ofExcept _) fun inputs =>
      Keeps.bind (Keeps.ofExcept _) fun timeoutS => Keeps.bind ?_ fun result =>
        Keeps.bind (note _) fun _ => Keeps.pure _
  refine Keeps.ite (fun _ => h.stepAt _ (h.dispatch _ _ _)) fun _ => ?_
  exact (h.stepAt _ (Calm.adapterEntry _)).bind fun name =>
    (h.step (Calm.resolveAdapter _)).bind fun _ => h.stepAt _ h.quiet.calm.invokeAdapter

theorem settleAttempt (n : WorkNode) (attemptId : String) (result : AdapterResult) :
    Keeps (Inv (worldFact I)) (S.settleAttempt H n attemptId result) :=
  Keeps.bind (Process.keeps_recollect _) fun _ => (Keeps.ofExcept _).bind fun _ =>
    Keeps.bind (Process.keeps_remember fun _ _ _ hw => hw) fun _ =>
      (h.finish _ _ _ _).bind fun _ => (h.routine.step (.nodeStateVersion ..)).bind fun _ =>
        (h.step (h.quiet.recordOutput _ _ _ _)).bind fun _ => Keeps.bind (note _) fun _ =>
          Keeps.pure _

theorem attempt (graphId : String) (n : WorkNode) (version : ℤ) :
    Keeps (Inv (worldFact I)) (S.attempt H graphId n version) := by
  have hpause : ∀ version reason pending, Keeps (Inv (worldFact I)) (do
      return some (← S.pause H graphId n.id version reason pending)) := fun _ _ _ =>
    (h.routine.pause _ _ _ _ _).bind fun _ => Keeps.pure _
  refine (h.routine.attemptGates graphId n).bind fun gates => ?_
  obtain ⟨capabilityId, auth⟩ := gates
  dsimp only
  cases auth.verdict with
  | deny => exact Keeps.throw _
  | requireApproval => exact hpause _ _ _
  | allow =>
    refine (h.startAttempt graphId n capabilityId).bind fun started => ?_
    refine (h.checkResult n _ _).bind fun _ => (h.settleAttempt n _ _).bind fun v =>
      (h.routine.reviewGate n).bind fun passed => ?_
    exact Keeps.ite (fun _ => (h.routine.complete n.id _).bind fun _ => Keeps.pure _)
      fun _ => hpause _ _ _

/-! ### The run -/

/-- What holds while a node is tried. -/
theorem trial (graphId : String) (n : WorkNode) (version : ℤ) :
    Trial H S (worldFact I) (worldFact I) (worldFact I) (worldFact I) (fun _ => worldFact I) graphId
      n version where
  room _ _ _ _ _ hw := hw
  counted := h.step (Calm.readDb _)
  attempt k p _ hp := wp_mono (h.attempt graphId n version p hp) (fun _ _ hw => ⟨fun _ => hw, hw⟩)
    fun _ _ hw => by split <;> exact hw
  routine _ := h.routine
  ends _ := ⟨fun _ _ _ hw => hw, fun _ _ _ hw => hw⟩

/-- **What all parts of a run keep, the run keeps.** -/
theorem run (fuel : ℕ) (graphId : String) :
    Keeps (Inv (worldFact I)) (S.run H fuel graphId) := by
  have hends : Ends (worldFact I) (worldFact I) (worldFact I) :=
    ⟨fun _ _ _ hw => hw, fun _ _ _ hw => hw⟩
  exact h.routine.run_goes (P := fun _ => True) hends (fun _ _ _ _ _ _ _ => trivial)
    (fun fuel n version _ => (h.trial graphId n version).visitTask_goes hends h.routine fuel) fuel

end Sustained

end Shiroe
