import Shiroe.Capabilities.Coverage
import Shiroe.Execution.Passes

/-!
# What a run spends

The budget is looked at once for each node that is visited, before its attempts, and only a result
that passes all checks is charged.  The meter reads off the marks of a run what its executors have
reported.

* `reported_le_cap` : the tokens of a run stay under a cap if no attempt is started after one of the
  same visit that has reported tokens;
* `not_reported_le_cap` : a failed attempt is not charged, and the next one passes the cap.
-/

namespace Shiroe

open Act
open Process (Inv)

/-- The axes of a budget that count tokens. -/
inductive TokenAxis where
  | input | output
  deriving DecidableEq

namespace TokenAxis

/-- Where a report keeps the tokens. -/
def key : TokenAxis → String
  | input => "tokens_in"
  | output => "tokens_out"

/-- The cap of a budget. -/
def cap (b : BudgetTracker) : TokenAxis → ℕ
  | input => b.tokensInputMax
  | output => b.tokensOutputMax

/-- What a budget has been charged. -/
def spent (b : BudgetTracker) : TokenAxis → ℤ
  | input => b.tokensInputSpent
  | output => b.tokensOutputSpent

/-- The tokens of a report; a report that cannot be read has none. -/
def reported (x : TokenAxis) (usage : Json) : ℤ := (tokens usage x.key).toOption.getD 0

end TokenAxis

/-! ### The meter of a run -/

/-- What the marks of a run say about its tokens. -/
structure Meter where
  /-- The tokens that its attempts have reported. -/
  total : ℤ := 0
  /-- The projection of the node that is visited. -/
  projected : ℤ := 0
  /-- No attempt has reported tokens since the budget was looked at. -/
  fresh : Bool := false
  deriving DecidableEq

variable (x : TokenAxis)

/-- Read one mark. -/
def Meter.read (m : Meter) : Mark → Meter
  | .projected _ projection => { m with projected := x.reported projection, fresh := true }
  | .answered _ result =>
    { m with
      total := m.total + x.reported result.usage
      fresh := m.fresh && decide (x.reported result.usage ≤ 0) }
  | _ => m

/-- The meter after some marks. -/
def meter (marks : List Mark) : Meter := marks.foldl (Meter.read x) {}

/-- Every report stays within the projection of its node. -/
def WithinProjection (marks : List Mark) : Prop :=
  ∀ before n result after, marks = before ++ .answered n result :: after →
    x.reported result.usage ≤ (meter x before).projected

/-- No attempt starts after one of the same visit that has reported tokens. -/
def StartsFresh (marks : List Mark) : Prop :=
  ∀ before n id after, marks = before ++ .started n id :: after → (meter x before).fresh = true

variable {x}

theorem meter_append (marks : List Mark) (m : Mark) :
    meter x (marks ++ [m]) = (meter x marks).read x m := by
  rw [meter, List.foldl_append]
  rfl

theorem meter_routine {m : Mark} (hm : m.isRoutine = true) (marks : List Mark) :
    meter x (marks ++ [m]) = meter x marks := by
  rw [meter_append]
  cases m <;> first | rfl | cases hm

/-- What is said of every mark is said of the earlier ones. -/
theorem WithinProjection.of_append {marks : List Mark} {m : Mark}
    (h : WithinProjection x (marks ++ [m])) : WithinProjection x marks :=
  fun before n result after he => h before n result (after ++ [m])
    (by rw [he, List.append_assoc]; rfl)

theorem StartsFresh.of_append {marks : List Mark} {m : Mark} (h : StartsFresh x (marks ++ [m])) :
    StartsFresh x marks :=
  fun before n id after he => h before n id (after ++ [m]) (by rw [he, List.append_assoc]; rfl)

/-- Check every mark against the meter before it. -/
def checkMarks (P : Meter → Mark → Bool) : Meter → List Mark → Bool
  | _, [] => true
  | k, m :: marks => P k m && checkMarks P (k.read x m) marks

theorem of_checkMarks {P : Meter → Mark → Bool} {marks : List Mark} {k : Meter}
    (h : checkMarks (x := x) P k marks = true) (before : List Mark) (m : Mark) (after : List Mark)
    (he : marks = before ++ m :: after) : P (before.foldl (Meter.read x) k) m = true := by
  induction before generalizing k marks with
  | nil =>
    subst he
    exact (Bool.and_eq_true_iff.1 h).1
  | cons m' before ih =>
    subst he
    exact ih (Bool.and_eq_true_iff.1 h).2 rfl

/-! ### The budget -/

variable {b b' : BudgetTracker} {H : Host}

/-- What is read off a report. -/
theorem TokenAxis.reported_of_ok {usage : Json} {n : ℤ} (h : tokens usage x.key = .ok n) :
    x.reported usage = n := by
  rw [reported, h]
  rfl

/-- A report that is left out has no tokens. -/
theorem TokenAxis.reported_orElse (usage : Json) :
    x.reported (usage.orElse (.mkObj [])) = x.reported usage := by
  unfold Json.orElse
  split
  · rfl
  · rename_i hfalsy
    cases usage with
    | obj d =>
      have hd : d = [] := by simpa [Json.truthy] using hfalsy
      rw [hd]
      rfl
    | _ => rfl

/-- A cap that is set and not passed. -/
theorem le_of_not_exceeds {cap : ℕ} {spent projected : ℤ} (hcap : 0 < cap)
    (h : exceeds cap spent projected = false) : spent + projected ≤ cap := by
  simp only [exceeds, Bool.and_eq_false_iff, decide_eq_false_iff_not] at h
  rcases h with h | h
  · simp at h
    omega
  · omega

/-- A projection that bursts nothing fits under a cap. -/
theorem wouldExceed_none {usdBurst : UsdBurst} {projection : Json}
    (h : b.wouldExceed H usdBurst projection = .ok none) (hcap : 0 < x.cap b) :
    x.spent b + x.reported projection ≤ x.cap b := by
  simp only [BudgetTracker.wouldExceed, except_bind_eq_ok] at h
  obtain ⟨cost, -, input, hin, output, hout, h⟩ := h
  have h := Except.ok.inj h
  split_ifs at h with _ hi ho
  cases x with
  | input =>
    rw [TokenAxis.reported_of_ok hin]
    exact le_of_not_exceeds hcap (Bool.eq_false_iff.2 hi)
  | output =>
    rw [TokenAxis.reported_of_ok hout]
    exact le_of_not_exceeds hcap (Bool.eq_false_iff.2 ho)

/-- A charge adds what the report says, and moves no cap. -/
theorem chargeUsage_spent {usage : Json} (h : b.chargeUsage H usage = .ok b') :
    x.cap b' = x.cap b ∧ x.spent b' = x.spent b + x.reported usage := by
  simp only [BudgetTracker.chargeUsage, except_bind_eq_ok] at h
  obtain ⟨report, hreport, cost, -, input, hin, output, hout, h⟩ := h
  obtain rfl : usage = report := by
    unfold Json.dict at hreport
    split at hreport
    · exact Except.ok.inj hreport
    · cases hreport
  cases Except.ok.inj h
  cases x with
  | input => exact ⟨rfl, by rw [TokenAxis.reported_of_ok hin]; rfl⟩
  | output => exact ⟨rfl, by rw [TokenAxis.reported_of_ok hout]; rfl⟩

/-! ### What holds in a run -/

variable (x) in
/-- In a run whose reports stay within their projections and whose attempts start fresh, `R` holds
of what is charged and of the meter. -/
def Metered (cap : ℕ) (R : ℤ → Meter → Prop) : RunFact := fun _ t l =>
  x.cap t.budget = cap ∧
    (WithinProjection x (l.map Prod.fst) → StartsFresh x (l.map Prod.fst) →
      R (x.spent t.budget) (meter x (l.map Prod.fst)))

variable {cap : ℕ} {R R' : ℤ → Meter → Prop} {S : Supervisor}

theorem Metered.mono (h : ∀ s m, R s m → R' s m) (w : World) (t : RunState)
    (l : List (Mark × World)) :
    Metered x cap R w t l → Metered x cap R' w t l :=
  fun hR => ⟨hR.1, fun hw hf => h _ _ (hR.2 hw hf)⟩

/-- One more mark. -/
theorem Metered.note {m : Mark} (h : ∀ s k, R s k →
      (∀ n result, m = .answered n result → x.reported result.usage ≤ k.projected) →
      (∀ n id, m = .started n id → k.fresh = true) → R' s (k.read x m))
    (w : World) (t : RunState) (l : List (Mark × World)) (hR : Metered x cap R w t l) :
    Metered x cap R' w t (l ++ [(m, w)]) := by
  refine ⟨hR.1, fun hw hf => ?_⟩
  rw [List.map_append, List.map_singleton] at hw hf ⊢
  rw [meter_append]
  refine h _ _ (hR.2 hw.of_append hf.of_append) (fun n result hm => ?_) fun n id hm => ?_
  · exact hw _ n result [] (by rw [hm])
  · exact hf _ n id [] (by rw [hm])

theorem Metered.routine : Routine H S (Metered x cap R) :=
  Routine.of_own
    (J := fun t marks => x.cap t.budget = cap ∧ (WithinProjection x marks → StartsFresh x marks →
      R (x.spent t.budget) (meter x marks)))
    (fun m hm t marks h => ⟨h.1, fun hw hf => by
      rw [meter_routine hm]
      exact h.2 hw.of_append hf.of_append⟩)
    fun t t' marks ht h => by rw [ht]; exact h

namespace Meter

/-- Between two visits, with the cap and what is charged. -/
def Settled (cap : ℕ) (s : ℤ) (m : Meter) : Prop := m.total ≤ cap ∧ m.total ≤ s

/-- Before an attempt. -/
def Ready (cap : ℕ) (s : ℤ) (m : Meter) : Prop :=
  m.total ≤ cap ∧ (m.fresh = true → m.total ≤ s ∧ s + m.projected ≤ cap)

/-- While an attempt runs. -/
def Open (cap : ℕ) (s : ℤ) (m : Meter) : Prop :=
  m.total ≤ cap ∧ m.total ≤ s ∧ s + m.projected ≤ cap

/-- After an attempt that has reported `n` tokens, not charged yet. -/
def Owing (cap : ℕ) (n s : ℤ) (m : Meter) : Prop :=
  Ready cap s m ∧ m.total ≤ s + n ∧ (m.fresh = true → n ≤ 0)

/-- After an attempt whose tokens are charged. -/
def Charged (cap : ℕ) (s : ℤ) (m : Meter) : Prop := Ready cap s m ∧ m.total ≤ s

/-- The cap is kept. -/
def Under (cap : ℕ) (_ : ℤ) (m : Meter) : Prop := m.total ≤ cap

variable {s n : ℤ} {m : Meter}

/-- The budget has room for a node. -/
theorem Settled.projected (h : Settled cap s m) {nodeId : String} {projection : Json}
    (hroom : s + x.reported projection ≤ cap) :
    Ready cap s (m.read x (.projected nodeId projection)) :=
  ⟨h.1, fun _ => ⟨h.2, hroom⟩⟩

theorem Ready.started (h : Ready cap s m) (hfresh : m.fresh = true) : Open cap s m :=
  ⟨h.1, h.2 hfresh⟩

theorem Open.ready (h : Open cap s m) : Ready cap s m := ⟨h.1, fun _ => h.2⟩

/-- The report of an attempt. -/
theorem Open.answered (h : Open cap s m) {nodeId : String} {result : AdapterResult}
    (hwithin : x.reported result.usage ≤ m.projected) :
    Owing cap (x.reported result.usage) s (m.read x (.answered nodeId result)) := by
  obtain ⟨htotal, hspent, hroom⟩ := h
  have hfresh : (m.read x (.answered nodeId result)).fresh = true →
      x.reported result.usage ≤ 0 := by
    simp only [Meter.read, Bool.and_eq_true, decide_eq_true_eq]
    exact And.right
  refine ⟨⟨?_, fun hf => ⟨?_, hroom⟩⟩, ?_, hfresh⟩ <;> simp only [Meter.read]
  · omega
  · have := hfresh hf
    omega
  · omega

/-- The charge for an attempt. -/
theorem Owing.charged (h : Owing cap n s m) : Charged cap (s + n) m := by
  obtain ⟨⟨htotal, hready⟩, howing, hfresh⟩ := h
  refine ⟨⟨htotal, fun hf => ⟨howing, ?_⟩⟩, howing⟩
  have := hfresh hf
  have := (hready hf).2
  omega

end Meter

/-! ### An attempt -/

namespace Metered

open Meter

variable (H S)

theorem step {α : Type} (y : Op α) : Keeps (Inv (Metered x cap R)) (S.step y) :=
  Process.keeps_step (fun _ _ _ _ h => h) fun _ _ => Keeps.const _ _

/-- A mark that the meter passes over. -/
theorem stepAt {α : Type} {m : Mark} (hm : ∀ k : Meter, k.read x m = k) (y : Op α) :
    Keeps (Inv (Metered x cap R)) (S.stepAt m y) := by
  refine (Process.keeps_await fun _ _ _ _ h => h).bind fun _ => Keeps.bind ?_ fun _ =>
    Process.keeps_lift fun _ _ => Keeps.const _ _
  exact Process.keeps_note (Metered.note fun s k hk _ _ => by rw [hm]; exact hk)

theorem finish (attemptId : String) (state : AttemptEnd) (error : Option String) (usage : Json) :
    Keeps (Inv (Metered x cap R)) (S.finish H attemptId state error usage) :=
  stepAt S (fun _ => rfl) _

theorem checkResult (n : WorkNode) (attemptId : String) (result : AdapterResult) :
    Keeps (Inv (Metered x cap R)) (S.checkResult H n attemptId result) := by
  have hfail : ∀ error message, Keeps (Inv (Metered x cap R))
      (S.failAttempt (α := Unit) H attemptId error result.usage message) := fun _ _ =>
    Keeps.bind (finish H S _ _ _ _) fun _ => Keeps.throw _
  refine Keeps.ite (fun _ => hfail _ _) fun _ => (Keeps.ofExcept _).bind fun _ => ?_
  exact Keeps.ite (fun _ => hfail _ _) fun _ =>
    Keeps.ite (fun _ => hfail _ _) fun _ => Keeps.pure _

theorem invokeExecutor (graphId : String) (n : WorkNode) (call : Invocation) :
    Keeps (Inv (Metered x cap R)) (S.invokeExecutor H graphId n call) :=
  Keeps.ite (fun _ => stepAt S (fun _ => rfl) _) fun _ =>
    Keeps.bind (stepAt S (fun _ => rfl) _) fun _ => Keeps.bind (step S _) fun _ =>
      stepAt S (fun _ => rfl) _

theorem ends {E : ℤ → Meter → Prop} (hR : ∀ s m, R s m → R' s m) (hE : ∀ s m, R s m → E s m) :
    Ends (Metered x cap R) (Metered x cap R') (Metered x cap E) :=
  ⟨mono hR, mono hE⟩

/-- An attempt that starts fresh owes what it reports. -/
theorem wp_startAttempt (graphId : String) (n : WorkNode) (capabilityId : String) :
    ∀ p, Inv (Metered x cap (Ready cap)) p → Act.wp (S.startAttempt H graphId n capabilityId)
      (fun r => Inv (Metered x cap (Owing cap (x.reported r.2.usage))))
      (fun _ => Inv (Metered x cap (Ready cap))) p := by
  have hready : Ends (Metered x cap (Ready cap)) (Metered x cap (Ready cap))
      (Metered x cap (Ready cap)) := ends (fun _ _ => id) fun _ _ => id
  have hopen : Ends (Metered x cap (Open cap)) (Metered x cap (Ready cap))
      (Metered x cap (Ready cap)) := ends (fun _ _ => Open.ready) fun _ _ => Open.ready
  refine hready.wp_bind (step S _) fun id p hp => ?_
  rw [wp_bind, Process.wp_note]
  have hstarted := Metered.note (m := .started n.id id)
    (fun s k hk _ hf => Ready.started hk (hf _ _ rfl)) _ _ _ hp
  refine hopen.wp_bind (Keeps.ofExcept _) (fun inputs => hopen.wp_bind (Keeps.ofExcept _)
    fun timeoutS => hopen.wp_bind (invokeExecutor H S _ _ _) fun result p₁ hp₁ => ?_) _ hstarted
  rw [wp_bind, Process.wp_note]
  exact (wp_pure _).2 (Metered.note (m := .answered n.id result)
    (fun s k hk hw _ => Open.answered hk (hw _ _ rfl)) _ _ _ hp₁)

/-- An attempt is charged what it has reported. -/
theorem wp_settleAttempt (n : WorkNode) (attemptId : String) (result : AdapterResult) :
    ∀ p, Inv (Metered x cap (Owing cap (x.reported result.usage))) p →
      Act.wp (S.settleAttempt H n attemptId result) (fun _ => Inv (Metered x cap (Charged cap)))
        (fun _ => Inv (Metered x cap (Ready cap))) p := by
  have hcharged : Ends (Metered x cap (Charged cap)) (Metered x cap (Charged cap))
      (Metered x cap (Ready cap)) := ends (fun _ _ => id) fun _ _ => And.left
  intro p hp
  rw [Supervisor.settleAttempt, wp_bind, Process.wp_recollect, wp_bind, wp_ofExcept]
  cases hcharge : p.own.budget.chargeUsage H (result.usage.orElse (.mkObj [])) with
  | error e => exact hp.mono (fun _ _ => And.left) _ _ _
  | ok budget =>
    obtain ⟨hcap, hspent⟩ := chargeUsage_spent (x := x) hcharge
    rw [TokenAxis.reported_orElse] at hspent
    dsimp only
    rw [wp_bind, Process.wp_remember]
    refine hcharged.wp_bind (finish H S _ _ _ _) (fun _ => hcharged.wp_bind (step S _)
      fun version => hcharged.wp_bind (step S _) fun _ p₁ hp₁ => ?_) _
      ⟨hcap.trans hp.1, fun hw hf => ?_⟩
    · rw [wp_bind, Process.wp_note]
      exact (wp_pure _).2 (Metered.note (m := .recorded n.id) (fun s k hk _ _ => hk) _ _ _ hp₁)
    · rw [hspent]
      exact (hp.2 hw hf).charged

/-- One attempt: where the node is completed, everything is charged. -/
theorem wp_attempt (graphId : String) (n : WorkNode) (version : ℤ) :
    ∀ p, Inv (Metered x cap (Ready cap)) p → Act.wp (S.attempt H graphId n version)
      (fun r p' => (r = none → Inv (Metered x cap (Settled cap)) p') ∧
        Inv (Metered x cap (Under cap)) p')
      (fun _ => Inv (Metered x cap (Ready cap))) p := by
  have hready : Ends (Metered x cap (Ready cap)) (Metered x cap (Under cap))
      (Metered x cap (Ready cap)) := ends (fun _ _ => And.left) fun _ _ => id
  have howing : ∀ n, Ends (Metered x cap (Owing cap n)) (Metered x cap (Under cap))
      (Metered x cap (Ready cap)) := fun _ => ends (fun _ _ h => h.1.1) fun _ _ => And.left
  have hcharged : Ends (Metered x cap (Charged cap)) (Metered x cap (Under cap))
      (Metered x cap (Ready cap)) := ends (fun _ _ h => h.1.1) fun _ _ => And.left
  have hpause : ∀ {R : ℤ → Meter → Prop} (_ : ∀ s m, R s m → m.total ≤ cap)
      (_ : ∀ s m, R s m → Ready cap s m) (version : ℤ) (reason : String) (pending : List String) p,
      Inv (Metered x cap R) p → Act.wp (S.pause H graphId n.id version reason pending)
        (fun _ => Inv (Metered x cap (Under cap))) (fun _ => Inv (Metered x cap (Ready cap)))
          p := by
    intro R hunder hR version reason pending p hp
    exact wp_mono (Metered.routine.pause _ _ _ _ _ p hp) (fun _ _ => mono hunder _ _ _)
      fun _ _ => mono hR _ _ _
  refine hready.wp_bind (Metered.routine.attemptGates graphId n) fun gates p hp => ?_
  obtain ⟨capabilityId, auth⟩ := gates
  dsimp only
  cases auth.verdict with
  | deny => exact (wp_throw _).2 hp
  | requireApproval =>
    dsimp only
    rw [wp_bind]
    refine wp_mono (hpause (fun _ _ => And.left) (fun _ _ => id) _ _ _ p hp) (fun _ _ h => ?_)
      fun _ _ h => h
    exact (wp_pure _).2 ⟨nofun, h⟩
  | allow =>
    dsimp only
    rw [wp_bind]
    refine wp_mono (wp_startAttempt H S graphId n capabilityId p hp) (fun r p₁ hp₁ => ?_)
      fun _ _ h => h
    obtain ⟨id, result⟩ := r
    refine (howing _).wp_bind (checkResult H S n id result) (fun _ p₂ hp₂ => ?_) p₁ hp₁
    rw [wp_bind]
    refine wp_mono (wp_settleAttempt H S n id result p₂ hp₂) (fun v p₃ hp₃ => ?_) fun _ _ h => h
    refine hcharged.wp_bind (Metered.routine.reviewGate n) (fun passed p₄ hp₄ => ?_) p₃ hp₃
    rw [wp_ite]
    refine ⟨fun _ => ?_, fun _ => ?_⟩
    · refine hcharged.wp_bind (Metered.routine.complete n.id (v + 1)) (fun _ p₅ hp₅ => ?_) p₄ hp₄
      exact (wp_pure _).2 ⟨fun _ => hp₅.mono (fun _ _ h => ⟨h.1.1, h.2⟩) _ _ _,
        hp₅.mono (fun _ _ h => h.1.1) _ _ _⟩
    · rw [wp_bind]
      refine wp_mono (hpause (fun _ _ h => h.1.1) (fun _ _ => And.left) _ _ _ p₄ hp₄)
        (fun _ _ h => ?_) fun _ _ h => h
      exact (wp_pure _).2 ⟨nofun, h⟩

/-- What holds while a node is tried. -/
theorem trial (hcap : 0 < cap) (graphId : String) (n : WorkNode) (version : ℤ) :
    Trial H S (Metered x cap (Settled cap)) (Metered x cap (Under cap)) (Metered x cap (Under cap))
      (Metered x cap (Ready cap)) (fun _ => Metered x cap (Ready cap)) graphId n version where
  room projection w t l hburst h := by
    have hroom := wouldExceed_none (x := x) hburst (by rw [h.1]; exact hcap)
    rw [h.1] at hroom
    refine ⟨h.1, fun hw hf => ?_⟩
    rw [List.map_append, List.map_singleton] at hw hf ⊢
    rw [meter_append]
    exact (h.2 hw.of_append hf.of_append).projected hroom
  counted p hp := wp_mono (step S _ p hp) (fun _ _ h => h) fun _ _ =>
    mono (fun _ _ => And.left) _ _ _
  attempt k p _ hp := by
    refine wp_mono (wp_attempt H S graphId n version p hp) (fun _ _ h => h) fun e p' h => ?_
    split
    · exact h
    · exact h.mono (fun _ _ => And.left) _ _ _
  routine _ := Metered.routine
  ends _ := ends (fun _ _ => And.left) fun _ _ => And.left

end Metered

/-- **The tokens of a run**: they stay under a cap, if every report stays within the projection of
its node, and no attempt starts after one of the same visit that has reported tokens. -/
theorem reported_le_cap (H : Host) (S : Supervisor) (fuel : ℕ) (graphId : String) (p : Session)
    (htrace : p.trace = []) (hcap : 0 < x.cap p.own.budget) (hspent : 0 ≤ x.spent p.own.budget)
    (hwithin : WithinProjection x ((final (S.run H fuel graphId) p).trace.map Prod.fst))
    (hfresh : StartsFresh x ((final (S.run H fuel graphId) p).trace.map Prod.fst)) :
    (meter x ((final (S.run H fuel graphId) p).trace.map Prod.fst)).total ≤ x.cap p.own.budget := by
  have hends : Ends (Metered x (x.cap p.own.budget) (Meter.Settled (x.cap p.own.budget)))
      (Metered x (x.cap p.own.budget) _) (Metered x (x.cap p.own.budget) _) :=
    Metered.ends (fun _ _ => And.left) fun _ _ => And.left
  have hstart : Inv (Metered x (x.cap p.own.budget) (Meter.Settled (x.cap p.own.budget))) p := by
    refine ⟨rfl, fun _ _ => ?_⟩
    rw [htrace]
    exact ⟨Int.natCast_nonneg _, hspent⟩
  have hrun := Metered.routine.run_goes (H := H) (S := S) (P := fun _ => True) hends
    (fun _ _ _ _ _ _ _ => trivial)
    (fun fuel n version _ => (Metered.trial H S hcap graphId n version).visitTask_goes hends
      Metered.routine fuel) fuel p hstart
  exact (wp_final (I := Inv (Metered x _ (Meter.Under _))) hrun).2 hwithin hfresh

/-! ### A node that is retried -/

/-- A report is within the projection. -/
def Mark.isWithin (x : TokenAxis) (k : Meter) : Mark → Bool
  | .answered _ result => decide (x.reported result.usage ≤ k.projected)
  | _ => true

/-- An attempt starts fresh. -/
def Mark.isFresh (k : Meter) : Mark → Bool
  | .started _ _ => k.fresh
  | _ => true

theorem WithinProjection.of_check {marks : List Mark}
    (h : checkMarks (x := x) (Mark.isWithin x) {} marks = true) : WithinProjection x marks :=
  fun _ _ _ _ he => of_decide_eq_true (of_checkMarks h _ _ _ he)

theorem StartsFresh.of_check {marks : List Mark}
    (h : checkMarks (x := x) Mark.isFresh {} marks = true) : StartsFresh x marks :=
  fun _ _ _ _ he => of_checkMarks h _ _ _ he

/-- A task for the approved capability, with two attempts and a projection. -/
def taskNode (tokensIn : ℤ) : NodeRow where
  id := .text "n"
  graphId := .text "g"
  kind := .text "task"
  objective := .text "work"
  requiresJson := .json (.arr [.str "tool"])
  risk := .text "low"
  approvalRequired := false
  independentReview := false
  evidenceRequired := false
  expectedOutputsJson := .json (.arr [])
  retryJson := .json (.mkObj [("max_attempts", .int 2), ("backoff_s", .int 0)])
  placementJson := .json (.mkObj [("mode", .str "local"), ("node_id", .null)])
  metadataJson := .json (.mkObj [("budget_projection", .mkObj [("tokens_in", .int tokensIn)])])
  status := .text "pending"

/-- A project with a graph of one node, whose adapter answers so. -/
def taskWorld (node : NodeRow) (answer : ℕ → Except Exc AdapterResult) : World :=
  let source := oneFile "main.rb" 1 (by decide)
  let w := approvedWorld (source.digestUnder (Host.quick id)) source
  { w with
    outside := { w.outside with
      policy := [{ name := "project-defaults", allows := [.capabilityInvoke] }]
      answer }
    db := { w.db with
      workGraphs := [{
        id := .text "g", objective := .text "o", constraintsJson := .json (.arr [])
        successCriteriaJson := .json (.arr []), status := .text "draft", version := .int 1
        createdAt := .text "", updatedAt := .text "" }]
      workNodes := [node] } }

/-- A supervisor over that project. -/
def taskSupervisor : Supervisor where
  log := 0
  dispatch _ _ _ := invokeAdapter

/-- A run there that may begin: of a hundred tokens, with answers that report eighty. -/
def taskSession (ok : ℕ → Bool) : Session where
  shared := taskWorld (taskNode 80) fun n =>
    .ok { ok := ok n, usage := .mkObj [("tokens_in", .int 80)] }
  own := { budget := { tokensInputMax := 100, tokensOutputMax := 100 } }

/-- The marks of a run there. -/
def taskMarks (ok : ℕ → Bool) : List Mark :=
  (final (taskSupervisor.run (Host.quick id) 3 "g") (taskSession ok)).trace.map Prod.fst

theorem taskMarks_retried : (checkMarks (x := .input) (Mark.isWithin .input) {}
    (taskMarks fun n => n ≠ 0) && checkMarks (x := .output) (Mark.isWithin .output) {}
    (taskMarks fun n => n ≠ 0) &&
    decide ((meter .input (taskMarks fun n => n ≠ 0)).total = 160)) = true := by decide +kernel

/-- A run that may begin with two tasks, of a hundred tokens: the first answer is a failure without
a report, all others report forty. -/
def twoTasks : Session where
  shared :=
    let w := taskWorld (taskNode 40) fun n =>
      if n = 0 then .ok { ok := false }
      else .ok { ok := true, usage := .mkObj [("tokens_in", .int 40)] }
    { w with db := { w.db with workNodes := [taskNode 40, { taskNode 40 with id := .text "m" }] } }
  own := { budget := { tokensInputMax := 100, tokensOutputMax := 100 } }

/-- The marks of that run. -/
def twoTaskMarks : List Mark :=
  (final (taskSupervisor.run (Host.quick id) 3 "g") twoTasks).trace.map Prod.fst

theorem twoTaskMarks_run :
    (checkMarks (x := .input) (Mark.isWithin .input) {} twoTaskMarks &&
      checkMarks (x := .input) Mark.isFresh {} twoTaskMarks &&
      decide ((twoTaskMarks.filter fun m => m matches .started _ _).length = 3 ∧
        (meter .input twoTaskMarks).total = 80)) = true := by
  decide +kernel

/-- A node that is retried after a failure without a report, and another node: three attempts. -/
theorem reported_le_cap_two_tasks :
    (meter .input twoTaskMarks).total ≤ 100 ∧
      (twoTaskMarks.filter fun m => m matches .started _ _).length = 3 ∧
      (meter .input twoTaskMarks).total = 80 := by
  obtain ⟨hmarks, hrun⟩ := Bool.and_eq_true_iff.1 twoTaskMarks_run
  have h := Bool.and_eq_true_iff.1 hmarks
  exact ⟨reported_le_cap (Host.quick id) taskSupervisor 3 "g" twoTasks rfl (by decide) (by decide)
    (WithinProjection.of_check h.1) (StartsFresh.of_check h.2), of_decide_eq_true hrun⟩

/-- The first attempt fails and reports eighty tokens, which are not charged; the second one reports
eighty more. -/
theorem not_reported_le_cap : ¬ ∀ (H : Host) (S : Supervisor) (fuel : ℕ) (graphId : String)
    (p : Session), p.trace = [] → (∀ x : TokenAxis, x.spent p.own.budget = 0) →
    (∀ x : TokenAxis, 0 < x.cap p.own.budget) →
    (∀ x, WithinProjection x ((final (S.run H fuel graphId) p).trace.map Prod.fst)) →
    ∀ x, (meter x ((final (S.run H fuel graphId) p).trace.map Prod.fst)).total ≤
      x.cap p.own.budget := by
  intro hclaim
  have h := Bool.and_eq_true_iff.1 taskMarks_retried
  obtain ⟨hin, hout⟩ := Bool.and_eq_true_iff.1 h.1
  have hle := hclaim (Host.quick id) taskSupervisor 3 "g" (taskSession fun n => n ≠ 0) rfl
    (fun x => by cases x <;> rfl) (fun x => by cases x <;> decide)
    (fun x => by
      cases x with
      | input => exact WithinProjection.of_check hin
      | output => exact WithinProjection.of_check hout) .input
  change (meter .input (taskMarks fun n => n ≠ 0)).total ≤ 100 at hle
  have htotal := of_decide_eq_true h.2
  omega

end Shiroe
