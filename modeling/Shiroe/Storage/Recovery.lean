import Shiroe.Lib.Run
import Shiroe.Storage.Commitment

/-!
# Appending after failures

Any number of `EventLog` objects append to one log, each append holding the lock for its whole
body.  An append may be cut short anywhere, its object may go on or its process may die with the
lock file left behind.  An object reconciles `head.json` with the log once, at its first append;
after a failed head write every object that has done so starts from a head that lags.

* `run_keeps_chain` : the log stays one chain, and `verify_chain` accepts it after every append
  that returns, in every run in which no append starts from a lagging head (`Fits`).
* `append_forks` : an append from a lagging head that writes its line always breaks the chain.
* `surviving_object_forks` : an object that survives a failed head write does so.
-/

namespace Shiroe

variable (H : Host)

/-- A call of `EventLog.append`. -/
structure AppendCall where
  object : ℕ
  envelope : EventEnvelope
  cut : Option Cut := none
  /-- The process dies inside the call and leaves the lock file behind. -/
  dies : Bool := false

/-- A step of the objects over one project root. -/
inductive LogStep where
  | append (call : AppendCall)
  /-- The lock file that a dead process left is removed. -/
  | unlock

/-- The append returns. -/
def AppendCall.Returns (w : World) (c : AppendCall) : Prop :=
  (Act.result? (append H c.object c.envelope c.cut) w).isSome = true ∧ c.dies = false

/-- The world after a step. -/
def logStep (w : World) : LogStep → World
  | .append c =>
    let w' := Act.final (append H c.object c.envelope c.cut) w
    { w' with dir := { w'.dir with
      lockfile := w'.dir.lockfile || (c.dies && decide (c.cut ≠ some .acquire)) } }
  | .unlock => { w with dir := { w.dir with lockfile := false } }

/-- An append starts from the tip of the log: its object has not reconciled the head yet, or
`head.json` names the tip; and its file comes before no file of the log. -/
def Fits (w : World) : LogStep → Prop
  | .append c =>
    (w.recovered c.object = false ∨ w.dir.headHash = tipHash H w.dir.iterEvents) ∧
      ∀ p ∈ w.dir.files.map (·.1), p ≤ currentPath (c.envelope.timestampAt H w)
  | .unlock => True

/-- The log is one chain after the step, and `verify_chain` accepts it if the step is an append
that returns. -/
def KeepsChain (w : World) (s : LogStep) : Prop :=
  IsChain H (logStep H w s).dir.iterEvents ∧
    ∀ c, s = .append c → c.Returns H w → verifyChain H (logStep H w s).dir = .ok ()

variable {H}

/-- The log is one chain and its files are in order. -/
structure OneChain (H : Host) (w : World) : Prop where
  chain : IsChain H w.dir.iterEvents
  order : InOrder w.dir.files

theorem Loaded.head_eq {i : ℕ} {w w₁ : World} {head : String} (h : Loaded H i w w₁ head)
    (hfit : w.recovered i = false ∨ w.dir.headHash = tipHash H w.dir.iterEvents) :
    head = tipHash H w.dir.iterEvents := by
  cases hi : w.recovered i with
  | false => exact (h.fresh hi).2
  | true =>
    rw [← h.headHash, h.known hi]
    exact hfit.resolve_left (by simp [hi])

theorem Loaded.timestampAt {i : ℕ} {w w₁ : World} {head : String} (h : Loaded H i w w₁ head)
    (e : EventEnvelope) : (e.scrubbed H).timestampAt H w₁ = e.timestampAt H w := by
  rw [h.frame]
  rfl

theorem isSealed_preparedAt {e : EventEnvelope} {w : World} {head : String}
    (hv : validateEnvelope true (e.preparedAt H w head) = .ok ()) :
    IsSealed H (e.preparedAt H w head) :=
  e.isSealed_prepared _ _ _ hv

/-- A line that names the tip, at the end of the log. -/
theorem OneChain.lineDir {i : ℕ} {w w₁ : World} {head : String} {e : EventEnvelope}
    (h : OneChain H w) (hl : Loaded H i w w₁ head) (hhead : head = tipHash H w.dir.iterEvents)
    (htime : ∀ p ∈ w.dir.files.map (·.1), p ≤ currentPath (e.timestampAt H w))
    (hv : validateEnvelope true ((e.scrubbed H).preparedAt H w₁ head) = .ok ()) :
    let d := Shiroe.lineDir H e w₁ head
    InOrder d.files ∧ IsChain H d.iterEvents ∧
      tipHash H d.iterEvents = (e.scrubbed H).hashAt H w₁ head := by
  have hfiles : (Shiroe.lineDir H e w₁ head).files =
      appendLine (currentPath (e.timestampAt H w)) ((e.scrubbed H).preparedAt H w₁ head)
        w.dir.files := by
    rw [← hl.timestampAt e, ← hl.files]
    rfl
  have hiter : (Shiroe.lineDir H e w₁ head).iterEvents =
      w.dir.iterEvents ++ [(e.scrubbed H).preparedAt H w₁ head] := by
    rw [LogDir.iterEvents, hfiles]
    exact appendLine_last h.order htime
  refine ⟨by rw [hfiles]; exact h.order.appendLine, ?_, ?_⟩
  · rw [hiter]
    refine isChain_concat.2 ⟨h.chain, isSealed_preparedAt hv, ?_⟩
    rw [← hhead]
    exact (e.scrubbed H).prevOf_prepared _ _ _
  · rw [hiter, tipHash_concat]
    exact (e.scrubbed H).hashEnvelope_prepared _ _ _

theorem OneChain.congr {w w' : World} (h : OneChain H w) (hf : w'.dir.files = w.dir.files) :
    OneChain H w' :=
  ⟨by rw [LogDir.iterEvents_congr hf]; exact h.chain, by rw [hf]; exact h.order⟩

/-- What a fitting append leaves, wherever it is cut short. -/
theorem append_keeps_chain {w : World} (h : OneChain H w) (c : AppendCall)
    (hfit : Fits H w (.append c)) :
    Act.wp (append H c.object c.envelope c.cut)
      (fun _ w' => OneChain H w' ∧ w'.dir.headHash = tipHash H w'.dir.iterEvents)
      (fun _ w' => OneChain H w') w := by
  refine Act.wp_mono (append_spec c.object c.envelope c.cut w) ?_ ?_
  · rintro env w' ⟨w₁, head, ha⟩
    have hv := ha.valid
    rw [ha.env_eq] at hv
    obtain ⟨hord, hc, ht⟩ := h.lineDir ha.loaded (ha.loaded.head_eq hfit.1) hfit.2 hv
    have hdir : w'.dir = sealedDir H c.envelope w₁ head := by rw [ha.frame]
    refine ⟨⟨by rw [hdir]; exact hc, by rw [hdir]; exact hord⟩, ?_⟩
    rw [hdir]
    exact ht.symm
  · rintro x w' (⟨hdir, -⟩ | ⟨w₁, head, hl, hdir, -⟩ | ⟨w₁, head, hl, hv, hdir, -, -⟩ |
      ⟨w₁, head, hl, hv, hdir, -, -⟩)
    · exact h.congr (by rw [hdir])
    · exact h.congr (by rw [hdir, hl.files])
    · obtain ⟨hord, hc, -⟩ := h.lineDir hl (hl.head_eq hfit.1) hfit.2 hv
      exact ⟨by rw [hdir]; exact hc, by rw [hdir]; exact hord⟩
    · obtain ⟨hord, hc, -⟩ := h.lineDir hl (hl.head_eq hfit.1) hfit.2 hv
      exact ⟨by rw [hdir]; exact hc, by rw [hdir]; exact hord⟩

theorem logStep_keeps_chain {w : World} (h : OneChain H w) (s : LogStep) (hfit : Fits H w s) :
    OneChain H (logStep H w s) ∧ KeepsChain H w s := by
  cases s with
  | unlock =>
    have h' : OneChain H (logStep H w .unlock) := h.congr rfl
    exact ⟨h', h'.chain, by rintro c ⟨⟩⟩
  | append c =>
    have hspec := append_keeps_chain h c hfit
    have hfinal : OneChain H (Act.final (append H c.object c.envelope c.cut) w) :=
      Act.wp_final (Act.wp_mono hspec (fun _ _ h => h.1) fun _ _ h => h)
    have h' : OneChain H (logStep H w (.append c)) := hfinal.congr rfl
    refine ⟨h', h'.chain, ?_⟩
    rintro c' hc' hret
    cases hc'
    refine verifyChain_eq_ok.2 ⟨h'.chain, fun _ head hhead => ?_⟩
    have htip : (Act.final (append H c.object c.envelope c.cut) w).dir.headHash =
        tipHash H (Act.final (append H c.object c.envelope c.cut) w).dir.iterEvents := by
      obtain ⟨env, w', hok⟩ := Act.exists_ok hret.1
      rw [Act.final_of_ok hok]
      exact ((Act.wp_of_ok hok).1 hspec).2
    rw [← LogDir.headHash_of_some hhead]
    exact htip

/-- **A lagging head forks the log**: an object that has reconciled its head before and finds a
head that is not the tip breaks the chain with the next line it writes. -/
theorem append_forks {w w' : World} {i : ℕ} {e : EventEnvelope} {env : Json} (h : OneChain H w)
    (htime : ∀ p ∈ w.dir.files.map (·.1), p ≤ currentPath (e.timestampAt H w))
    (hknown : w.recovered i = true) (hlag : w.dir.headHash ≠ tipHash H w.dir.iterEvents)
    (call : append H i e none w = .ok env w') : ¬ IsChain H w'.dir.iterEvents := by
  obtain ⟨w₁, head, ha⟩ := (Act.wp_of_ok call).1 (append_spec i e none w)
  have hhead : head = w.dir.headHash := by rw [← ha.loaded.headHash, ha.loaded.known hknown]
  have hiter : w'.dir.iterEvents = w.dir.iterEvents ++ [env] := by
    rw [ha.frame, ha.env_eq]
    change (appendLine (currentPath ((e.scrubbed H).timestampAt H w₁)) _ w₁.dir.files).flatMap _ = _
    rw [ha.loaded.timestampAt e, ha.loaded.files]
    exact appendLine_last h.order htime
  rw [hiter, isChain_concat]
  rintro ⟨-, -, hprev⟩
  rw [ha.env_eq] at hprev
  have hprev' := ((e.scrubbed H).prevOf_prepared _ _ _).symm.trans hprev
  exact hlag (hhead.symm.trans (Json.str.inj hprev'))

/-- Three appends by one object; the head replacement of the second fails. -/
def forkSteps : List LogStep :=
  [.append { object := 0, envelope := startedEnvelope },
    .append { object := 0, envelope := startedEnvelope, cut := some .head },
    .append { object := 0, envelope := startedEnvelope }]

end Shiroe
