import Shiroe.Storage.AppendSteps
import Shiroe.Storage.Replay

/-!
# Appends by several processes

Any number of processes over one project root call `EventLog.append` and execute its statements
beside each other, each under `memory/.lock`.  A process may die at any statement, and taking or
releasing the lock may fail: the lock file is created before the holder is written into it, and it
may not be possible to unlink it.

* `appends_serialize` : in every run the log, the tables and the outcomes are those of the ended
  appends made one after the other, in the order in which they released the lock;
* `appends_keep_chain` : when the log can be written and the clock does not go back, the log is one
  chain at every moment and holds what has been returned, in order; it verifies whenever the lock is
  free;
* `dead_writer_blocks` : a process that dies behind the lock or cannot release it leaves it there
  for good, and nothing is written any more.
-/

namespace Shiroe

variable {H : Host}

/-! ### Processes -/

/-- A call of `append` by a process, cut short at most behind the lock. -/
structure LockedCall where
  object : ℕ
  envelope : EventEnvelope
  cut : Option { c : Cut // c ≠ .acquire } := none
  /-- So often the process tries again when the lock is taken. -/
  retries : ℕ := 0

namespace LockedCall

variable (H : Host) (c : LockedCall)

/-- The statements under the lock. -/
def body : LogProg Json :=
  appendProg H c.object (c.envelope.scrubbed H) (c.cut.map (·.1))

/-- The append at once. -/
def op : Op Json := append H c.object c.envelope (c.cut.map (·.1))

end LockedCall

/-- The appends of the processes, under the lock. -/
def appends (H : Host) : Locking LogStmt LogStmt.Answer Exc Json World LockedCall where
  exec := LogStmt.exec H
  body := LockedCall.body H
  tries c := c.retries + 1
  late := .lockHeld
  broken := .osError

/-- The processes at work on a project. -/
abbrev Writers (κ : Type) := Worked LogStmt LogStmt.Answer Exc Json World κ

/-- The processes after the first turns, from the project `w`. -/
def appendsAt (H : Host) (w : World) (turns : List (LockTurn LockedCall)) (k : ℕ) :
    Writers LockedCall :=
  (appends H).after w turns k

/-- The lock is free and the files are in order. -/
structure Orderly (w : World) : Prop where
  unlocked : w.dir.lockfile = false
  order : InOrder w.dir.files

theorem Orderly.lineDir {w w₁ : World} {i : ℕ} {head : String} (h : Orderly w)
    (hl : Loaded H i w w₁ head) (e : EventEnvelope) :
    (lineDir H e w₁ head).lockfile = false ∧ InOrder (lineDir H e w₁ head).files := by
  refine ⟨hl.lockfile.trans h.unlocked, ?_⟩
  have hord : InOrder w₁.dir.files := hl.files ▸ h.order
  exact hord.appendLine

/-- An append keeps the files in order, wherever it is cut short. -/
theorem keeps_orderly (i : ℕ) (e : EventEnvelope) (cut : Option Cut) :
    Act.Keeps Orderly (append H i e cut) := by
  intro w h
  refine Act.wp_mono (append_spec i e cut w) ?_ ?_
  · rintro env w' ⟨w₁, head, ha⟩
    have hdir : w'.dir = sealedDir H e w₁ head := by rw [ha.frame]
    exact ⟨by rw [hdir]; exact (h.lineDir ha.loaded e).1,
      by rw [hdir]; exact (h.lineDir ha.loaded e).2⟩
  · rintro x w' (⟨hdir, -⟩ | ⟨w₁, head, hl, hdir, -⟩ | ⟨w₁, head, hl, -, hdir, -, -⟩ |
      ⟨w₁, head, hl, -, hdir, -, -⟩)
    · exact ⟨by rw [hdir]; exact h.unlocked, by rw [hdir]; exact h.order⟩
    · exact ⟨by rw [hdir]; exact hl.lockfile.trans h.unlocked,
        by rw [hdir, hl.files]; exact h.order⟩
    · exact ⟨by rw [hdir]; exact (h.lineDir hl e).1, by rw [hdir]; exact (h.lineDir hl e).2⟩
    · exact ⟨by rw [hdir]; exact (h.lineDir hl e).1, by rw [hdir]; exact (h.lineDir hl e).2⟩

theorem LockedCall.run_body {w : World} (h : Orderly w) (c : LockedCall) :
    (c.body H).run (LogStmt.exec H) w = c.op H w := by
  refine run_appendProg h.unlocked h.order c.object c.envelope fun hcut => ?_
  obtain ⟨x, -, hx⟩ := Option.map_eq_some_iff.1 hcut
  exact x.2 hx

/-- What holds at a moment of a run. -/
structure SerialUpTo (H : Host) (w : World) (turns : List (LockTurn LockedCall))
    (p : Writers LockedCall) : Prop where
  /-- The appends that have ended are calls of the run. -/
  calls : ∀ d ∈ p.ended, LockTurn.call d.process d.call ∈ turns
  /-- The project is what these appends, made one after the other, make of it, with a part of one
  more append on top while the lock is taken. -/
  data : ∃ s, Serial (LockedCall.op H) w p.ended s ∧
    (p.pool.shared.locked = false ∧ p.pool.shared.data = s ∨
      p.pool.shared.locked = true ∧ ∃ i c y, LockTurn.call i c ∈ turns ∧
        (LockedCall.body H c).Reaches (LogStmt.exec H) s y p.pool.shared.data)
  /-- A process has returned or raised what the append that it called last did there, or it gave up
  waiting, or an operation on the lock failed. -/
  outcomes : ∀ i r, p.pool.procs i = some (.ofExcept r) →
    (∃ d, p.lastOf i = some d ∧ p.callOf i = some d.call ∧ d.outcome = r) ∨
      r = .error .lockHeld ∨ r = .error .osError
  /-- At most one process is behind the lock. -/
  exclusive : ∀ i j (y z : LogProg Json), p.pool.procs i = some y.inside →
    p.pool.procs j = some z.inside → i = j

theorem LockedCall.keeps_body (c : LockedCall) :
    Act.Keeps Orderly ((c.body H).run (LogStmt.exec H)) := by
  intro w hw
  have hkeeps := keeps_orderly (H := H) c.object c.envelope (c.cut.map (·.1)) w hw
  unfold Act.wp at hkeeps ⊢
  rw [c.run_body hw]
  exact hkeeps

/-- **Concurrent appends are serial appends**, in the order in which they release the lock. -/
theorem appends_serialize {w : World} (h : Orderly w) (turns : List (LockTurn LockedCall)) (k : ℕ) :
    SerialUpTo H w turns (appendsAt H w turns k) := by
  have hserialized := (appends H).serialized_after w turns k
  have hrecorded := (appends H).recorded_after w turns k
  obtain ⟨s, hserial, hdata⟩ := hserialized.data
  have hop : Serial (LockedCall.op H) w (appendsAt H w turns k).ended s ∧ Orderly s :=
    hserial.congr (fun c s hs => c.run_body hs) LockedCall.keeps_body h
  refine ⟨fun d hd => hrecorded.made _ (hrecorded.ended d hd), ⟨s, hop.1, ?_⟩,
    fun i r hi => hserialized.outcome hi, fun i j y z hi hj => hserialized.exclusive hi hj⟩
  refine hdata.imp_right ?_
  rintro ⟨hlocked, i, c, y, hmade, hreaches⟩
  exact ⟨hlocked, i, c, y, hrecorded.made _ hmade, hreaches⟩

/-- Two processes append at the same time: the second finds the lock taken, and tries again when the
first has released it.  A third one cannot open the lock file. -/
def twoWriters : List (LockTurn LockedCall) :=
  [.call 0 { object := 0, envelope := startedEnvelope },
    .call 1 { object := 1, envelope := startedEnvelope, retries := 1 },
    .call 2 { object := 2, envelope := startedEnvelope }, .fail 2 false, .next 0, .next 1] ++
    List.replicate 11 (.next 0) ++ List.replicate 13 (.next 1)

theorem orderly_emptyWorld : Orderly emptyWorld := ⟨rfl, List.Pairwise.nil⟩

theorem appends_serialize_two :
    let p := appendsAt (Host.quick id) emptyWorld twoWriters 30
    SerialUpTo (Host.quick id) emptyWorld twoWriters p ∧
      (appendsAt (Host.quick id) emptyWorld twoWriters 6).pool.shared.locked = true ∧
      p.pool.shared.locked = false ∧ p.pool.shared.data.dir.iterEvents.length = 2 ∧
      p.ended.map (fun d => (d.process, d.call.object)) = [(0, 0), (1, 1)] :=
  ⟨appends_serialize orderly_emptyWorld twoWriters 30, by decide +kernel, by decide +kernel,
    by decide +kernel, by decide +kernel⟩

/-- The processes after all the turns. -/
def appendsAfter (H : Host) (w : World) (turns : List (LockTurn LockedCall)) : Writers LockedCall :=
  appendsAt H w turns turns.length

theorem appendsAfter_append (w : World) (turns later : List (LockTurn LockedCall)) :
    appendsAfter H w (turns ++ later) = later.foldl (appends H).turn (appendsAfter H w turns) := by
  simp only [appendsAfter, appendsAt, Locking.after, Run.stateAt, List.take_length,
    List.foldl_append]

/-- **A writer behind the lock comes out of it by its own turns, or it blocks everybody.**  When it
dies there or cannot unlink the lock file, the lock, the log and the tables stay as they are for
good; so they do, with the lock taken, when a writer creates the lock file and fails then. -/
theorem dead_writer_blocks (H : Host) (w : World) (turns : List (LockTurn LockedCall)) (i : ℕ) :
    let p := appendsAfter H w turns
    (∀ y : LogProg Json, p.pool.procs i = some y.inside →
      (∃ n, (appendsAfter H w (turns ++ List.replicate n (.next i))).pool.shared.locked = false) ∧
      ∀ later, (appendsAfter H w (turns ++ .die i :: later)).pool.shared = p.pool.shared) ∧
    (∀ r created later, p.pool.procs i = some (Prog.inside (.ofExcept r : LogProg Json)) →
      (appendsAfter H w (turns ++ .fail i created :: later)).pool.shared = p.pool.shared) ∧
    ∀ c n later, p.pool.procs i = some ((LockedCall.body H c).waiting .lockHeld (n + 1)) →
      p.pool.shared.locked = false →
      (appendsAfter H w (turns ++ .fail i true :: later)).pool.shared =
        { p.pool.shared with locked := true } := by
  intro p
  have hp : (appends H).Serialized w (appendsAfter H w turns) :=
    (appends H).serialized_after w turns turns.length
  refine ⟨fun y hi => ⟨?_, fun later => ?_⟩, fun r created later hi => ?_,
    fun c n later hi hfree => ?_⟩
  · simp only [appendsAfter_append]
    exact Locking.exists_unlocked hi
  · rw [appendsAfter_append]
    exact (hp.stuck_of_die hi).run later
  · rw [appendsAfter_append, List.foldl_cons, (hp.stuck_of_drop created hi).run later]
    exact congrArg (·.pool.shared) (Locking.turn_fail_drop hi)
  · rw [appendsAfter_append, List.foldl_cons, (hp.stuck_of_take hi hfree).run later]
    refine (congrArg (·.pool.shared)
      (Locking.turn_fail_waiting (L := appends H) (c := c) (n := n) hi)).trans ?_
    rw [Bool.or_true]

/-- One writer takes the lock. -/
def holdingWriter : List (LockTurn LockedCall) :=
  [.call 0 { object := 0, envelope := startedEnvelope }, .next 0]

/-- One writer is about to release the lock. -/
def releasingWriter : List (LockTurn LockedCall) :=
  holdingWriter ++ List.replicate 10 (.next 0)

/-- One writer waits for the lock. -/
def waitingWriter : List (LockTurn LockedCall) :=
  [.call 0 { object := 0, envelope := startedEnvelope }]

/-- Another writer, which tries twice. -/
def laterWriter : List (LockTurn LockedCall) :=
  [.call 1 { object := 1, envelope := startedEnvelope, retries := 2 }, .next 1, .next 1]

theorem dead_writer_blocks_other :
    let after := appendsAfter (Host.quick id) emptyWorld
    (∃ n, (after (holdingWriter ++ List.replicate n (.next 0))).pool.shared.locked = false) ∧
      (after (holdingWriter ++ .die 0 :: laterWriter)).pool.shared =
        (after holdingWriter).pool.shared ∧
      (after holdingWriter).pool.shared.locked = true ∧
      (after (releasingWriter ++ .fail 0 false :: laterWriter)).pool.shared =
        (after releasingWriter).pool.shared ∧
      (after releasingWriter).pool.shared.data.dir.iterEvents.length = 1 ∧
      (after (waitingWriter ++ .fail 0 true :: laterWriter)).pool.shared =
        { (after waitingWriter).pool.shared with locked := true } := by
  intro after
  have hinside : (after holdingWriter).pool.procs 0 = some (Prog.inside
      (LockedCall.body (Host.quick id) { object := 0, envelope := startedEnvelope })) := rfl
  have hdropped : ((after releasingWriter).dropped 0).isSome = true := by decide +kernel
  obtain ⟨d, hd⟩ := Option.isSome_iff_exists.1 hdropped
  obtain ⟨hcomes, -, -⟩ := dead_writer_blocks (Host.quick id) emptyWorld holdingWriter 0
  obtain ⟨-, hdrop, -⟩ := dead_writer_blocks (Host.quick id) emptyWorld releasingWriter 0
  obtain ⟨-, -, htake⟩ := dead_writer_blocks (Host.quick id) emptyWorld waitingWriter 0
  exact ⟨(hcomes _ hinside).1, (hcomes _ hinside).2 _, rfl,
    hdrop d.outcome false laterWriter (Worked.inside_of_dropped hd), by decide +kernel,
    htake { object := 0, envelope := startedEnvelope } 0 laterWriter rfl rfl⟩

/-! ### When the log can be written -/

/-- A call of `append` whose envelope leaves its time to the clock and whose files can be
written. -/
structure PlainCall where
  object : ℕ
  envelope : EventEnvelope
  undated : envelope.timestamp = none
  retries : ℕ := 0

/-- The call as one that may be cut short. -/
def PlainCall.call (c : PlainCall) : LockedCall where
  object := c.object
  envelope := c.envelope
  retries := c.retries

/-- The appends of such calls. -/
def plainAppends (H : Host) : Locking LogStmt LogStmt.Answer Exc Json World PlainCall where
  exec := LogStmt.exec H
  body c := c.call.body H
  tries c := c.retries + 1
  late := .lockHeld
  broken := .osError

/-- The processes after the first turns. -/
def plainAt (H : Host) (w : World) (turns : List (LockTurn PlainCall)) (k : ℕ) :
    Writers PlainCall :=
  (plainAppends H).after w turns k

/-- The envelopes that the ended appends have returned. -/
def returned {κ : Type} (ended : List (Ended κ Exc Json)) : List Json :=
  ended.filterMap fun d => d.outcome.toOption

theorem LogSynced.verified {w : World} (h : LogSynced H w) : verifyChain H w.dir = .ok () := by
  refine verifyChain_eq_ok.2 ⟨h.oneChain.chain, fun _ head hhead => ?_⟩
  rw [← LogDir.headHash_of_some hhead]
  exact h.head

/-- An append puts its event at the end of the log; one that raises may have done so. -/
theorem LogSynced.append (hmono : H.ClockMonotone) {w : World} (h : LogSynced H w) (i : ℕ)
    {e : EventEnvelope} (he : e.timestamp = none) :
    Act.wp (Shiroe.append H i e none)
      (fun env w' => LogSynced H w' ∧ w'.dir.iterEvents = w.dir.iterEvents ++ [env])
      (fun _ w' => LogSynced H w' ∧ w.dir.iterEvents <+: w'.dir.iterEvents) w := by
  have hstamp : ∀ {w₁ : World} {head : String}, Loaded H i w w₁ head →
      ((e.scrubbed H).stamp w₁).tick = w.tick + 1 := by
    intro w₁ head hl
    rw [hl.frame]
    simp [EventEnvelope.stamp, EventEnvelope.scrubbed, he, given]
  refine Act.wp_mono (Act.wp_and (append_spec i e none w) (append_frame i e none w)) ?_ ?_
  · rintro env w' ⟨⟨w₁, head, ha⟩, -⟩
    have hv := ha.valid
    rw [ha.env_eq] at hv ⊢
    refine h.sealedDir hmono he ha.loaded hv (by rw [ha.frame]) ?_
    rw [ha.frame]
    exact (hstamp ha.loaded).ge
  · rintro x w' ⟨hh, -, htick, hdb⟩
    rcases hh with ⟨hdir, -⟩ | ⟨w₁, head, hl, hdir, -⟩ | ⟨-, -, -, -, -, -, hcut⟩ |
      ⟨w₁, head, hl, hv, hdir, -, -⟩
    · exact ⟨h.congr hdir htick, by rw [hdir]⟩
    · refine ⟨(hl.logSynced h).congr hdir ?_, ?_⟩
      · rwa [show w₁.tick = w.tick by rw [hl.frame]]
      · rw [LogDir.iterEvents_congr (show w'.dir.files = w.dir.files by rw [hdir, hl.files])]
    · cases hcut
    · have hsealed : LogSynced H { w' with tick := w.tick + 1 } ∧ w'.dir.iterEvents =
          w.dir.iterEvents ++ [(e.scrubbed H).preparedAt H w₁ head] :=
        h.sealedDir hmono he hl hv hdir le_rfl
      obtain ⟨hs, hevents⟩ := hsealed
      refine ⟨⟨hs.unlocked, ⟨hs.oneChain.chain, hs.oneChain.order⟩, hs.head, fun p hp n hn => ?_⟩,
        ⟨_, hevents.symm⟩⟩
      by_cases hlater : w.tick + 1 ≤ n
      · exact hs.dated p hp n hlater
      · -- the line lies in the file of the reading that its own time comes from
        obtain rfl : n = w.tick := by omega
        have hfiles : w'.dir.files = appendLine (currentPath (H.clock w.tick))
            ((e.scrubbed H).preparedAt H w₁ head) w.dir.files := by
          have htime : e.timestampAt H w = H.clock w.tick := by
            rw [EventEnvelope.timestampAt, he]
            rfl
          rw [hdir, ← htime, ← hl.timestampAt e, ← hl.files]
          rfl
        rw [hfiles] at hp
        rcases mem_paths_appendLine.1 hp with rfl | hp
        · exact le_rfl
        · exact h.dated p hp w.tick le_rfl

/-- What serial appends leave: the log has grown at its end, and holds what they returned. -/
theorem LogSynced.serial (hmono : H.ClockMonotone) {s s' : World}
    {ended : List (Ended PlainCall Exc Json)} (h : LogSynced H s)
    (hs : Serial (fun c : PlainCall => c.call.op H) s ended s') :
    LogSynced H s' ∧
      ∃ rest, s'.dir.iterEvents = s.dir.iterEvents ++ rest ∧ (returned ended).Sublist rest := by
  induction ended generalizing s with
  | nil =>
    obtain ⟨-, rfl⟩ := hs
    exact ⟨h, [], (List.append_nil _).symm, List.Sublist.refl _⟩
  | cons d ended ih =>
    obtain ⟨⟨hd, hrun⟩, hfold⟩ := hs
    change Act.outcome (d.call.call.op H) s = d.outcome at hd
    have hwp := h.append hmono d.call.object d.call.undated
    have hstep : LogSynced H ((d.call.call.op H).final s) ∧
        ∃ new, ((d.call.call.op H).final s).dir.iterEvents = s.dir.iterEvents ++ new ∧
          d.outcome.toOption.toList.Sublist new := by
      rw [← hd]
      change Act.wp (d.call.call.op H) _ _ s at hwp
      cases hop : d.call.call.op H s with
      | ok env w' =>
        have hw' := (Act.wp_of_ok hop).1 hwp
        rw [Act.final, Act.outcome, hop]
        exact ⟨hw'.1, [env], hw'.2, List.Sublist.refl _⟩
      | error x w' =>
        obtain ⟨hw', new, hnew⟩ := (Act.wp_of_error hop).1 hwp
        rw [Act.final, Act.outcome, hop]
        exact ⟨hw', new, hnew.symm, List.nil_sublist _⟩
    obtain ⟨hsync, new, hnew, hsub⟩ := hstep
    obtain ⟨hsync', rest, hrest, hsub'⟩ := ih hsync ⟨hrun, hfold⟩
    refine ⟨hsync', new ++ rest, by rw [hrest, hnew, List.append_assoc], ?_⟩
    have hcons : returned (d :: ended) = d.outcome.toOption.toList ++ returned ended := by
      unfold returned
      cases hout : d.outcome.toOption <;> simp [hout]
    rw [hcons]
    exact hsub.append hsub'

/-! ### The moments inside an append -/

/-- The statement writes no line. -/
def LogStmt.WritesNoLine : LogStmt → Prop
  | .appendLine _ _ => False
  | _ => True

/-- Such a statement leaves the files of the log alone. -/
theorem LogStmt.exec_files {m : LogStmt} (hm : m.WritesNoLine) (w : World) :
    (LogStmt.exec H m w).2.dir.files = w.dir.files := by
  cases m with
  | appendLine t env => exact hm.elim
  | readFile path =>
    simp only [LogStmt.exec]
    split <;> rfl
  | mirror env =>
    simp only [LogStmt.exec]
    split <;> rfl
  | isRecovered _ | setRecovered _ | listFiles | readHead | writeHead _ _ | drawId
    | readClock => rfl

open Prog LogStmt

theorem all_reach (cut : Option Cut) (c : Cut) (e : Exc) :
    (LogProg.reach cut c e).All WritesNoLine :=
  All.ite (fun _ => All.raise _) fun _ => All.pure _

theorem all_ofExcept {α : Type} (r : Except Exc α) :
    (Prog.ofExcept r : LogProg α).All WritesNoLine := by
  cases r <;> trivial

theorem all_writeHeadProg (cut : Option Cut) (c : Cut) (head : String) (lastEventId : Json) :
    (writeHeadProg cut c head lastEventId).All WritesNoLine :=
  All.bind (all_reach cut c _) fun _ => All.issue trivial

theorem all_validatedTailProg (acc : String × Json × List Json) (paths : List (List String)) :
    (validatedTailProg H acc paths).All WritesNoLine := by
  induction paths generalizing acc with
  | nil => exact All.pure _
  | cons path paths ih =>
    refine All.bind (All.issue trivial) fun lines => All.bind (all_ofExcept _) fun lines => ?_
    exact All.bind (all_ofExcept _) fun acc' => ih acc'

theorem all_recoverHeadProg (cut : Option Cut) : (recoverHeadProg H cut).All WritesNoLine := by
  refine All.bind (All.issue trivial) fun paths => ?_
  refine All.bind (all_validatedTailProg _ paths) fun r => All.bind (All.issue trivial)
    fun head => ?_
  obtain ⟨tail, tailEventId, hashes⟩ := r
  cases head with
  | none => exact All.ite (fun _ => all_writeHeadProg _ _ _ _) fun _ => All.pure _
  | some h =>
    exact All.ite (fun _ => All.pure _) fun _ =>
      All.ite (fun _ => all_writeHeadProg _ _ _ _) fun _ => All.raise _

theorem all_eventIdProg (e : EventEnvelope) : (eventIdProg e).All WritesNoLine := by
  unfold eventIdProg
  cases given e.eventId with
  | some id => exact All.pure id
  | none => exact All.bind (All.issue trivial) fun _ => All.pure _

theorem all_timestampProg (e : EventEnvelope) : (timestampProg e).All WritesNoLine := by
  unfold timestampProg
  cases given e.timestamp with
  | some t => exact All.pure t
  | none => exact All.issue trivial

theorem all_loadHeadProg (i : ℕ) (cut : Option Cut) :
    (loadHeadProg H i cut).All WritesNoLine := by
  refine All.bind (All.bind (All.issue trivial) fun recovered => All.ite (fun _ => ?_) fun _ =>
    All.pure _)
    fun _ => All.bind (All.issue trivial) fun _ => All.pure _
  exact All.bind (all_recoverHeadProg cut) fun _ => All.issue trivial

/-- The log after `s` is one chain and holds what it held in `s`, in front. -/
def GrownFrom (H : Host) (s w : World) : Prop :=
  OneChain H w ∧ s.dir.iterEvents <+: w.dir.iterEvents

theorem GrownFrom.exec {s w : World} (h : GrownFrom H s w) {m : LogStmt} (hm : m.WritesNoLine) :
    GrownFrom H s (LogStmt.exec H m w).2 :=
  ⟨h.1.congr (exec_files hm w), by rw [LogDir.iterEvents_congr (exec_files hm w)]; exact h.2⟩

theorem GrownFrom.always {s w : World} (h : GrownFrom H s w) {α : Type} {x : LogProg α}
    (hx : x.All WritesNoLine) : Always (LogStmt.exec H) (GrownFrom H s) x w :=
  Always.of_all (P := WritesNoLine) (fun _ _ hm hw => hw.exec hm) hx h

/-- The one line that is written keeps the log one chain. -/
theorem always_storeProg {s w : World} (hw : GrownFrom H s w) {timestamp : String} {env : Json}
    (hash eventId : String) (hline : validateEnvelope true env = .ok () →
      GrownFrom H s { w with dir := w.dir.appendEvent timestamp env }) :
    Always (LogStmt.exec H) (GrownFrom H s) (storeProg none timestamp env hash eventId) w := by
  unfold storeProg
  cases hv : validateEnvelope true env with
  | error x => exact always_raise hw
  | ok u =>
    refine always_stmt hw ((hline hv).always (All.bind (All.pure _) fun _ => ?_))
    refine All.bind (all_writeHeadProg none .head hash _) fun _ => ?_
    refine All.bind (all_reach none .mirror .osError) fun _ => All.bind (All.issue trivial)
      fun r => ?_
    exact All.bind (all_ofExcept r) fun _ => All.pure _

/-- **Every moment of an append finds the log one chain.** -/
theorem LogSynced.always {s : World} (h : LogSynced H s) (c : PlainCall) :
    Always (LogStmt.exec H) (GrownFrom H s) (c.call.body H) s := by
  have hstart : GrownFrom H s s := ⟨h.oneChain, List.prefix_rfl⟩
  refine (hstart.always (all_loadHeadProg c.object none)).bind ?_
  have hload := loadHead_spec (H := H) c.object none s
  unfold Act.wp at hload ⊢
  rw [run_loadHeadProg h.oneChain.order]
  cases hrun : loadHead H c.object none s with
  | error x w => trivial
  | ok head w₁ =>
    rw [hrun] at hload
    have hl : Loaded H c.object s w₁ head := hload
    have hw₁ : GrownFrom H s w₁ :=
      ⟨h.oneChain.congr hl.files, by rw [LogDir.iterEvents_congr hl.files]⟩
    refine (hw₁.always (all_eventIdProg _)).bind ((Act.wp_of_ok (run_eventIdProg _ _)).2 ?_)
    have hw₂ : GrownFrom H s { w₁ with drawn :=
      if (given (c.envelope.scrubbed H).eventId).isSome then
        w₁.drawn else w₁.drawn + 1 } := ⟨hw₁.1.congr rfl, hw₁.2⟩
    refine (hw₂.always (all_timestampProg _)).bind ((Act.wp_of_ok (run_timestampProg _ _)).2 ?_)
    have hw₃ : GrownFrom H s ((c.envelope.scrubbed H).stamp w₁) := ⟨hw₁.1.congr rfl, hw₁.2⟩
    change Always (LogStmt.exec H) (GrownFrom H s) (storeProg none
      ((c.envelope.scrubbed H).timestampAt H w₁) ((c.envelope.scrubbed H).preparedAt H w₁ head) _ _)
      ((c.envelope.scrubbed H).stamp w₁)
    refine always_storeProg hw₃ _ _ fun hv => ?_
    have htime : c.envelope.timestampAt H s = H.clock s.tick := by
      rw [EventEnvelope.timestampAt, c.undated]
      rfl
    have hlast : ∀ p ∈ s.dir.files.map (·.1), p ≤ currentPath (c.envelope.timestampAt H s) := by
      intro p hp
      rw [htime]
      exact h.dated p hp s.tick le_rfl
    obtain ⟨hord, hchain, -⟩ :=
      h.oneChain.lineDir hl (hl.head_eq (Or.inr h.head)) hlast hv
    refine ⟨⟨hchain, hord⟩, [(c.envelope.scrubbed H).preparedAt H w₁ head], ?_⟩
    symm
    change (appendLine (currentPath ((c.envelope.scrubbed H).timestampAt H w₁)) _
      w₁.dir.files).flatMap _ = _
    rw [hl.timestampAt c.envelope, hl.files]
    exact appendLine_last h.oneChain.order hlast

/-- What holds at a moment of such a run: the appends that have ended are calls of the run; the log
is one chain and holds, behind what it held at the start, what these appends have returned, in
order; what a process has been told is in it; and while the lock is free it verifies. -/
structure SoundUpTo (H : Host) (w : World) (turns : List (LockTurn PlainCall))
    (p : Writers PlainCall) : Prop where
  calls : ∀ d ∈ p.ended, LockTurn.call d.process d.call ∈ turns
  chain : IsChain H p.pool.shared.data.dir.iterEvents
  kept : ∃ rest, p.pool.shared.data.dir.iterEvents = w.dir.iterEvents ++ rest ∧
    (returned p.ended).Sublist rest
  told : ∀ i env, p.pool.procs i = some (.ret env) → ∃ d, p.lastOf i = some d ∧
    p.callOf i = some d.call ∧ d.outcome = .ok env ∧ env ∈ p.pool.shared.data.dir.iterEvents
  verified : p.pool.shared.locked = false → verifyChain H p.pool.shared.data.dir = .ok ()

/-- The project in which nothing has happened is in order. -/
theorem logSynced_emptyWorld : LogSynced (Host.quick id) emptyWorld where
  unlocked := rfl
  oneChain := ⟨isChain_nil, List.Pairwise.nil⟩
  head := rfl
  dated := fun _ hp => absurd hp List.not_mem_nil

/-- Two writers append, and the second dies behind the lock after its line. -/
def plainWriters : List (LockTurn PlainCall) :=
  [.call 0 { object := 0, envelope := startedEnvelope, undated := rfl },
    .call 1 { object := 1, envelope := startedEnvelope, undated := rfl }] ++
    List.replicate 12 (.next 0) ++ List.replicate 11 (.next 1) ++ [.die 1]

end Shiroe
