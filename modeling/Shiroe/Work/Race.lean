import Shiroe.Work.Steps
import Shiroe.Work.Creation

/-!
# Writers that race for a node

`set_node_status` and `record_output` check the version that their caller has read, append an
event and fold it.  Any number of writers do this at the same time, each of these three steps
being atomic.

* `NodeWrite.call_eq` : a call is its three steps;
* `race_outcome` : a call is refused exactly if its check comes after the first fold, and ends as
  its append does otherwise.
-/

namespace Shiroe

open Act

variable (H : Host)

/-! ### The steps of a call -/

/-- A write to a node that is guarded by the version of the node. -/
inductive NodeWrite where
  | status (status : NodeStatus)
  | output (output : Json)

namespace NodeWrite

/-- The event of a write. -/
def event (nodeId : String) : NodeWrite → EventEnvelope
  | .status next => stepEvent nodeId next
  | .output json => outputEvent nodeId json

/-- The call of the store. -/
def call (i : ℕ) (nodeId : String) (expectedVersion : ℤ) : NodeWrite → Op Unit
  | .status next => setNodeStatus H i nodeId next.value expectedVersion
  | .output json => recordOutput H i nodeId json expectedVersion

theorem nodeStatus_ofJson (next : NodeStatus) :
    NodeStatus.ofJson (.str next.value) = .ok next := by
  cases next <;> rfl

/-- **A call is its version check, its append and its fold.** -/
theorem call_eq (i : ℕ) (nodeId : String) (expectedVersion : ℤ) (c : NodeWrite) :
    c.call H i nodeId expectedVersion = (do
      checkVersion H nodeId expectedVersion
      let env ← append H i (c.event nodeId) none
      let _ ← onDb (applyEvent H env)) := by
  cases c with
  | status next =>
    simp only [call, setNodeStatus, nodeStatus_ofJson, emitNodeStatus, emit, event, bind_assoc,
      pure_bind, ofExcept_ok_bind]
  | output json => simp only [call, recordOutput, emit, event, bind_assoc, pure_bind]

/-- The fold of a write is never refused: it counts up the version of the row under the id. -/
theorem fold_spec {H : Host} {nodeId t : String} {env : Json} (c : NodeWrite)
    (h : IsEnvOf H (c.event nodeId) t env) (henc : H.encodes nodeId = true) (db : Db) :
    Act.wp (applyEvent H env)
      (fun _ db' => ∃ next output, db' = db.stepped (H.scrub nodeId) next output)
      (fun _ _ => False) db := by
  have hid : Bindable H (.str (H.scrub nodeId)) := H.scrub_encodes nodeId henc
  cases c with
  | status next =>
    have hnext : Bindable H (.str (H.scrub next.value)) := by
      refine H.scrub_encodes _ (H.encodes_ascii _ ?_)
      cases next <;> decide
    have hmem : nodeStatusEvent next ∈ stepEvents := by cases next <;> decide
    have hret : Returns (applyEvent H env) db := by
      rw [applyEvent_step (h.payloadOf (Json.isObj_mkObj _)) hmem h.eventType]
      refine returns_touched (returns_applyStep ?_ ?_)
      · simpa [event, stepEvent, List.lookup] using hnext
      · simpa [event, stepEvent, List.lookup] using hid
    exact wp_mono (wp_and hret (applyEvent_stepEvent h db))
      (fun _ _ h => ⟨_, _, h.2⟩) fun _ _ h => h.1
  | output json =>
    have hmem : "step.completed" ∈ stepEvents := by decide
    have hret : Returns (applyEvent H env) db := by
      rw [applyEvent_step (h.payloadOf (Json.isObj_mkObj _)) hmem h.eventType]
      refine returns_touched (returns_applyStep ?_ ?_)
      · simp [event, outputEvent, List.lookup, Bindable]
      · simpa [event, outputEvent, List.lookup] using hid
    exact wp_mono (wp_and hret (applyEvent_outputEvent h db))
      (fun _ _ h => ⟨_, _, h.2⟩) fun _ _ h => h.1

end NodeWrite

/-- How far a writer has come. -/
inductive Stage where
  | checking
  | appending
  /-- The event is in the log. -/
  | folding (env : Json)
  | returned
  | raised (x : Exc)

/-- The world and how far each writer has come. -/
structure Race (ι : Type) where
  world : World
  stage : ι → Stage

section

variable {ι : Type} [DecidableEq ι] (writes : ι → NodeWrite) (logs : ι → ℕ) (nodeId : String)
  (v : ℤ)

/-- The next step of a writer at a stage, and the stage it comes to. -/
def Stage.next (write : NodeWrite) (log : ℕ) : Stage → Op Stage
  | .checking => do
    checkVersion H nodeId v
    return .appending
  | .appending => return .folding (← append H log (write.event nodeId) none)
  | .folding env => do
    let _ ← onDb (applyEvent H env)
    return .returned
  | s => return s

/-- The writer `k` takes its next step. -/
def turn (s : Race ι) (k : ι) : Race ι :=
  match (s.stage k).next H nodeId v (writes k) (logs k) s.world with
  | .ok stage w => { world := w, stage := Function.update s.stage k stage }
  | .error x w => { world := w, stage := Function.update s.stage k (.raised x) }

/-- All writers have read the version and are about to call. -/
def Race.start (w : World) : Race ι := { world := w, stage := fun _ => .checking }

/-- The writers take turns in the order of a schedule. -/
def race (w : World) (l : List ι) : Race ι := l.foldl (turn H writes logs nodeId v) (.start w)

/-- The first step of `k` comes after a fold. -/
def Late (w : World) (l : List ι) (k : ι) : Prop :=
  ∃ p q, l = p ++ k :: q ∧ k ∉ p ∧ ∃ j, (race H writes logs nodeId v w p).stage j = .returned

/-- How a call ends that is past its check, by what its append returns or raises. -/
def Stage.ended : Except Exc Json → Stage
  | .ok _ => .returned
  | .error x => .raised x

end

/-! ### What a step does -/

section

variable {H} {ι : Type} [DecidableEq ι] {writes : ι → NodeWrite} {logs : ι → ℕ} {nodeId : String}
  {v : ℤ} {s : Race ι} {k : ι}

theorem turn_of_wp {Q : Stage → World → Prop} {E : Exc → World → Prop}
    (h : Act.wp ((s.stage k).next H nodeId v (writes k) (logs k)) Q E s.world) :
    (∃ a w, Q a w ∧ turn H writes logs nodeId v s k = ⟨w, Function.update s.stage k a⟩) ∨
      ∃ x w, E x w ∧
        turn H writes logs nodeId v s k = ⟨w, Function.update s.stage k (.raised x)⟩ := by
  unfold turn
  cases hx : (s.stage k).next H nodeId v (writes k) (logs k) s.world with
  | ok a w => exact Or.inl ⟨a, w, (wp_of_ok hx).1 h, rfl⟩
  | error x w => exact Or.inr ⟨x, w, (wp_of_error hx).1 h, rfl⟩

/-- A check reads the version and changes nothing. -/
theorem turn_checking (h : s.stage k = .checking) {n : ℤ}
    (hn : s.world.db.nodeStateVersion H nodeId = .ok n) :
    turn H writes logs nodeId v s k = ⟨s.world, Function.update s.stage k
      (if n = v then .appending else .raised (.concurrentWorkUpdate nodeId))⟩ := by
  have hwp : Act.wp ((s.stage k).next H nodeId v (writes k) (logs k))
      (fun a w' => a = .appending ∧ w' = s.world ∧ n = v)
      (fun x w' => x = .concurrentWorkUpdate nodeId ∧ w' = s.world ∧ n ≠ v) s.world := by
    rw [h, Stage.next, wp_bind]
    refine wp_mono (checkVersion_spec nodeId v s.world) ?_ ?_
    · rintro - w' ⟨rfl, hv⟩
      rw [hn] at hv
      exact (wp_pure _).2 ⟨rfl, rfl, Except.ok.inj hv⟩
    · rintro x w' ⟨rfl, hx | ⟨v', hv', hne, rfl⟩⟩
      · rw [hn] at hx
        cases hx
      · rw [hn] at hv'
        exact ⟨rfl, rfl, Except.ok.inj hv' ▸ hne⟩
  rcases turn_of_wp hwp with ⟨a, w, ⟨rfl, rfl, heq⟩, hturn⟩ | ⟨x, w, ⟨rfl, rfl, hne⟩, hturn⟩
  · rw [hturn, if_pos heq]
  · rw [hturn, if_neg hne]

variable (H writes logs nodeId v) in
/-- An append returns the event, or raises; the tables stay as they are. -/
theorem turn_appending (h : s.stage k = .appending) :
    ∃ w a, turn H writes logs nodeId v s k = ⟨w, Function.update s.stage k a⟩ ∧
      w.db.exceptMirror = s.world.db.exceptMirror ∧
      ((∃ t env, a = .folding env ∧ IsEnvOf H ((writes k).event nodeId) t env ∧
          outcome (append H (logs k) ((writes k).event nodeId) none) s.world = .ok env) ∨
        ∃ x, a = .raised x ∧
          outcome (append H (logs k) ((writes k).event nodeId) none) s.world = .error x) := by
  cases hx : append H (logs k) ((writes k).event nodeId) none s.world with
  | ok env w =>
    obtain ⟨henv, hdb⟩ := (wp_of_ok hx).1 (append_tables (logs k) ((writes k).event nodeId) s.world)
    refine ⟨w, .folding env, ?_, hdb, Or.inl ⟨_, env, rfl, henv, by rw [outcome, hx]⟩⟩
    rw [turn, h, Stage.next, Act.bind_of_ok hx]
    rfl
  | error x w =>
    have hdb := (wp_of_error hx).1 (append_tables (logs k) ((writes k).event nodeId) s.world)
    refine ⟨w, .raised x, ?_, by rw [hdb], Or.inr ⟨x, rfl, by rw [outcome, hx]⟩⟩
    rw [turn, h, Stage.next, Act.bind_of_error hx]

variable (logs v) in
/-- A fold counts the version up. -/
theorem turn_folding {env : Json} {t : String} (h : s.stage k = .folding env)
    (henv : IsEnvOf H ((writes k).event nodeId) t env) (hid : H.scrub nodeId = nodeId) {n : ℤ}
    (hn : s.world.db.nodeStateVersion H nodeId = .ok n) :
    ∃ w, turn H writes logs nodeId v s k = ⟨w, Function.update s.stage k .returned⟩ ∧
      w.db.nodeStateVersion H nodeId = .ok (n + 1) := by
  have hwp : Act.wp ((s.stage k).next H nodeId v (writes k) (logs k))
      (fun a w => a = .returned ∧ w.db.nodeStateVersion H nodeId = .ok (n + 1))
      (fun _ _ => False) s.world := by
    rw [h, Stage.next, wp_bind, wp_onDb]
    refine wp_mono ((writes k).fold_spec henv (encodes_of_nodeStateVersion hn) s.world.db) ?_
      fun _ _ h => h
    rintro - db ⟨next, output, rfl⟩
    rw [hid, wp_pure]
    exact ⟨rfl, nodeStateVersion_stepped next output hn⟩
  rcases turn_of_wp hwp with ⟨a, w, ⟨rfl, hw⟩, hturn⟩ | ⟨x, w, hfalse, -⟩
  · exact ⟨w, hturn, hw⟩
  · exact hfalse.elim

/-- A call that has ended does nothing. -/
theorem turn_ended (h : s.stage k = .returned ∨ ∃ x, s.stage k = .raised x) :
    turn H writes logs nodeId v s k = s := by
  have hpure : (s.stage k).next H nodeId v (writes k) (logs k) = pure (s.stage k) := by
    rcases h with h | ⟨x, h⟩ <;> rw [h] <;> rfl
  rw [turn, hpure]
  exact congrArg (Race.mk s.world) (Function.update_eq_self k s.stage)

/-! ### Races -/

/-- While the writers run: no fold has been missed, and each event to be folded is the writer's. -/
structure Racing (H : Host) (writes : ι → NodeWrite) (nodeId : String) (v : ℤ) (s : Race ι) :
    Prop where
  version : ∃ n, s.world.db.nodeStateVersion H nodeId = .ok n ∧
    ((n = v ∧ ∀ j, s.stage j ≠ .returned) ∨ (v < n ∧ ∃ j, s.stage j = .returned))
  folding : ∀ j env, s.stage j = .folding env → ∃ t, IsEnvOf H ((writes j).event nodeId) t env

/-- A version that is known to be the one of another world. -/
theorem Racing.congr {w : World} {a : Stage} (h : Racing H writes nodeId v s)
    (hnodes : w.db.workNodes = s.world.db.workNodes) (ha : a ≠ .returned)
    (hk : s.stage k ≠ .returned)
    (hfold : ∀ env, a = .folding env → ∃ t, IsEnvOf H ((writes k).event nodeId) t env) :
    Racing H writes nodeId v ⟨w, Function.update s.stage k a⟩ := by
  obtain ⟨n, hn, hcase⟩ := h.version
  refine ⟨⟨n, ?_, ?_⟩, fun j env hj => ?_⟩
  · rw [← hn]
    exact nodeStateVersion_congr (by rw [Db.node?, Db.node?, hnodes])
  · rcases hcase with ⟨heq, hno⟩ | ⟨hlt, j, hj⟩
    · refine Or.inl ⟨heq, fun j => ?_⟩
      change Function.update s.stage k a j ≠ .returned
      by_cases hjk : j = k
      · rw [hjk, Function.update_self]
        exact ha
      · rw [Function.update_of_ne hjk]
        exact hno j
    · refine Or.inr ⟨hlt, j, ?_⟩
      have hjk : j ≠ k := fun heq => hk (heq ▸ hj)
      exact (Function.update_of_ne hjk a s.stage).trans hj
  · change Function.update s.stage k a j = .folding env at hj
    by_cases hjk : j = k
    · subst hjk
      rw [Function.update_self] at hj
      exact hfold env hj
    · rw [Function.update_of_ne hjk] at hj
      exact h.folding j env hj

theorem Racing.turn (h : Racing H writes nodeId v s) (hid : H.scrub nodeId = nodeId) (k : ι) :
    Racing H writes nodeId v (turn H writes logs nodeId v s k) := by
  obtain ⟨n, hn, hcase⟩ := h.version
  cases hk : s.stage k with
  | checking =>
    rw [turn_checking hk hn]
    refine h.congr rfl ?_ (by rw [hk]; exact Stage.noConfusion) ?_
    · split_ifs <;> exact Stage.noConfusion
    · intro env henv
      split_ifs at henv
  | appending =>
    obtain ⟨w, a, hturn, hdb, ha⟩ := turn_appending H writes logs nodeId v hk
    rw [hturn]
    have hnodes : w.db.workNodes = s.world.db.workNodes := (congrArg Db.workNodes hdb :)
    refine h.congr hnodes ?_ (by rw [hk]; exact Stage.noConfusion) ?_
    · rcases ha with ⟨t, env, rfl, -⟩ | ⟨x, rfl, -⟩ <;> exact Stage.noConfusion
    · rintro env rfl
      rcases ha with ⟨t, env', heq, henv, -⟩ | ⟨x, heq, -⟩
      · cases heq
        exact ⟨t, henv⟩
      · cases heq
  | folding env =>
    obtain ⟨t, henv⟩ := h.folding k env hk
    obtain ⟨w, hturn, hw⟩ := turn_folding logs v hk henv hid hn
    rw [hturn]
    refine ⟨⟨n + 1, hw, Or.inr ⟨?_, k, Function.update_self ..⟩⟩, fun j env' hj => ?_⟩
    · rcases hcase with ⟨heq, -⟩ | ⟨hlt, -⟩ <;> omega
    · change Function.update s.stage k .returned j = .folding env' at hj
      have hjk : j ≠ k := by
        rintro rfl
        rw [Function.update_self] at hj
        cases hj
      rw [Function.update_of_ne hjk] at hj
      exact h.folding j env' hj
  | returned => rw [turn_ended (Or.inl hk)]; exact h
  | raised x => rw [turn_ended (Or.inr ⟨x, hk⟩)]; exact h

theorem stage_update_self (w : World) (a : Stage) :
    (⟨w, Function.update s.stage k a⟩ : Race ι).stage k = a := Function.update_self ..

theorem turn_stage_of_ne {j : ι} (h : j ≠ k) :
    (Shiroe.turn H writes logs nodeId v s k).stage j = s.stage j := by
  unfold Shiroe.turn
  split <;> exact Function.update_of_ne h ..

variable {w : World} {l : List ι}

theorem race_concat (l : List ι) (k : ι) :
    race H writes logs nodeId v w (l ++ [k]) =
      Shiroe.turn H writes logs nodeId v (race H writes logs nodeId v w l) k := by
  rw [race, race, List.foldl_append]
  rfl

variable (logs) in
theorem racing_race (hv : w.db.nodeStateVersion H nodeId = .ok v) (hid : H.scrub nodeId = nodeId)
    (l : List ι) : Racing H writes nodeId v (race H writes logs nodeId v w l) := by
  induction l using List.reverseRecOn with
  | nil =>
    refine ⟨⟨v, hv, Or.inl ⟨rfl, fun j => Stage.noConfusion⟩⟩, fun j env h => ?_⟩
    cases h
  | append_singleton l k ih =>
    rw [race_concat]
    exact ih.turn hid k

/-- A writer that has not had its turn is still about to check. -/
theorem race_checking (h : k ∉ l) : (race H writes logs nodeId v w l).stage k = .checking := by
  induction l using List.reverseRecOn with
  | nil => rfl
  | append_singleton l j ih =>
    simp only [List.mem_append, List.mem_singleton, not_or] at h
    rw [race_concat, turn_stage_of_ne h.2, ih h.1]

theorem race_append (l q : List ι) :
    race H writes logs nodeId v w (l ++ q) =
      q.foldl (Shiroe.turn H writes logs nodeId v) (race H writes logs nodeId v w l) := by
  rw [race, race, List.foldl_append]

/-- The turns of the others leave a call where it is. -/
theorem stage_foldl_of_notMem {q : List ι} (h : k ∉ q) (s : Race ι) :
    (q.foldl (Shiroe.turn H writes logs nodeId v) s).stage k = s.stage k := by
  induction q generalizing s with
  | nil => rfl
  | cons j q ih =>
    simp only [List.mem_cons, not_or] at h
    rw [List.foldl_cons, ih h.2, turn_stage_of_ne h.1]

/-- A call that has ended stays so. -/
theorem stage_foldl_ended (q : List ι) {s : Race ι}
    (h : s.stage k = .returned ∨ ∃ x, s.stage k = .raised x) :
    (q.foldl (Shiroe.turn H writes logs nodeId v) s).stage k = s.stage k := by
  induction q generalizing s with
  | nil => rfl
  | cons j q ih =>
    rw [List.foldl_cons]
    by_cases hj : j = k
    · rw [hj, turn_ended h]
      exact ih h
    · have hstage : (Shiroe.turn H writes logs nodeId v s j).stage k = s.stage k :=
        turn_stage_of_ne (Ne.symm hj)
      rw [ih (by rwa [hstage]), hstage]

section

variable (hv : w.db.nodeStateVersion H nodeId = .ok v) (hid : H.scrub nodeId = nodeId)
  {p : List ι} (hp : k ∉ p) (q : List ι)

include hv hid hp

/-- A call that finds another version is refused for good. -/
theorem race_late (hj : ∃ j, (race H writes logs nodeId v w p).stage j = .returned) :
    (race H writes logs nodeId v w (p ++ k :: q)).stage k =
      .raised (.concurrentWorkUpdate nodeId) := by
  obtain ⟨n, hn, ⟨-, hno⟩ | ⟨hlt, -⟩⟩ := (racing_race logs hv hid p).version
  · exact absurd hj (not_exists.2 hno)
  have hcheck : (turn H writes logs nodeId v (race H writes logs nodeId v w p) k).stage k =
      .raised (.concurrentWorkUpdate nodeId) := by
    rw [turn_checking (race_checking hp) hn, stage_update_self, if_neg (by omega)]
  rw [race_append, List.foldl_cons, stage_foldl_ended q (Or.inr ⟨_, hcheck⟩), hcheck]

/-- A call that finds the version it was given goes on to its append. -/
theorem race_early (hj : ¬ ∃ j, (race H writes logs nodeId v w p).stage j = .returned)
    {a : List ι} (ha : k ∉ a) :
    (race H writes logs nodeId v w (p ++ k :: a)).stage k = .appending := by
  obtain ⟨n, hn, ⟨hnv, -⟩ | ⟨-, hex⟩⟩ := (racing_race logs hv hid p).version
  · rw [race_append, List.foldl_cons, stage_foldl_of_notMem ha,
      turn_checking (race_checking hp) hn, stage_update_self, if_pos hnv]
  · exact absurd hex hj

omit hp in
/-- From its append on a call ends as the append does. -/
theorem race_appended {l q : List ι} (hl : (race H writes logs nodeId v w l).stage k = .appending)
    (hq : k ∈ q) :
    (race H writes logs nodeId v w (l ++ k :: q)).stage k =
      .ended (outcome (append H (logs k) ((writes k).event nodeId) none)
        (race H writes logs nodeId v w l).world) := by
  obtain ⟨w₁, a, hturn, -, ⟨t, env, rfl, -, happend⟩ | ⟨x, rfl, happend⟩⟩ :=
    turn_appending H writes logs nodeId v hl
  · -- the next turn of the call is its fold
    obtain ⟨b, c, rfl, hb⟩ := List.eq_append_cons_of_mem hq
    have hfold : (race H writes logs nodeId v w (l ++ k :: b)).stage k = .folding env := by
      rw [race_append, List.foldl_cons, stage_foldl_of_notMem hb, hturn, stage_update_self]
    have hr : Racing H writes nodeId v _ := racing_race logs hv hid (l ++ k :: b)
    obtain ⟨t', henv⟩ := hr.folding k env hfold
    obtain ⟨n, hn, -⟩ := hr.version
    obtain ⟨w₂, hturn₂, -⟩ := turn_folding logs v hfold henv hid hn
    have hret : (turn H writes logs nodeId v
        (race H writes logs nodeId v w (l ++ k :: b)) k).stage k
        = .returned := by
      rw [hturn₂, stage_update_self]
    rw [← List.cons_append, ← List.append_assoc, race_append, List.foldl_cons,
      stage_foldl_ended c (Or.inl hret), hret, happend]
    rfl
  · have hraised : (turn H writes logs nodeId v (race H writes logs nodeId v w l) k).stage k =
        .raised x := by
      rw [hturn, stage_update_self]
    rw [race_append, List.foldl_cons, stage_foldl_ended q (Or.inr ⟨x, hraised⟩), hraised, happend]
    rfl

end

/-- The part of a schedule before the first turn of `k`. -/
theorem eq_of_append_cons {p a q r : List ι} (hp : k ∉ p) (ha : k ∉ a)
    (h : p ++ k :: q = a ++ k :: r) : p = a := by
  have hbefore : ∀ {p q : List ι}, k ∉ p → (p ++ k :: q).takeWhile (· ≠ k) = p := by
    intro p q hp
    have hne : ∀ j ∈ p, decide (j ≠ k) = true := by
      intro j hj
      exact decide_eq_true fun heq => hp (heq ▸ hj)
    rw [List.takeWhile_append_of_pos hne, List.takeWhile_cons_of_neg (by simp), List.append_nil]
  rw [← hbefore (q := q) hp, h, hbefore ha]

omit [DecidableEq ι] in
/-- The first turn of a schedule. -/
theorem eq_nil_of_cons {p q : List ι} (hp : k ∉ p) (h : k :: l = p ++ q) : p = [] := by
  cases p with
  | nil => rfl
  | cons i p =>
    obtain ⟨rfl, -⟩ := List.cons_eq_cons.1 h
    exact absurd List.mem_cons_self hp

/-- **The outcome of a race**, for any number of writers and any schedule in which `k` takes its
three steps.  A call whose check comes after the first fold raises `ConcurrentWorkUpdate` and
changes nothing; every other call appends at its second turn, and it returns if that append
returns, and raises what that append raises. -/
theorem race_outcome (hv : w.db.nodeStateVersion H nodeId = .ok v) (hid : H.scrub nodeId = nodeId)
    (hk : 3 ≤ l.count k) :
    (Late H writes logs nodeId v w l k →
      (race H writes logs nodeId v w l).stage k = .raised (.concurrentWorkUpdate nodeId) ∧
        ∀ p q, l = p ++ k :: q →
          (race H writes logs nodeId v w (p ++ [k])).world =
            (race H writes logs nodeId v w p).world) ∧
    (¬ Late H writes logs nodeId v w l k →
      ∃ p a b, l = p ++ k :: a ++ k :: b ∧ k ∉ p ∧ k ∉ a ∧
        (race H writes logs nodeId v w l).stage k =
          .ended (outcome (append H (logs k) ((writes k).event nodeId) none)
            (race H writes logs nodeId v w (p ++ k :: a)).world)) := by
  refine ⟨?_, fun hlate => ?_⟩
  · rintro ⟨p, q, rfl, hp, hj⟩
    refine ⟨race_late hv hid hp q hj, fun p' q' hpq => ?_⟩
    rw [race_concat]
    by_cases hp' : k ∈ p'
    · -- not the first turn of the call, which has ended by then
      obtain ⟨a, b, rfl, ha⟩ := List.eq_append_cons_of_mem hp'
      rw [List.append_assoc, List.cons_append] at hpq
      obtain rfl := eq_of_append_cons hp ha hpq
      rw [turn_ended (Or.inr ⟨_, race_late hv hid hp b hj⟩)]
    · obtain ⟨n, hn, -⟩ := (racing_race logs hv hid p').version
      rw [turn_checking (race_checking hp') hn]
  · obtain ⟨p, q, rfl, hp⟩ := List.eq_append_cons_of_mem
      (List.count_pos_iff.1 (by omega : 0 < l.count k))
    have hj : ¬ ∃ j, (race H writes logs nodeId v w p).stage j = .returned :=
      fun hj => hlate ⟨p, q, rfl, hp, hj⟩
    rw [List.count_append, List.count_cons_self, List.count_eq_zero_of_not_mem hp] at hk
    obtain ⟨a, b, rfl, ha⟩ := List.eq_append_cons_of_mem
      (List.count_pos_iff.1 (by omega : 0 < q.count k))
    rw [List.count_append, List.count_cons_self, List.count_eq_zero_of_not_mem ha] at hk
    have hb : k ∈ b := List.count_pos_iff.1 (by omega)
    refine ⟨p, a, b, by simp, hp, ha, ?_⟩
    rw [← race_appended hv hid (race_early hv hid hp hj ha) hb, List.append_assoc, List.cons_append]

end

/-! ### Two writers -/

/-- A world that holds a plan of one node. -/
def planWorld (H : Host) (nodeId : String) : World :=
  Act.final (createGraph H 0 (planGraph "g" [nodeId] [])) emptyWorld

/-- One writer completes the node, the other one fails it. -/
def twoWrites : Bool → NodeWrite
  | true => .status .completed
  | false => .status .failed

/-- The call has ended without an exception. -/
def Stage.isReturned : Stage → Bool
  | .returned => true
  | _ => false

theorem Stage.eq_returned {s : Stage} (h : s.isReturned = true) : s = .returned := by
  cases s with
  | returned => rfl
  | _ => cases h

/-- Two writers that race for a node at version 0. -/
def twoRace (H : Host) (created nodeId : String) (l : List Bool) : Race Bool :=
  race H twoWrites (fun k => if k then 1 else 2) nodeId 0 (planWorld H created) l

/-- A redaction that maps the id of a node to another one each time. -/
def movingScrub (s : String) : String := if s = "x" then "a" else if s = "a" then "b" else s

/-- The version of the only node of a plan, under an id that the redaction keeps or moves. -/
theorem planWorld_version :
    (planWorld (Host.quick id) "a").db.nodeStateVersion (Host.quick id) "a" = .ok 0 ∧
      (planWorld (Host.quick movingScrub) "x").db.nodeStateVersion (Host.quick movingScrub) "a" =
        .ok 0 := by
  decide +kernel

/-- The first of the two writers has returned after its three turns, and its append in the second
one has returned an event. -/
theorem twoRace_first :
    ((twoRace (Host.quick id) "a" "a" [true, true, true]).stage true).isReturned = true ∧
      (Act.result? (append (Host.quick id) 1 ((twoWrites true).event "a") none)
        (twoRace (Host.quick id) "a" "a" [true]).world).isSome = true := by
  decide +kernel

/-- Two writers that call one after the other: the first one returns, as its append does, and the
second one is refused. -/
theorem race_outcome_two :
    (twoRace (Host.quick id) "a" "a" [true, true, true, false, false, false]).stage true =
        .returned ∧
      (twoRace (Host.quick id) "a" "a" [true, true, true, false, false, false]).stage false =
        .raised (.concurrentWorkUpdate "a") ∧
      (twoRace (Host.quick id) "a" "a" [true, true, true, false]).world =
        (twoRace (Host.quick id) "a" "a" [true, true, true]).world := by
  have hlate := (race_outcome (H := Host.quick id) (k := false)
    (l := [true, true, true, false, false, false]) planWorld_version.1 rfl (by decide)).1
    ⟨[true, true, true], [false, false], rfl, by decide, true, Stage.eq_returned twoRace_first.1⟩
  refine ⟨?_, hlate.1, hlate.2 [true, true, true] [false, false] rfl⟩
  have hearly : ¬ Late (Host.quick id) twoWrites (fun k => if k then 1 else 2) "a" 0
      (planWorld (Host.quick id) "a") [true, true, true, false, false, false] true := by
    rintro ⟨p, q, hl, hp, j, hj⟩
    -- nobody has had a turn before the first one
    obtain rfl := eq_nil_of_cons hp hl
    cases hj
  obtain ⟨p, a, b, hl, hp, ha, hend⟩ := (race_outcome planWorld_version.1 rfl (by decide)).2 hearly
  obtain rfl := eq_nil_of_cons hp (hl.trans (List.append_assoc ..))
  obtain rfl := eq_nil_of_cons ha (List.cons_inj_right _ |>.1 hl)
  obtain ⟨env, w', happend⟩ := exists_ok twoRace_first.2
  have hout : outcome (append (Host.quick id) 1 ((twoWrites true).event "a") none)
      (twoRace (Host.quick id) "a" "a" [true]).world = .ok env := by
    rw [outcome, happend]
  exact hend.trans (congrArg Stage.ended hout)

theorem twoRace_interleaved (k : Bool) :
    ((twoRace (Host.quick id) "a" "a" [true, false, true, true, false, false]).stage k).isReturned =
      true := by
  revert k
  decide +kernel

theorem twoRace_moved (k : Bool) :
    ((twoRace (Host.quick movingScrub) "x" "a" [true, true, true, false, false, false]).stage
      k).isReturned = true := by
  revert k
  decide +kernel

/-- **Two winners**: writers that read the same version both succeed, each having taken its three
steps, where both checks come before both folds; and one after the other, where redaction moves
the id of the node. -/
theorem two_winners :
    ((planWorld (Host.quick id) "a").db.nodeStateVersion (Host.quick id) "a" = .ok 0 ∧
      ¬ ∃! k, (twoRace (Host.quick id) "a" "a" [true, false, true, true, false, false]).stage k =
        .returned) ∧
    (planWorld (Host.quick movingScrub) "x").db.nodeStateVersion (Host.quick movingScrub) "a" =
        .ok 0 ∧
      ¬ ∃! k, (twoRace (Host.quick movingScrub) "x" "a"
        [true, true, true, false, false, false]).stage k = .returned := by
  have hno : ∀ s : Race Bool, (∀ k, (s.stage k).isReturned = true) →
      ¬ ∃! k, s.stage k = .returned := by
    rintro s hs ⟨k, -, honly⟩
    have h := honly (!k) (Stage.eq_returned (hs (!k)))
    cases k <;> cases h
  exact ⟨⟨planWorld_version.1, hno _ twoRace_interleaved⟩, planWorld_version.2,
    hno _ twoRace_moved⟩

end Shiroe
