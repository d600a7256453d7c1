import Shiroe.Execution.Calls
import Shiroe.Work.Steps

/-!
# The rows of attempts

An attempt that starts puts a row into the table, or starts the row under its id again.  An attempt
that ends updates the row under its id.

* `recordAttempt_spec`, `finishAttempt_spec` : what the two leave in the table of the attempts.
-/

namespace Shiroe

open Act

variable {H : Host}

/-- The row `a` after the event of `r`, which has its id. -/
def AttemptRow.over (r a : AttemptRow) : AttemptRow :=
  { a with
    state := r.state
    inputDigest := r.inputDigest
    outputDigest := r.outputDigest
    error := r.error
    usageJson := r.usageJson
    endedAt := r.endedAt.coalesce a.endedAt }

/-- The rows after the event of `r`. -/
def AttemptRow.putIn (r : AttemptRow) (rows : List AttemptRow) : List AttemptRow :=
  if rows.any r.conflicts then Table.update r.conflicts r.over rows else rows ++ [r]

/-- The NOT NULL columns of a row hold values. -/
structure AttemptRow.Filled (r : AttemptRow) : Prop where
  graphId : r.graphId ≠ .null
  nodeId : r.nodeId ≠ .null
  attempt : r.attempt ≠ .null
  state : r.state ≠ .null

/-- `r` is the row that the event of an attempt stands for. -/
structure AttemptRow.IsOf (H : Host) (env p : Json) (r : AttemptRow) : Prop where
  id : bindText H (p.get "id") = .ok r.id
  nodeId : bindText H (p.get "node_id") = .ok r.nodeId
  attempt : ∃ n, pyInt (p.get "attempt") = .ok n ∧ bindInt H (.int n) = .ok r.attempt
  state : bindText H (p.get "state") = .ok r.state
  endedAt : bindText H (if p.get "state" = .str "running" then .null else eventTime env p) =
    .ok r.endedAt

theorem requireNotNull_ok {table : String} {columns : List (String × SqlVal)}
    (h : requireNotNull table columns = .ok ()) {c : String × SqlVal} (hc : c ∈ columns) :
    c.2 ≠ .null := by
  intro hnull
  unfold requireNotNull at h
  split at h
  · cases h
  · rename_i hnone
    have := List.find?_eq_none.1 hnone c hc
    rw [hnull] at this
    exact this rfl

theorem wp_upsertAttempt (r : AttemptRow) (db : Db) :
    Act.wp (upsertAttempt r)
      (fun _ db' => r.Filled ∧ db' = { db with workAttempts := r.putIn db.workAttempts })
      (fun _ db' => db' = db) db := by
  rw [upsertAttempt, wp_exec]
  split
  · rename_i hcheck
    obtain ⟨u, hnull, -⟩ := except_bind_eq_ok.1 hcheck
    refine ⟨⟨?_, ?_, ?_, ?_⟩, ?_⟩
    · exact requireNotNull_ok hnull (c := ("graph_id", r.graphId)) (by simp)
    · exact requireNotNull_ok hnull (c := ("node_id", r.nodeId)) (by simp)
    · exact requireNotNull_ok hnull (c := ("attempt", r.attempt)) (by simp)
    · exact requireNotNull_ok hnull (c := ("state", r.state)) (by simp)
    · unfold AttemptRow.putIn
      by_cases h : db.workAttempts.any r.conflicts = true
      · rw [if_pos h, if_pos h]
        rfl
      · rw [if_neg h, if_neg h]
  · rfl

theorem applyAttempt_spec {env p : Json}
    (hnull : anyNone p ["id", "graph_id", "node_id", "attempt", "state"] = false) (db : Db) :
    Act.wp (applyAttempt H env p)
      (fun _ db' => ∃ r : AttemptRow, r.IsOf H env p ∧ r.Filled ∧
        db' = { db with workAttempts := r.putIn db.workAttempts })
      (fun _ db' => db' = db) db := by
  rw [applyAttempt, if_neg (by rw [hnull]; exact Bool.false_ne_true)]
  dsimp only
  rw [wp_bind, wp_ofExcept]
  cases hn : pyInt (p.get "attempt") with
  | error x => rfl
  | ok n =>
    dsimp only
    rw [wp_bind]
    refine wp_text_any (fun _ => rfl) fun id hid => ?_
    rw [wp_bind]
    refine wp_text_any (fun _ => rfl) fun graphId _ => ?_
    rw [wp_bind]
    refine wp_text_any (fun _ => rfl) fun nodeId hnode => ?_
    rw [wp_bind, integer, wp_ofExcept]
    cases hattempt : bindInt H (.int n) with
    | error x => rfl
    | ok attempt =>
      dsimp only
      rw [wp_bind]
      refine wp_text_any (fun _ => rfl) fun capabilityId _ => ?_
      rw [wp_bind]
      refine wp_text_any (fun _ => rfl) fun state hstate => ?_
      rw [wp_bind]
      refine wp_text_any (fun _ => rfl) fun inputDigest _ => ?_
      rw [wp_bind]
      refine wp_text_any (fun _ => rfl) fun outputDigest _ => ?_
      rw [wp_bind]
      refine wp_text_any (fun _ => rfl) fun error _ => ?_
      rw [wp_bind]
      have husage : ∀ {Q : SqlVal → Db → Prop}, (∀ v, Q v db) →
          Act.wp (usageText H (p.get "usage")) Q (fun _ db' => db' = db) db := by
        intro Q hQ
        unfold usageText
        split
        · exact wp_text_any (fun _ => rfl) fun v _ => hQ v
        · exact (wp_pure _).2 (hQ _)
      refine husage fun usageJson => ?_
      rw [wp_bind]
      refine wp_text_any (fun _ => rfl) fun startedAt _ => ?_
      rw [wp_bind]
      refine wp_text_any (fun _ => rfl) fun endedAt hended => ?_
      rw [wp_bind]
      refine wp_mono (wp_upsertAttempt _ db) (fun _ db' h => ?_) fun _ _ h => h
      exact (wp_pure _).2 ⟨_, ⟨hid, hnode, ⟨n, hn, hattempt⟩, hstate, hended⟩, h.1, h.2⟩

/-! ### The two events -/

theorem bindInt_int_eq_ok {n : ℤ} {v : SqlVal} (h : bindInt H (.int n) = .ok v) : v = .int n := by
  rw [bindInt, bindParam] at h
  split_ifs at h
  · exact (Except.ok.inj h).symm
  · cases h

/-- The row of an attempt that starts. -/
structure AttemptRow.Starts (H : Host) (attemptId nodeId : String) (attempt : ℤ) (r : AttemptRow) :
    Prop where
  id : r.id = .text (H.scrub attemptId)
  nodeId : r.nodeId = .text (H.scrub nodeId)
  attempt : r.attempt = .int attempt
  filled : r.Filled

/-- The row of an attempt that ends. -/
structure AttemptRow.Finishes (H : Host) (attemptId : String) (e : AttemptEnd) (r : AttemptRow) :
    Prop where
  id : r.id = .text (H.scrub attemptId)
  state : r.state = .text (H.scrub e.value)
  endedAt : H.scrub e.value ≠ "running" → r.endedAt ≠ .null
  filled : r.Filled

theorem applyEvent_started {attemptId graphId nodeId capabilityId when t : String} {attempt : ℤ}
    {env : Json}
    (h : IsEnvOf H
      (startedEvent attemptId graphId nodeId attempt capabilityId "running" when) t env)
    (db : Db) :
    Act.wp (applyEvent H env)
      (fun _ db' => ∃ r : AttemptRow, r.Starts H attemptId nodeId attempt ∧
        db' = { db with workAttempts := r.putIn db.workAttempts })
      (fun _ db' => db' = db) db := by
  rw [applyEvent_attempt (h.payloadOf (Json.isObj_mkObj _))
    (by decide : "attempt.started" ∈ attemptEvents) h.eventType, touched, wp_map]
  generalize hp : (startedEvent attemptId graphId nodeId attempt capabilityId "running"
    when).payload.mapStr H.scrub = p
  have hget : p.get "id" = .str (H.scrub attemptId) ∧ p.get "graph_id" = .str (H.scrub graphId) ∧
      p.get "node_id" = .str (H.scrub nodeId) ∧ p.get "attempt" = .int attempt ∧
      p.get "state" = .str (H.scrub "running") := by
    simp [← hp, startedEvent, List.lookup]
  obtain ⟨hid, hgraph, hnode, hattempt, hstate⟩ := hget
  have hnull : anyNone p ["id", "graph_id", "node_id", "attempt", "state"] = false := by
    simp [anyNone, hid, hgraph, hnode, hattempt, hstate, Json.isNull]
  refine wp_mono (applyAttempt_spec hnull db) (fun _ db' h => ?_) fun _ _ h => h
  obtain ⟨r, hr, hfilled, hdb⟩ := h
  refine ⟨r, ⟨bindText_str_eq_ok (hid ▸ hr.id), bindText_str_eq_ok (hnode ▸ hr.nodeId), ?_,
    hfilled⟩,
    hdb⟩
  obtain ⟨n, hn, hbind⟩ := hr.attempt
  rw [hattempt] at hn
  cases Except.ok.inj hn
  exact bindInt_int_eq_ok hbind

theorem applyEvent_finished {attemptId when t : String} {row : AttemptRow} {state : AttemptEnd}
    {error : Option String} {usage env : Json} (hfilled : row.Filled)
    (h : IsEnvOf H (finishedEvent attemptId row state error usage when) t env) (db : Db) :
    Act.wp (applyEvent H env)
      (fun _ db' => ∃ r : AttemptRow, r.Finishes H attemptId state ∧
        db' = { db with workAttempts := r.putIn db.workAttempts })
      (fun _ db' => db' = db) db := by
  have hmem : ∀ state : AttemptEnd, state.eventType ∈ attemptEvents := by
    intro state
    cases state <;> decide
  rw [applyEvent_attempt (h.payloadOf (Json.isObj_mkObj _)) (hmem state) h.eventType, touched,
    wp_map]
  generalize hp : (finishedEvent attemptId row state error usage when).payload.mapStr H.scrub = p
  have hget : p.get "id" = .str (H.scrub attemptId) ∧
      p.get "graph_id" = row.graphId.read.mapStr H.scrub ∧
      p.get "node_id" = row.nodeId.read.mapStr H.scrub ∧
      p.get "attempt" = row.attempt.read.mapStr H.scrub ∧
      p.get "state" = .str (H.scrub state.value) ∧ p.get "event_time" = .str (H.scrub when) := by
    simp [← hp, finishedEvent, List.lookup]
  obtain ⟨hid, hgraph, hnode, hattempt, hstate, htime⟩ := hget
  have hread : ∀ v : SqlVal, v ≠ .null → (v.read.mapStr H.scrub).isNull = false := by
    intro v hv
    rw [Json.isNull_mapStr]
    cases v with
    | null => exact absurd rfl hv
    | _ => rfl
  have hstr : ∀ s, (Json.str s).isNull = false := fun _ => rfl
  have hnull : anyNone p ["id", "graph_id", "node_id", "attempt", "state"] = false := by
    simp [anyNone, hid, hgraph, hnode, hattempt, hstate, hread _ hfilled.graphId,
      hread _ hfilled.nodeId, hread _ hfilled.attempt, hstr]
  refine wp_mono (applyAttempt_spec hnull db) (fun _ db' h => ?_) fun _ _ h => h
  obtain ⟨r, hr, hfilled, hdb⟩ := h
  refine ⟨r, ⟨bindText_str_eq_ok (hid ▸ hr.id), bindText_str_eq_ok (hstate ▸ hr.state),
    fun hne => ?_, hfilled⟩, hdb⟩
  have hended := hr.endedAt
  have htext : ∃ s, eventTime env p = .str s := by
    unfold eventTime Json.orElse
    rw [htime, h.timestamp]
    split <;> exact ⟨_, rfl⟩
  obtain ⟨s, hs⟩ := htext
  rw [hstate, if_neg (by simpa using hne), hs] at hended
  rw [bindText_str_eq_ok hended]
  exact SqlVal.noConfusion

/-! ### The two calls -/

/-- From `w` to `w'` the row `r` is put into the table of the attempts, no retry policy changes, and
no id is given back. -/
structure Put (r : AttemptRow) (w w' : World) : Prop where
  rows : w'.db.workAttempts = r.putIn w.db.workAttempts
  policies : w'.db.workNodes.map NodeRow.policy = w.db.workNodes.map NodeRow.policy
  drawn : w.drawn ≤ w'.drawn

theorem Aside.put {r : AttemptRow} {w₁ w₂ w₃ : World} (h : Aside w₁ w₂) (h' : Put r w₂ w₃) :
    Put r w₁ w₃ := by
  obtain ⟨hrows, hpolicies⟩ := Prod.mk.inj h.trials
  exact ⟨by rw [h'.rows, hrows], h'.policies.trans hpolicies, h.drawn.trans h'.drawn⟩

theorem emit_drawn (i : ℕ) (e : EventEnvelope) (n : ℕ) :
    Keeps (fun w : World => n ≤ w.drawn) (emit H i e) :=
  Keeps.bind (append_drawn i e none n) fun _ => Keeps.bind (onDb_drawn _ n) fun _ => Keeps.pure _

theorem emit_put {e : EventEnvelope} {R : AttemptRow → Prop} {w : World}
    (hfold : ∀ env, IsEnvOf H e (e.timestampAt H w) env → ∀ db,
      Act.wp (applyEvent H env)
        (fun _ db' => ∃ r, R r ∧ db' = { db with workAttempts := r.putIn db.workAttempts })
        (fun _ db' => db' = db) db) (i : ℕ) :
    Act.wp (emit H i e) (fun _ w' => ∃ r, R r ∧ Put r w w') (fun _ w' => Aside w w') w := by
  refine wp_mono (wp_and (emit_of_fold hfold i) (emit_drawn i e w.drawn w le_rfl)) ?_ ?_
  · rintro env w' ⟨⟨-, db, hdb, r, hr, hw'⟩, hdrawn⟩
    have htrials : db.trials = w.db.trials := (congrArg Db.trials hdb :)
    obtain ⟨hrows, hpolicies⟩ := Prod.mk.inj htrials
    refine ⟨r, hr, ⟨?_, ?_, hdrawn⟩⟩
    · rw [hw', ← hrows]
    · rw [hw', ← hpolicies]
  · rintro x w' ⟨⟨-, hdb⟩, hdrawn⟩
    exact ⟨(congrArg Db.trials hdb :), hdrawn⟩

/-- `_record_attempt`: the row of the next number under a new id. -/
theorem recordAttempt_spec (i : ℕ) (graphId nodeId capabilityId : String) (w : World) :
    Act.wp (recordAttempt H i graphId nodeId capabilityId)
      (fun id w' => id = attemptId H w.drawn ∧ w.drawn < w'.drawn ∧
        ∃ r : AttemptRow, r.Starts H id nodeId (nextNumber (w.db.attemptsOf nodeId)) ∧ Put r w w')
      (fun _ w' => Aside w w') w := by
  have hdraw : Aside w { w with drawn := w.drawn + 1 } := ⟨rfl, Nat.le_succ _⟩
  have hclock : Aside w { w with drawn := w.drawn + 1, tick := w.tick + 1 } := ⟨rfl, Nat.le_succ _⟩
  rw [recordAttempt, wp_bind, wp_uuidHex, wp_bind, nextAttempt, wp_readDb]
  cases bindText H (.str nodeId) with
  | error x => exact hdraw
  | ok v =>
    change Act.wp (now H >>= _) _ _ { w with drawn := w.drawn + 1 }
    rw [wp_bind, wp_now, wp_bind]
    refine wp_mono (emit_put (fun env henv db => applyEvent_started henv db) i) ?_ ?_
    · rintro env w' ⟨r, hr, hput⟩
      exact (wp_pure _).2 ⟨rfl, hput.drawn, r, hr, hclock.put hput⟩
    · intro x w' h
      exact hclock.trans h

/-- `_finish_attempt`: the row of the attempt with its end. -/
theorem finishAttempt_spec (i : ℕ) (attemptId : String) (state : AttemptEnd) (error : Option String)
    (usage : Json) (w : World) (hfilled : ∀ row ∈ w.db.workAttempts, row.Filled) :
    Act.wp (finishAttempt H i attemptId state error usage)
      (fun _ w' => (∃ row ∈ w.db.workAttempts, row.id = .text attemptId) ∧
        ∃ r : AttemptRow, r.Finishes H attemptId state ∧ Put r w w')
      (fun _ w' => Aside w w') w := by
  have hclock : Aside w { w with tick := w.tick + 1 } := ⟨rfl, le_rfl⟩
  rw [finishAttempt, wp_bind, wp_readDb]
  split
  · rename_i row hread
    obtain ⟨v, hv, hrow⟩ := except_bind_eq_ok.1 hread
    have hrow : w.db.attempt? attemptId = some row := by
      split at hrow
      · cases hrow
      · rename_i row' h
        rw [h, Except.ok.inj hrow]
    have hmem := List.mem_of_find?_eq_some hrow
    have hid : row.id = .text attemptId := by simpa using List.find?_some hrow
    rw [wp_bind, wp_now, wp_bind]
    refine wp_mono (emit_put (fun env henv db => applyEvent_finished (hfilled row hmem) henv db) i)
      ?_ ?_
    · rintro env w' ⟨r, hr, hput⟩
      exact (wp_pure _).2 ⟨⟨row, hmem, hid⟩, r, hr, hclock.put hput⟩
    · intro x w' h
      exact hclock.trans h
  · exact Aside.refl w

end Shiroe
