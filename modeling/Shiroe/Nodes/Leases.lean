import Shiroe.Nodes.Store

/-!
# Leases that many processes work on

At most one lease of a work node is active at any time, whatever the order of the statements.  A
lease that has ended changes again exactly when a process sets it to a state that it chose while the
lease was still active.

* `leases_of_run` : both, over every run of the processes.
-/

namespace Shiroe

variable {H : LeaseHost}

namespace LeaseDb

/-- At most one lease of each work node is active. -/
def OneActive (db : LeaseDb) : Prop :=
  ∀ w, db.leases.countP (fun r => r.state = .active && r.workNodeId = w) ≤ 1

/-- The statement does not set a lease that has ended to another state. -/
def Orderly (db : LeaseDb) : LeaseStmt → Prop
  | .setState id target _ => ∀ t ∈ db.stateOf id, t = .active ∨ t = target
  | _ => True

instance (db : LeaseDb) : (m : LeaseStmt) → Decidable (Orderly db m)
  | .setState id target _ =>
    inferInstanceAs (Decidable (∀ t ∈ db.stateOf id, t = .active ∨ t = target))
  | .selectNode _ | .expire _ | .insert _ | .select _ | .emit _ | .readClock | .drawId =>
    inferInstanceAs (Decidable True)

/-- The leases that have ended in the one database are in the same states in the other. -/
def EndedStay (db db' : LeaseDb) : Prop :=
  ∀ id, ∀ t ∈ db.stateOf id, t ≠ .active → db'.stateOf id = some t

theorem EndedStay.refl (db : LeaseDb) : EndedStay db db := fun _ _ ht _ => ht

theorem EndedStay.trans {db₁ db₂ db₃ : LeaseDb} (h : EndedStay db₁ db₂) (h' : EndedStay db₂ db₃) :
    EndedStay db₁ db₃ := fun id t ht hne => h' id t (h id t ht hne) hne

/-- A statement that an operation issues: it activates no lease by an update. -/
def Ends : LeaseStmt → Prop
  | .setState _ target _ => target ≠ .active
  | _ => True

/-! ### One statement -/

variable {db : LeaseDb}

/-- The rows that `OneActive` counts. -/
theorem countP_update_le {p q : LeaseRow → Bool} {f : LeaseRow → LeaseRow}
    (hf : ∀ r, q (f r) = true → q r = true) (l : List LeaseRow) :
    (Table.update p f l).countP q ≤ l.countP q := by
  rw [Table.update, List.countP_map]
  refine List.countP_mono_left fun r _ h => ?_
  rw [Function.comp_apply] at h
  by_cases hp : p r = true
  · exact hf r (by rwa [if_pos hp] at h)
  · rwa [if_neg hp] at h

theorem OneActive.update {p : LeaseRow → Bool} {f : LeaseRow → LeaseRow} (h : db.OneActive)
    (hf : ∀ r, (f r).state ≠ .active) :
    OneActive { db with leases := Table.update p f db.leases } := by
  intro w
  refine le_trans (countP_update_le (fun r hr => ?_) _) (h w)
  simp [hf r] at hr

/-- The partial unique index: a row that is let in is not the second active one. -/
theorem OneActive.insert {r : LeaseRow} (h : db.OneActive) (hr : db.rejects r = false) :
    OneActive { db with leases := db.leases ++ [r] } := by
  intro w
  rw [List.countP_append, List.countP_singleton]
  split_ifs with hw
  · obtain ⟨hactive, rfl⟩ : r.state = .active ∧ r.workNodeId = w := by simpa using hw
    rw [rejects, Bool.or_eq_false_iff, decide_eq_true hactive, Bool.true_and,
      List.any_eq_false] at hr
    rw [List.countP_eq_zero.2 hr.2]
  · exact h w

/-- What a statement does to the leases: at most one stays active. -/
theorem OneActive.exec (h : db.OneActive) {m : LeaseStmt} (hm : Ends m) :
    (exec m db).2.OneActive := by
  cases m with
  | expire now => exact h.update fun r => LeaseState.noConfusion
  | setState id target now => exact h.update fun r => hm
  | insert r =>
    rw [LeaseDb.exec]
    split_ifs with hr
    · exact h
    · exact h.insert (by simpa using hr)
  | emit e =>
    rw [LeaseDb.exec]
    split <;> exact h
  | selectNode _ | select _ | readClock | drawId => exact h

/-- A statement leaves the leases that have ended alone exactly when it is orderly. -/
theorem endedStay_exec (m : LeaseStmt) : EndedStay db (exec m db).2 ↔ Orderly db m := by
  cases m with
  | emit e =>
    refine iff_of_true ?_ trivial
    rw [exec]
    split <;> exact EndedStay.refl db
  | selectNode _ | select _ | readClock | drawId =>
    exact iff_of_true (EndedStay.refl db) trivial
  | expire now =>
    refine iff_of_true (fun id t ht hne => ?_) trivial
    obtain ⟨r, hr, rfl⟩ := Option.mem_map.1 ht
    rw [exec, stateOf, Table.find?_update (by intro r; rfl), Option.mem_def.1 hr, Option.map_some,
      if_neg (by simp [isStale, hne]), Option.map_some]
  | insert r =>
    refine iff_of_true ?_ trivial
    rw [exec]
    split_ifs
    · exact EndedStay.refl db
    · intro id t ht _
      obtain ⟨r', hr', rfl⟩ := Option.mem_map.1 ht
      rw [stateOf, List.find?_append, Option.mem_def.1 hr']
      rfl
  | setState id target now =>
    have hfind : ∀ id', (exec (.setState id target now) db).2.stateOf id' =
        (db.leases.find? (·.id = id')).map fun r => if r.id = id then target else r.state := by
      intro id'
      rw [exec, stateOf, Table.find?_update (by intro r; rfl), Option.map_map]
      congr 1
      funext r
      by_cases h : r.id = id <;> simp [h]
    constructor
    · intro h t ht
      by_contra hcon
      rw [not_or] at hcon
      have hstay := h id t ht hcon.1
      obtain ⟨r, hr, rfl⟩ := Option.mem_map.1 ht
      rw [hfind, Option.mem_def.1 hr, Option.map_some,
        if_pos (by simpa using List.find?_some (Option.mem_def.1 hr))] at hstay
      exact hcon.2 (Option.some.inj hstay).symm
    · intro h id' t ht hne
      obtain ⟨r, hr, rfl⟩ := Option.mem_map.1 ht
      have hid : r.id = id' := by simpa using List.find?_some (Option.mem_def.1 hr)
      rw [hfind, Option.mem_def.1 hr, Option.map_some]
      split_ifs with hr'
      · -- the row that the statement changes was already in that state
        subst hid hr'
        rw [(h _ ht).resolve_left hne]
      · rfl

end LeaseDb

/-! ### The operations -/

open LeaseDb Prog

theorem all_leaseNow : (leaseNow H).All Ends := All.bind (All.issue trivial) fun _ => All.pure _

theorem all_newLeaseId : (newLeaseId H).All Ends :=
  All.bind (All.issue trivial) fun _ => All.ite (fun _ => All.pure _) fun _ => All.raise _

theorem all_getWorker (nodeId : String) : (getWorker nodeId).All Ends := by
  refine All.ite (fun _ => All.bind (All.issue trivial) fun row => ?_) fun _ => All.raise _
  cases row with
  | some r => exact All.pure r
  | none => exact All.raise _

theorem all_getLease (leaseId : String) : (getLease leaseId).All Ends := by
  refine All.bind (All.issue trivial) fun row => ?_
  cases row with
  | some r => exact All.pure r
  | none => exact All.raise _

theorem all_emitLease (e : LeaseEvent) : (emitLease e).All Ends := by
  refine All.bind (All.issue trivial) fun appended => ?_
  cases appended with
  | ok _ => exact All.pure _
  | error x => exact All.raise x

theorem all_leaseEnd (ttlS : ℤ) : (leaseEnd H ttlS).All Ends := by
  refine All.bind (All.issue trivial) fun n => ?_
  cases H.expiresAt n ttlS with
  | ok s => exact All.pure s
  | error e => exact All.raise e

theorem all_expireActiveLeases : (expireActiveLeases H).All Ends :=
  All.bind all_leaseNow fun _ => All.issue trivial

theorem all_acquireLease (graphId workNodeId nodeId : String) (ttlS : ℤ) :
    (acquireLease H graphId workNodeId nodeId ttlS).All Ends := by
  refine All.bind (all_getWorker nodeId) fun node => All.ite (fun _ => All.raise _) fun _ => ?_
  refine All.bind all_expireActiveLeases fun _ => All.bind all_leaseNow fun now => ?_
  refine All.bind (all_leaseEnd ttlS) fun expiresAt => All.bind all_newLeaseId fun id => ?_
  refine All.bind (All.issue trivial) fun inserted => All.ite (fun _ => ?_) fun _ => All.raise _
  exact All.bind (all_emitLease _) fun _ => all_getLease id

/-- A lease is set to an end state only. -/
theorem all_terminalLease (leaseId : String) (target : LeaseState) (idempotent : Bool) :
    (terminalLease H leaseId target idempotent).All Ends := by
  refine All.ite (fun _ => All.raise _) fun htarget => ?_
  have hne : target ≠ .active := by
    rintro rfl
    exact htarget (by decide)
  refine All.bind (all_getLease leaseId) fun current => All.ite (fun _ => All.pure _) fun _ => ?_
  refine All.ite (fun _ => All.raise _) fun _ => All.bind all_leaseNow fun now => ?_
  refine All.bind (All.issue hne) fun _ => All.bind (all_getLease leaseId) fun updated => ?_
  exact All.bind (all_emitLease _) fun _ => All.pure _

theorem all_prog (c : LeaseCall) : (c.prog H).All Ends := by
  cases c with
  | acquire graphId workNodeId nodeId ttlS =>
    exact All.bind (all_acquireLease graphId workNodeId nodeId ttlS) fun _ => All.pure _
  | expire => exact All.bind all_expireActiveLeases fun _ => All.pure _
  | complete id | fail id | release id =>
    exact All.bind (all_terminalLease id _ true) fun _ => All.pure _

/-! ### Runs -/

/-- The processes after the first turns, from a database where nobody works yet. -/
def leasesAt (H : LeaseHost) (db : LeaseDb) (turns : List (Turn LeaseCall)) (k : ℕ) : LeasePool :=
  Run.stateAt (leaseTurn H) { shared := db } turns k

section Runs

variable {db : LeaseDb} {turns : List (Turn LeaseCall)}

theorem safe_leasesAt (k : ℕ) : (leasesAt H db turns k).Safe Ends := by
  have hstart : Pool.Safe Ends ({ shared := db } : LeasePool) := fun i q hq => by cases hq
  change (Run.stateAt (Pool.step LeaseDb.exec (LeaseCall.prog H)) _ turns k).Safe Ends
  exact hstart.stateAt all_prog turns k

/-- A turn executes at most one statement. -/
theorem leasesAt_succ (k : ℕ) (hk : k < turns.length) :
    (leasesAt H db turns (k + 1)).shared =
      (((leasesAt H db turns k).stmt? turns[k]).map fun m =>
        (LeaseDb.exec m (leasesAt H db turns k).shared).2).getD (leasesAt H db turns k).shared := by
  rw [leasesAt, Run.stateAt_succ hk]
  exact Pool.step_shared _ _

theorem oneActive_leasesAt (h : db.OneActive) (k : ℕ) :
    (leasesAt H db turns k).shared.OneActive := by
  induction k with
  | zero => exact h
  | succ k ih =>
    by_cases hk : k < turns.length
    · rw [leasesAt_succ k hk]
      cases hm : (leasesAt H db turns k).stmt? turns[k] with
      | none => exact ih
      | some m => exact ih.exec ((safe_leasesAt k).stmt hm)
    · rw [leasesAt, Run.stateAt_of_length_le (by omega)]
      exact ih

/-- One turn leaves the leases that have ended alone exactly when its statement is orderly. -/
theorem endedStay_succ (k : ℕ) (hk : k < turns.length) :
    (leasesAt H db turns k).shared.EndedStay (leasesAt H db turns (k + 1)).shared ↔
      ∀ m ∈ (leasesAt H db turns k).stmt? turns[k], (leasesAt H db turns k).shared.Orderly m := by
  rw [leasesAt_succ k hk]
  cases hm : (leasesAt H db turns k).stmt? turns[k] with
  | none => exact iff_of_true (EndedStay.refl _) fun m hm => by cases hm
  | some m =>
    rw [Option.map_some, Option.getD_some, endedStay_exec]
    exact ⟨fun h m' hm' => Option.mem_some_iff.1 hm' ▸ h, fun h => h m rfl⟩

theorem endedStay_le
    (h : ∀ k < turns.length,
      (leasesAt H db turns k).shared.EndedStay (leasesAt H db turns (k + 1)).shared)
    {i j : ℕ} (hij : i ≤ j) :
    (leasesAt H db turns i).shared.EndedStay (leasesAt H db turns j).shared := by
  induction j, hij using Nat.le_induction with
  | base => exact EndedStay.refl _
  | succ j _ ih =>
    refine ih.trans ?_
    by_cases hj : j < turns.length
    · exact h j hj
    · rw [leasesAt, leasesAt, Run.stateAt_of_length_le (by omega)]
      exact EndedStay.refl _

/-- However the statements of the processes follow each other, at most one lease of each work node
is active; and the leases that have ended stay as they are exactly when no statement sets one of
them to another state. -/
theorem leases_of_run (h : db.OneActive) (turns : List (Turn LeaseCall)) :
    (∀ k, (leasesAt H db turns k).shared.OneActive) ∧
      ((∀ i j, i ≤ j → (leasesAt H db turns i).shared.EndedStay (leasesAt H db turns j).shared) ↔
        ∀ k (hk : k < turns.length), ∀ m ∈ (leasesAt H db turns k).stmt? turns[k],
          (leasesAt H db turns k).shared.Orderly m) := by
  refine ⟨oneActive_leasesAt h, fun hstay k hk => ?_, fun hord i j hij => ?_⟩
  · exact (endedStay_succ k hk).1 (hstay k (k + 1) (by omega))
  · exact endedStay_le (fun k hk => (endedStay_succ k hk).2 (hord k hk)) hij

end Runs

/-! ### A lease that two processes end -/

namespace TwoEnds

/-- Ids and times that never repeat. -/
def host : LeaseHost where
  now n := "2026-01-01T00:00:0" ++ toString n ++ "Z"
  expiresAt _ _ := .ok "2026-01-01T00:05:00Z"
  leaseId n := "lease_00" ++ toString n

/-- A trusted worker that holds a lease. -/
def db : LeaseDb where
  nodes := [{ id := "node_abc", role := "worker", trusted := true }]
  leases :=
    [{ id := "lease_abc", graphId := "g", workNodeId := "w", nodeId := "node_abc", state := .active,
       acquiredAt := "2026-01-01T00:00:00Z", expiresAt := "2026-01-01T00:05:00Z" }]

/-- Both processes read the lease while it is active; then the one fails it, and then the other
completes it. -/
def turns : List (Turn LeaseCall) :=
  [.call 0 (.complete "lease_abc"), .next 0, .call 1 (.fail "lease_abc"), .next 1, .next 1, .next 1,
    .next 0, .next 0]

end TwoEnds

namespace TwoEnds

/-- Both processes read the lease while it is active and complete it, with their statements taking
turns; then the second one acquires another lease of the work node. -/
def sameEnd : List (Turn LeaseCall) :=
  [.call 0 (.complete "lease_abc"), .call 1 (.complete "lease_abc"), .next 0, .next 1, .next 0,
    .next 1, .next 0, .next 1, .next 1, .next 0, .next 0, .next 1, .next 0, .next 1, .next 1,
    .call 1 (.acquire "g" "w" "node_abc" 60), .next 1, .next 1, .next 1, .next 1, .next 1, .next 1,
    .next 1]

theorem oneActive_db : db.OneActive := fun _ => List.countP_le_length.trans (by decide)

theorem sameEnd_orderly : ∀ k (hk : k < sameEnd.length),
    ∀ m ∈ (leasesAt host db sameEnd k).stmt? sameEnd[k],
      (leasesAt host db sameEnd k).shared.Orderly m := by
  decide +kernel

end TwoEnds

/-- The two processes end the lease in one state: at most one lease is active throughout, and the
lease stays completed when another one is acquired. -/
theorem leases_of_run_same_end :
    (∀ k, (leasesAt TwoEnds.host TwoEnds.db TwoEnds.sameEnd k).shared.OneActive) ∧
      (∀ i j, i ≤ j → (leasesAt TwoEnds.host TwoEnds.db TwoEnds.sameEnd i).shared.EndedStay
        (leasesAt TwoEnds.host TwoEnds.db TwoEnds.sameEnd j).shared) ∧
      (leasesAt TwoEnds.host TwoEnds.db TwoEnds.sameEnd 23).shared.leases.map
        (fun r => (r.id, r.state)) = [("lease_abc", .completed), ("lease_000", .active)] := by
  have h := leases_of_run (H := TwoEnds.host) TwoEnds.oneActive_db TwoEnds.sameEnd
  exact ⟨h.1, h.2.2 TwoEnds.sameEnd_orderly, by decide +kernel⟩

/-- A lease that has failed is completed. -/
theorem failed_lease_completed :
    TwoEnds.db.OneActive ∧
      (leasesAt TwoEnds.host TwoEnds.db TwoEnds.turns 6).shared.stateOf "lease_abc" = some .failed ∧
      (leasesAt TwoEnds.host TwoEnds.db TwoEnds.turns 8).shared.stateOf "lease_abc" =
        some .completed ∧
      ¬ ∀ (H : LeaseHost) (db : LeaseDb) (turns : List (Turn LeaseCall)), db.OneActive →
        (∀ k, (leasesAt H db turns k).shared.OneActive) ∧
          ∀ i j, i ≤ j →
            (leasesAt H db turns i).shared.EndedStay (leasesAt H db turns j).shared := by
  have h : TwoEnds.db.OneActive := TwoEnds.oneActive_db
  have hfailed : (leasesAt TwoEnds.host TwoEnds.db TwoEnds.turns 6).shared.stateOf "lease_abc" =
      some .failed := by decide +kernel
  have hcompleted : (leasesAt TwoEnds.host TwoEnds.db TwoEnds.turns 8).shared.stateOf "lease_abc" =
      some .completed := by decide +kernel
  refine ⟨h, hfailed, hcompleted, fun hall => ?_⟩
  have hstay := (hall TwoEnds.host _ TwoEnds.turns h).2 6 8 (by omega) "lease_abc" _ hfailed
    LeaseState.noConfusion
  rw [hcompleted] at hstay
  cases hstay

end Shiroe
