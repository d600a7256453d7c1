import Shiroe.Nodes.Dispatcher

/-!
# What becomes of a dispatched result

The lease of a dispatch can end while the worker runs: it expires when another process acquires a
lease, and any process may end it.  What the dispatch does with the answer depends on the state that
it reads next.

* `LeaseDb.Later` : what the processes rely on: no lease vanishes, and none that has ended is active
  again;
* `relied_dispatchesAt` : every process sees to that, and sends a package under a lease that exists;
* `dispatch_delivers` : a dispatch hands on what its executor answered exactly when, at the moment
  at which it looks, the lease is already in the state that it is to end in, or still active and the
  append of its end to the log does not fail; otherwise it raises and the answer is lost.  When it
  is over the lease has ended.
-/

namespace Shiroe

open Prog LeaseDb

variable {H : Host} {T : Calendar} {W : RemoteHost T}

/-! ### What the processes rely on -/

namespace LeaseDb

/-- No lease vanishes, and none that has ended is active again. -/
def Later (s t : LeaseDb) : Prop :=
  ∀ id st, s.stateOf id = some st → ∃ st', t.stateOf id = some st' ∧ (st ≠ .active → st' ≠ .active)

instance : Std.Refl Later := ⟨fun _ _ st h => ⟨st, h, fun hne => hne⟩⟩

instance : IsTrans LeaseDb Later := by
  refine ⟨fun s t u hst htu id st h => ?_⟩
  obtain ⟨st₁, h₁, hne₁⟩ := hst id st h
  obtain ⟨st₂, h₂, hne₂⟩ := htu id st₁ h₁
  exact ⟨st₂, h₂, fun hne => hne₂ (hne₁ hne)⟩

/-- The lease is known. -/
def Known (id : String) (s : LeaseDb) : Prop := ∃ st, s.stateOf id = some st

/-- The lease has ended. -/
def Over (id : String) (s : LeaseDb) : Prop := ∃ st, s.stateOf id = some st ∧ st ≠ .active

variable {s t : LeaseDb} {id : String}

theorem Known.later (h : Known id s) (hst : Later s t) : Known id t := by
  obtain ⟨st, h⟩ := h
  obtain ⟨st', h', -⟩ := hst id st h
  exact ⟨st', h'⟩

theorem Over.later (h : Over id s) (hst : Later s t) : Over id t := by
  obtain ⟨st, h, hne⟩ := h
  obtain ⟨st', h', hne'⟩ := hst id st h
  exact ⟨st', h', hne' hne⟩

theorem Over.known (h : Over id s) : Known id s := by
  obtain ⟨st, h, -⟩ := h
  exact ⟨st, h⟩

/-- The states of leases after an update of some rows. -/
theorem stateOf_update {p : LeaseRow → Bool} {f : LeaseRow → LeaseRow} (hid : ∀ r, (f r).id = r.id)
    (s : LeaseDb) (id : String) :
    stateOf { s with leases := Table.update p f s.leases } id =
      (s.leases.find? (·.id = id)).map fun r => if p r then (f r).state else r.state := by
  rw [stateOf, Table.find?_update (by intro r; simp [hid]), Option.map_map]
  congr 1
  funext r
  rw [Function.comp_apply]
  split_ifs <;> rfl

theorem Later.update {p : LeaseRow → Bool} {f : LeaseRow → LeaseRow} (hid : ∀ r, (f r).id = r.id)
    (hf : ∀ r, (f r).state ≠ .active) (s : LeaseDb) :
    Later s { s with leases := Table.update p f s.leases } := by
  intro id st h
  obtain ⟨r, hr, rfl⟩ := Option.map_eq_some_iff.1 h
  refine ⟨if p r then (f r).state else r.state, ?_, fun hne => ?_⟩
  · rw [stateOf_update hid, hr]
    rfl
  · split_ifs
    · exact hf r
    · exact hne

/-- A row that was let in is known. -/
theorem known_insert {r : LeaseRow} (h : (exec (.insert r) s).1 = true) :
    Known r.id (exec (.insert r) s).2 := by
  rw [exec] at h ⊢
  split_ifs at h ⊢
  have hsome : ((s.leases ++ [r]).find? (·.id = r.id)).isSome = true := by simp
  obtain ⟨r', hr'⟩ := Option.isSome_iff_exists.1 hsome
  exact ⟨r'.state, by rw [stateOf, hr']; rfl⟩

theorem over_setState {target : LeaseState} (now : String) (hne : target ≠ .active)
    (h : Known id s) : Over id (exec (.setState id target now) s).2 := by
  obtain ⟨st, h⟩ := h
  obtain ⟨r, hr, -⟩ := Option.map_eq_some_iff.1 h
  have hid : r.id = id := by simpa using List.find?_some hr
  refine ⟨target, ?_, hne⟩
  rw [exec, stateOf_update (by intro r; rfl), hr]
  simp [hid]

/-- A statement that activates no lease by an update. -/
theorem later_exec (m : LeaseStmt) (s : LeaseDb) (hm : Ends m) : Later s (exec m s).2 := by
  cases m with
  | expire now =>
    exact Later.update (f := fun r => { r with state := .expired, releasedAt := some now })
      (fun _ => rfl) (fun _ => LeaseState.noConfusion) s
  | setState id target now =>
    exact Later.update (f := fun r => { r with state := target, releasedAt := some now })
      (fun _ => rfl) (fun _ => hm) s
  | insert r =>
    rw [exec]
    split_ifs
    · exact Std.Refl.refl s
    · intro id st h
      obtain ⟨r', hr', rfl⟩ := Option.map_eq_some_iff.1 h
      exact ⟨r'.state, by rw [stateOf, List.find?_append, hr']; rfl, fun hne => hne⟩
  | emit e =>
    rw [exec]
    split <;> exact fun id st h => ⟨st, h, fun hne => hne⟩
  | selectNode _ | select _ | readClock | drawId =>
    exact fun id st h => ⟨st, h, fun hne => hne⟩

/-- What a program on leases ensures among others. -/
abbrev Ensures {α : Type} (Q : α → LeaseDb → Prop) (E : Exc → LeaseDb → Prop) (x : LeaseProg α)
    (s : LeaseDb) : Prop :=
  x.Relies exec Later (fun m _ => Ends m) Q E s

/-- What an append to the log has raised. -/
def raised : (m : LeaseStmt) → m.Answer → Option Exc
  | .emit _, .error e => some e
  | _, _ => none

/-- What a program on leases ensures among others, with a record of what its appends to the log have
raised. -/
abbrev EnsuresTold {α : Type} (Q : α → LeaseDb × List Exc → Prop)
    (E : Exc → LeaseDb × List Exc → Prop) (x : LeaseProg α) (s : LeaseDb × List Exc) : Prop :=
  x.Relies (execTold exec raised) (RelyTold Later) (fun m _ => Ends m) Q E s

end LeaseDb

/-! ### Operations on leases -/

section Leases

variable {L : LeaseHost} {id : String} {s : LeaseDb}

theorem ensures_of_all {α : Type} {x : LeaseProg α} (h : x.All Ends) (s : LeaseDb) :
    Ensures (fun _ _ => True) (fun _ _ => True) x s :=
  Relies.of_all (fun _ _ hm => hm) h s

/-- The row that an id finds has it. -/
theorem id_of_find {r : LeaseRow} (h : s.leases.find? (·.id = id) = some r) : r.id = id := by
  simpa using List.find?_some h

theorem stateOf_of_find {r : LeaseRow} (h : s.leases.find? (·.id = id) = some r) :
    s.stateOf id = some r.state := by
  rw [stateOf, h]
  rfl

theorem ensures_leaseNow (s : LeaseDb) :
    Ensures (fun _ _ => True) (fun _ _ => False) (leaseNow L) s :=
  relies_issue_bind.2 fun _ _ => ⟨trivial, fun _ _ => trivial⟩

theorem ensures_getLease (h : Known id s) :
    Ensures (fun r _ => r.id = id) (fun _ _ => False) (getLease id) s := by
  refine relies_issue_bind.2 fun t hst => ⟨trivial, ?_⟩
  obtain ⟨st, ht⟩ := h.later hst
  obtain ⟨r, hr, -⟩ := Option.map_eq_some_iff.1 ht
  have hsame : (LeaseDb.exec (.select id) t).1 = some r := hr
  rw [hsame]
  exact fun u htu => id_of_find hr

/-- A statement whose answer is not about the log. -/
def IsQuiet (m : LeaseStmt) : Prop := ∀ r, raised m r = none

theorem quiet_getLease (id : String) : (getLease id).All IsQuiet := by
  refine All.bind (All.issue fun _ => rfl) fun row => ?_
  cases row with
  | some r => exact All.pure r
  | none => exact All.raise _

theorem quiet_leaseNow : (leaseNow L).All IsQuiet :=
  All.bind (All.issue fun _ => rfl) fun _ => All.pure _

/-- A program that does not append leaves the record as it is. -/
theorem LeaseDb.Ensures.told {α : Type} {Q : α → LeaseDb → Prop} {E : Exc → LeaseDb → Prop}
    {x : LeaseProg α} (h : Ensures Q E x s) (hx : x.All IsQuiet) (l : List Exc) :
    EnsuresTold (fun a t => (Q a t.1 ∧ LeaseDb.Later s t.1) ∧ t.2 = l)
      (fun e t => (E e t.1 ∧ LeaseDb.Later s t.1) ∧ t.2 = l) x (s, l) :=
  (h.whole later_exec).told (fun _ r hm => hm r) hx l

/-- What an append raises is recorded. -/
theorem ensures_emitLease (e : LeaseEvent) (s : LeaseDb) (l : List Exc) :
    EnsuresTold (fun _ t => LeaseDb.Later s t.1 ∧ t.2 = l)
      (fun x t => LeaseDb.Later s t.1 ∧ t.2 = l ++ [x])
      (emitLease e) (s, l) := by
  refine relies_issue_bind.2 ?_
  rintro ⟨t, l'⟩ ⟨hst, rfl⟩
  have hlater := later_exec (.emit e) t trivial
  refine ⟨trivial, ?_⟩
  unfold execTold
  dsimp only
  cases happended : (LeaseDb.exec (.emit e) t).1 with
  | ok _ =>
    rintro ⟨u, l'⟩ ⟨htu, rfl⟩
    exact ⟨IsTrans.trans _ _ _ hst (IsTrans.trans _ _ _ hlater htu), List.append_nil l⟩
  | error x =>
    rintro ⟨u, l'⟩ ⟨htu, rfl⟩
    exact ⟨IsTrans.trans _ _ _ hst (IsTrans.trans _ _ _ hlater htu), rfl⟩

/-- The exception that an ended lease leads to. -/
def LeaseRefused (id : String) (e : Exc) : Prop :=
  ∃ st : LeaseState, st ≠ .active ∧
    e = .runtimeError ("lease " ++ id ++ " is " ++ st.value ++ ", not active")

/-- An operation that ends a lease looks at it first.  What it does next depends on what it saw. -/
theorem terminalLease_looks {target : LeaseState}
    (htarget : target ∈ [.completed, .failed, .released])
    (id : String) :
    ∃ next, terminalLease L id target true = .stmt (.select id) next ∧ ∀ row s l,
      s.leases.find? (·.id = id) = some row →
        (row.state = .active →
          EnsuresTold (fun _ t => Over id t.1 ∧ t.2 = l) (fun e t => Over id t.1 ∧ t.2 = l ++ [e])
            (next (some row)) (s, l)) ∧
        (row.state = target →
          EnsuresTold (fun _ t => Over id t.1 ∧ t.2 = l) (fun _ _ => False) (next (some row))
            (s, l)) ∧
        (¬ (row.state = .active ∨ row.state = target) →
          EnsuresTold (fun _ _ => False) (fun e t => LeaseRefused id e ∧ Over id t.1 ∧ t.2 = l)
            (next (some row)) (s, l)) := by
  have hne : target ≠ .active := by
    rintro rfl
    exact absurd htarget (by decide)
  rw [terminalLease, if_neg (not_not_intro htarget)]
  refine ⟨_, rfl, fun row s l hrow => ⟨fun hactive => ?_, fun hsame => ?_, fun h => ?_⟩⟩
  · have hknown : Known id s := ⟨_, stateOf_of_find hrow⟩
    change EnsuresTold _ _ (if row.state = target ∧ true = true then pure row
      else if row.state ≠ .active then _ else _) (s, l)
    rw [if_neg fun hsame => hne (hsame.1.symm.trans hactive), if_neg (not_not_intro hactive)]
    refine Relies.bind (((ensures_leaseNow s).told quiet_leaseNow l).mono ?_
      fun _ _ hf => hf.1.1.elim)
    rintro now ⟨t, l₁⟩ ⟨⟨-, hst⟩, hl⟩
    obtain rfl : l = l₁ := hl.symm
    refine relies_issue_bind.2 ?_
    rintro ⟨u, l₁⟩ ⟨htu, hl⟩
    obtain rfl : l = l₁ := hl
    refine ⟨hne, ?_⟩
    have hover := over_setState now hne ((hknown.later hst).later htu)
    have hset : (execTold LeaseDb.exec raised (.setState id target now) (u, l)).2 =
        ((LeaseDb.exec (.setState id target now) u).2, l) := by
      simp only [execTold, raised, Option.toList_none, List.append_nil]
    rw [hset]
    refine Relies.bind (((ensures_getLease hover.known).told (quiet_getLease id) l).mono ?_
      fun _ _ hf => hf.1.1.elim)
    rintro updated ⟨v, l₁⟩ ⟨⟨-, huv⟩, hl⟩
    obtain rfl : l = l₁ := hl.symm
    refine Relies.bind ((ensures_emitLease _ v l).mono ?_ fun e w hw =>
      ⟨(hover.later huv).later hw.1, hw.2⟩)
    rintro - w ⟨hvw, hl⟩ x ⟨hwx, hl'⟩
    exact ⟨((hover.later huv).later hvw).later hwx, hl'.symm.trans hl⟩
  · change EnsuresTold _ _ (if row.state = target ∧ true = true then pure row
      else if row.state ≠ .active then _ else _) (s, l)
    rw [if_pos ⟨hsame, rfl⟩]
    exact fun t hst =>
      ⟨Over.later ⟨row.state, stateOf_of_find hrow, hsame ▸ hne⟩ hst.1, hst.2.symm⟩
  · rw [not_or] at h
    change EnsuresTold _ _ (if row.state = target ∧ true = true then pure row
      else if row.state ≠ .active then _ else _) (s, l)
    rw [if_neg fun hsame => h.2 hsame.1, if_pos h.1]
    have hid : row.id = id := id_of_find hrow
    exact fun t hst => ⟨⟨row.state, h.1, rfl⟩, Over.later ⟨_, stateOf_of_find hrow, h.1⟩ hst.1,
      hst.2.symm⟩

/-- What an operation that ends a lease comes to when the lease has ended already. -/
theorem ensures_terminalLease {target : LeaseState}
    (htarget : target ∈ [.completed, .failed, .released]) (h : Over id s) (l : List Exc) :
    EnsuresTold (fun _ t => Over id t.1 ∧ t.2 = l)
      (fun e t => LeaseRefused id e ∧ Over id t.1 ∧ t.2 = l)
      (terminalLease L id target true) (s, l) := by
  obtain ⟨next, hlook, hnext⟩ := terminalLease_looks (L := L) htarget id
  rw [hlook]
  refine relies_stmt.2 ?_
  rintro ⟨t, l₁⟩ ⟨hst, hl⟩
  obtain rfl : l = l₁ := hl
  refine ⟨trivial, ?_⟩
  obtain ⟨st, ht, hne⟩ := h.later hst
  obtain ⟨row, hrow, rfl⟩ := Option.map_eq_some_iff.1 ht
  have hsame : execTold LeaseDb.exec raised (.select id) (t, l) = (some row, (t, l)) :=
    Prod.ext hrow (Prod.ext rfl (List.append_nil l))
  rw [hsame]
  by_cases htarget : row.state = target
  · exact ((hnext row t l hrow).2.1 htarget).mono (fun _ _ h => h) fun _ _ h => h.elim
  · exact ((hnext row t l hrow).2.2 (not_or.2 ⟨hne, htarget⟩)).mono (fun _ _ h => h.elim)
      fun _ _ h => h

/-- A lease that was acquired is known. -/
theorem ensures_acquireLease (graphId workNodeId nodeId : String) (ttlS : ℤ) (s : LeaseDb) :
    Ensures (fun r t => Known r.id t) (fun _ _ => True)
      (acquireLease L graphId workNodeId nodeId ttlS) s := by
  refine Relies.bind ((ensures_of_all (all_getWorker nodeId) s).mono (fun node t _ => ?_)
    fun _ _ _ => trivial)
  split_ifs with hdenied
  · exact fun _ _ => trivial
  refine Relies.bind ((ensures_of_all all_expireActiveLeases t).mono (fun _ t _ => ?_)
    fun _ _ _ => trivial)
  refine Relies.bind ((ensures_of_all all_leaseNow t).mono (fun now t _ => ?_) fun _ _ _ => trivial)
  refine Relies.bind ((ensures_of_all (all_leaseEnd ttlS) t).mono (fun expiresAt t _ => ?_)
    fun _ _ _ => trivial)
  refine Relies.bind ((ensures_of_all all_newLeaseId t).mono (fun id t _ => ?_) fun _ _ _ =>
    trivial)
  refine relies_issue_bind.2 fun t _ => ⟨trivial, ?_⟩
  cases hinserted : (LeaseDb.exec (.insert
      { id, graphId, workNodeId, nodeId, state := .active, acquiredAt := now, expiresAt }) t).1 with
  | false => exact fun _ _ => trivial
  | true =>
    have hknown := known_insert hinserted
    refine Relies.bind (((ensures_of_all (all_emitLease _) _).whole later_exec).mono
      (fun _ u hu => ?_) fun _ _ _ => trivial)
    exact ((ensures_getLease (hknown.later hu.2)).whole later_exec).mono
      (fun r v hr => hr.1.symm ▸ (hknown.later hu.2).later hr.2) fun _ _ h => h.1.elim

end Leases

/-! ### Dispatches -/

/-- What the processes rely on. -/
def RemoteDb.Later (s t : RemoteDb) : Prop := LeaseDb.Later s.leases t.leases

instance : Std.Refl RemoteDb.Later := ⟨fun s => Std.Refl.refl s.leases⟩

instance : IsTrans RemoteDb RemoteDb.Later :=
  ⟨fun s t u hst htu => IsTrans.trans s.leases t.leases u.leases hst htu⟩

/-- What they guarantee: no lease is activated by an update, and a package goes out under a lease
that is known. -/
def RemoteDb.Guarantees : RemoteStmt → RemoteDb → Prop
  | .lease m, _ => Ends m
  | .execute _ package, s => ∃ id, package.get "lease_id" = .str id ∧ Known id s.leases
  | _, _ => True

theorem later_execRemote (m : RemoteStmt) (s : RemoteDb) (h : RemoteDb.Guarantees m s) :
    RemoteDb.Later s (RemoteDb.exec m s).2 := by
  cases m with
  | lease m => exact later_exec m s.leases h
  | node _ | trust _ _ _ | capability | clock | uuid | execute _ _ =>
    exact fun id st h => ⟨st, h, fun hne => hne⟩

/-- What a program of a dispatch ensures among others. -/
abbrev RemoteDb.Ensures {α : Type} (Q : α → RemoteDb → Prop) (E : Exc → RemoteDb → Prop)
    (x : RemoteProg α) (s : RemoteDb) : Prop :=
  x.Relies RemoteDb.exec RemoteDb.Later RemoteDb.Guarantees Q E s

/-- An operation on leases ensures beside a dispatch what it ensures alone. -/
theorem ensures_onLeases {α : Type} {x : LeaseProg α} {Q : α → LeaseDb → Prop}
    {E : Exc → LeaseDb → Prop} {s : RemoteDb} (h : LeaseDb.Ensures Q E x s.leases) :
    RemoteDb.Ensures (fun a t => Q a t.leases) (fun e t => E e t.leases) (onLeases x) s :=
  Relies.lift RemoteDb.leases (fun _ _ => ⟨rfl, rfl⟩) (fun _ _ h => h) (fun _ _ h => h) h

/-- What an append to the log has raised, in a dispatch. -/
def RemoteDb.raised : (m : RemoteStmt) → m.Answer → Option Exc
  | .lease m, r => LeaseDb.raised m r
  | _, _ => none

/-- What a program of a dispatch ensures, with that record. -/
abbrev RemoteDb.EnsuresTold {α : Type} (Q : α → RemoteDb × List Exc → Prop)
    (E : Exc → RemoteDb × List Exc → Prop) (x : RemoteProg α) (s : RemoteDb × List Exc) : Prop :=
  x.Relies (execTold RemoteDb.exec RemoteDb.raised) (RelyTold RemoteDb.Later)
    (fun m t => RemoteDb.Guarantees m t.1) Q E s

theorem told_onLeases {α : Type} {x : LeaseProg α} {Q : α → LeaseDb × List Exc → Prop}
    {E : Exc → LeaseDb × List Exc → Prop} {s : RemoteDb} {l : List Exc}
    (h : LeaseDb.EnsuresTold Q E x (s.leases, l)) :
    RemoteDb.EnsuresTold (fun a t => Q a (t.1.leases, t.2)) (fun e t => E e (t.1.leases, t.2))
      (onLeases x) (s, l) :=
  Relies.lift (R := RelyTold LeaseDb.Later) (G := fun m _ => Ends m)
    (fun t : RemoteDb × List Exc => (t.1.leases, t.2)) (fun _ _ => ⟨rfl, rfl⟩)
    (fun _ _ h => h) (fun _ _ h => h) h

/-- A statement of a dispatch that sends nothing and is not about a lease. -/
def RemoteDb.IsAside : RemoteStmt → Prop
  | .lease m => Ends m
  | .execute _ _ => False
  | _ => True

theorem guarantees_of_isAside (m : RemoteStmt) (s : RemoteDb) (h : RemoteDb.IsAside m) :
    RemoteDb.Guarantees m s := by
  cases m with
  | lease m => exact h
  | execute _ _ => exact h.elim
  | node _ | trust _ _ _ | capability | clock | uuid => trivial

theorem isAside_onLeases {α : Type} {x : LeaseProg α} (h : x.All Ends) :
    (onLeases x).All RemoteDb.IsAside := h.lift fun _ hm => hm

theorem isAside_getNodeRecord (nodeId : String) : (getNodeRecord nodeId).All RemoteDb.IsAside := by
  refine All.ite (fun _ => All.bind (All.issue trivial) fun row => ?_) fun _ => All.raise _
  cases row with
  | some r => exact All.pure r
  | none => exact All.raise _

theorem isAside_trustNode (nodeId : String) (trusted : Bool) :
    (trustNode W nodeId trusted).All RemoteDb.IsAside := by
  refine All.ite (fun _ => All.bind (isAside_onLeases all_leaseNow) fun now => ?_)
    fun _ => All.raise _
  refine All.bind (All.issue trivial) fun found => All.ite (fun _ => ?_) fun _ => All.raise _
  exact All.bind (isAside_onLeases (all_emitLease _)) fun _ => isAside_getNodeRecord nodeId

theorem isAside_capabilityDigest (capabilityId : String) :
    (capabilityDigest W capabilityId).All RemoteDb.IsAside := by
  refine All.bind (All.issue trivial) fun n => ?_
  cases W.digest n capabilityId with
  | some digest => exact All.pure digest
  | none => exact All.raise _

theorem isAside_matchedText (j : Json) : (matchedText j).All RemoteDb.IsAside := by
  cases j with
  | str s => exact All.pure s
  | _ => exact All.raise _

theorem isAside_dispatchPackage (a : DispatchArgs) (nodeId leaseId digest : String) :
    (dispatchPackage H W a nodeId leaseId digest).All RemoteDb.IsAside := by
  refine All.bind (All.issue trivial) fun n => All.bind (All.issue trivial) fun u => ?_
  dsimp only
  split
  · exact All.pure _
  · exact All.raise _

theorem isAside_settle (leaseId : String) (answer : Except Exc AdapterResult) :
    (settle W leaseId answer).All RemoteDb.IsAside := by
  cases answer with
  | error e => exact All.raise e
  | ok result =>
    refine All.ite (fun _ => ?_) fun _ => ?_
    all_goals exact All.bind (isAside_onLeases (all_terminalLease _ _ _)) fun _ => All.pure _

theorem isAside_settleOrFail (leaseId : String) (answer : Except Exc AdapterResult) :
    (settleOrFail W leaseId answer).All RemoteDb.IsAside :=
  All.onRaise (isAside_settle leaseId answer) (isAside_onLeases (all_terminalLease _ _ _))

theorem ensures_of_isAside {α : Type} {x : RemoteProg α} (h : x.All RemoteDb.IsAside)
    (s : RemoteDb) : RemoteDb.Ensures (fun _ _ => True) (fun _ _ => True) x s :=
  Relies.of_all guarantees_of_isAside h s

theorem makeWorkPackage_leaseId {a : PackageArgs T.Moment} {p : WorkPackage}
    (h : makeWorkPackage H T a = .ok p) : p.toDict.get "lease_id" = .str a.leaseId := by
  obtain ⟨createdAt, -, h⟩ := Act.except_bind_eq_ok.1 h
  obtain ⟨expiresAt, -, h⟩ := Act.except_bind_eq_ok.1 h
  obtain ⟨digest, -, h⟩ := Act.except_bind_eq_ok.1 h
  cases h
  simp [WorkPackage.toDict_eq, List.lookup]

/-- The package of a dispatch names its lease. -/
theorem returns_dispatchPackage (a : DispatchArgs) (nodeId leaseId digest : String) :
    (dispatchPackage H W a nodeId leaseId digest).Returns fun package =>
      package.get "lease_id" = .str leaseId := by
  refine returns_issue_bind.2 fun n => returns_issue_bind.2 fun u => ?_
  dsimp only
  split
  · rename_i package hmade
    obtain ⟨expiresAt, -, hmade⟩ := Act.except_bind_eq_ok.1 hmade
    exact makeWorkPackage_leaseId hmade
  · trivial

/-- Every dispatch keeps to what the others rely on. -/
theorem ensures_invoke (a : DispatchArgs) (s : RemoteDb) :
    RemoteDb.Ensures (fun _ _ => True) (fun _ _ => True) (NodeDispatcher.invoke H W a) s := by
  unfold NodeDispatcher.invoke
  split_ifs with hplaced
  · exact fun _ _ => trivial
  refine Relies.bind ((ensures_of_isAside (isAside_matchedText _) s).mono (fun nodeId t _ => ?_)
    fun _ _ _ => trivial)
  refine Relies.bind ((ensures_of_isAside (isAside_getNodeRecord nodeId) t).mono
    (fun node t _ => ?_) fun _ _ _ => trivial)
  refine Relies.bind ((ensures_of_isAside (isAside_capabilityDigest _) t).mono
    (fun digest t _ => ?_) fun _ _ _ => trivial)
  split_ifs with hsame
  · exact fun _ _ => trivial
  refine Relies.bind ((ensures_onLeases (ensures_acquireLease _ _ _ _ _)).mono
    (fun lease t hknown => ?_) fun _ _ _ => trivial)
  refine Relies.bind (((Relies.of_returns guarantees_of_isAside
    (isAside_dispatchPackage a _ _ _) (returns_dispatchPackage a _ _ _) t).whole
    later_execRemote).mono (fun package u hu => ?_) fun _ _ _ => trivial)
  refine relies_issue_bind.2 fun v huv => ⟨⟨lease.id, hu.1, ?_⟩, ?_⟩
  · exact (hknown.later hu.2).later huv
  · exact ensures_of_isAside (isAside_settleOrFail _ _) _

/-- A call among others keeps to what they rely on. -/
theorem ensures_prog (c : RemoteCall) (s : RemoteDb) :
    RemoteDb.Ensures (fun _ _ => True) (fun _ _ => True) (c.prog H W) s := by
  cases c with
  | lease c =>
    exact ensures_of_isAside (All.bind (isAside_onLeases (all_prog c)) fun _ => All.pure _) s
  | trust nodeId trusted =>
    exact ensures_of_isAside (All.bind (isAside_trustNode nodeId trusted) fun _ => All.pure _) s
  | invoke a =>
    exact Relies.bind ((ensures_invoke a s).mono (fun r t _ => fun _ _ => trivial)
      fun _ _ _ => trivial)

/-- What follows the call of an executor: the lease named in the package ends. -/
def ThenSettles (W : RemoteHost T) :
    (m : RemoteStmt) → (m.Answer → RemoteProg AdapterResult) → Prop
  | .execute node package, next => ∃ id, package.get "lease_id" = .str id ∧
      next = fun n => settleOrFail W id (W.answer n node package)
  | _, _ => True

theorem thenSettles_of_isAside (m : RemoteStmt) (next : m.Answer → RemoteProg AdapterResult)
    (h : RemoteDb.IsAside m) : ThenSettles W m next := by
  cases m with
  | execute _ _ => exact h.elim
  | lease _ | node _ | trust _ _ _ | capability | clock | uuid => trivial

theorem allNext_invoke (a : DispatchArgs) :
    (NodeDispatcher.invoke H W a).AllNext (ThenSettles W) := by
  unfold NodeDispatcher.invoke
  split_ifs with hplaced
  · trivial
  refine AllNext.after (isAside_matchedText _) (returns_true _) thenSettles_of_isAside
    fun nodeId _ => ?_
  refine AllNext.after (isAside_getNodeRecord nodeId) (returns_true _) thenSettles_of_isAside
    fun node _ => ?_
  refine AllNext.after (isAside_capabilityDigest _) (returns_true _) thenSettles_of_isAside
    fun digest _ => ?_
  split_ifs with hsame
  · trivial
  refine AllNext.after (isAside_onLeases (all_acquireLease _ _ _ _)) (returns_true _)
    thenSettles_of_isAside fun lease _ => ?_
  refine AllNext.after (isAside_dispatchPackage a _ _ _) (returns_dispatchPackage a _ _ _)
    thenSettles_of_isAside fun package hpackage => ?_
  exact ⟨⟨lease.id, hpackage, rfl⟩, fun n =>
    (isAside_settleOrFail _ _).allNext thenSettles_of_isAside⟩

/-- In the program of a call, too. -/
def ThenHandsOn (W : RemoteHost T) :
    (m : RemoteStmt) → (m.Answer → RemoteProg (Option AdapterResult)) → Prop
  | .execute node package, next => ∃ id, package.get "lease_id" = .str id ∧ next = fun n =>
      settleOrFail W id (W.answer n node package) >>= fun result => pure (some result)
  | _, _ => True

theorem allNext_prog (c : RemoteCall) : (c.prog H W).AllNext (ThenHandsOn W) := by
  have haside : ∀ (m : RemoteStmt) (next : m.Answer → RemoteProg (Option AdapterResult)),
      RemoteDb.IsAside m → ThenHandsOn W m next := by
    intro m next h
    cases m with
    | execute _ _ => exact h.elim
    | lease _ | node _ | trust _ _ _ | capability | clock | uuid => trivial
  cases c with
  | lease c =>
    exact (All.bind (isAside_onLeases (all_prog c)) fun _ => All.pure _).allNext haside
  | trust nodeId trusted =>
    exact (All.bind (isAside_trustNode nodeId trusted) fun _ => All.pure _).allNext haside
  | invoke a =>
    refine (allNext_invoke a).bind (fun m next h => ?_) fun r => trivial
    cases m with
    | execute node package =>
      obtain ⟨id, hid, rfl⟩ := h
      exact ⟨id, hid, rfl⟩
    | lease _ | node _ | trust _ _ _ | capability | clock | uuid => trivial

/-! ### How a dispatch ends -/

/-- The state that a lease is to end in. -/
def settledState : Except Exc AdapterResult → LeaseState
  | .ok result => if result.ok then .completed else .failed
  | .error _ => .failed

theorem settledState_mem (answer : Except Exc AdapterResult) :
    settledState answer ∈ [LeaseState.completed, .failed, .released] := by
  cases answer with
  | error e => simp [settledState]
  | ok result =>
    rw [settledState]
    split_ifs <;> decide

theorem settle_ok (id : String) (result : AdapterResult) :
    settle W id (.ok result) = onLeases (terminalLease W.toLeaseHost id
      (settledState (.ok result)) true) >>= fun _ => pure result := by
  rw [settle, settledState]
  split_ifs <;> rfl

/-- After the answer a dispatch looks at its lease, and the rest depends on what it saw. -/
theorem settleOrFail_looks (id : String) (answer : Except Exc AdapterResult) :
    ∃ next, settleOrFail W id answer = .stmt (.lease (.select id)) next ∧ ∀ row (s : RemoteDb),
      s.leases.leases.find? (·.id = id) = some row →
        (row.state = .active →
          RemoteDb.EnsuresTold (fun r t => answer = .ok r ∧ Over id t.1.leases ∧ t.2 = [])
            (fun e t => Over id t.1.leases ∧ (answer = .error e ∧ t.2 = [] ∨
              ∃ x, t.2 = [x] ∧ (e = x ∨ LeaseRefused id e)))
            (next (some row)) (s, [])) ∧
        (row.state = settledState answer →
          RemoteDb.EnsuresTold (fun r t => answer = .ok r ∧ Over id t.1.leases ∧ t.2 = [])
            (fun e t => answer = .error e ∧ Over id t.1.leases ∧ t.2 = [])
            (next (some row)) (s, [])) ∧
        (¬ (row.state = .active ∨ row.state = settledState answer) →
          RemoteDb.EnsuresTold (fun _ _ => False)
            (fun e t => LeaseRefused id e ∧ Over id t.1.leases ∧ t.2 = [])
            (next (some row)) (s, [])) := by
  obtain ⟨next, hlook, hnext⟩ :=
    terminalLease_looks (L := W.toLeaseHost) (settledState_mem answer) id
  cases answer with
  | ok result =>
    rw [settleOrFail, settle_ok, hlook]
    refine ⟨_, rfl, fun row s hrow => ⟨fun hgo => ?_, fun hgo => ?_, fun hgo => ?_⟩⟩
    · refine Relies.onRaise (Relies.bind ((told_onLeases ((hnext row _ [] hrow).1 hgo)).mono
        (fun _ t h u htu => ⟨rfl, Over.later h.1 htu.1, htu.2.symm.trans h.2⟩) ?_)) ?_
      · -- the handler finds the lease ended
        rintro x ⟨t, l⟩ ⟨hover, rfl⟩
        exact (told_onLeases (ensures_terminalLease (by decide) hover _)).mono
          (fun _ u h => ⟨h.1, Or.inr ⟨x, h.2, Or.inl rfl⟩⟩)
          fun e u h => ⟨h.2.1, Or.inr ⟨x, h.2.2, Or.inr h.1⟩⟩
      · rintro e t u ⟨hover, h⟩ htu
        exact ⟨Over.later hover htu.1, htu.2 ▸ h⟩
    · refine Relies.onRaise (Relies.bind ((told_onLeases ((hnext row _ [] hrow).2.1 hgo)).mono
        (fun _ t h u htu => ⟨rfl, Over.later h.1 htu.1, htu.2.symm.trans h.2⟩)
        fun _ _ h => h.elim)) ?_
      exact fun e t u h htu => ⟨h.1, Over.later h.2.1 htu.1, htu.2.symm.trans h.2.2⟩
    · refine Relies.onRaise (Relies.bind ((told_onLeases ((hnext row _ [] hrow).2.2 hgo)).mono
        (fun _ t h => h.elim) ?_)) ?_
      · -- the handler fails the lease, which may raise once more
        rintro x ⟨t, l⟩ ⟨hrefused, hover, rfl⟩
        exact (told_onLeases (ensures_terminalLease (by decide) hover _)).mono
          (fun _ u h => ⟨hrefused, h⟩) fun _ _ h => h
      · exact fun e t u h htu => ⟨h.1, Over.later h.2.1 htu.1, htu.2.symm.trans h.2.2⟩
  | error e =>
    have hfail : failLease W.toLeaseHost id = .stmt (.select id) next := hlook
    rw [settleOrFail, settle, hfail]
    refine ⟨_, rfl, fun row s hrow => ⟨fun hgo => ?_, fun hgo => ?_, fun hgo => ?_⟩⟩
    · exact Relies.bind ((told_onLeases ((hnext row _ [] hrow).1 hgo)).mono
        (fun _ t h u htu => ⟨Over.later h.1 htu.1, Or.inl ⟨rfl, htu.2.symm.trans h.2⟩⟩)
        fun x _ h => ⟨h.1, Or.inr ⟨x, h.2, Or.inl rfl⟩⟩)
    · exact Relies.bind ((told_onLeases ((hnext row _ [] hrow).2.1 hgo)).mono
        (fun _ t h u htu => ⟨rfl, Over.later h.1 htu.1, htu.2.symm.trans h.2⟩)
        fun _ _ h => h.elim)
    · exact Relies.bind ((told_onLeases ((hnext row _ [] hrow).2.2 hgo)).mono
        (fun _ t h => h.elim) fun _ _ h => h)

/-! ### How long a dispatch goes on -/

theorem endsIn_getLease (id : String) : (getLease id).EndsIn 1 := by
  refine EndsIn.bind (k := 0) (endsIn_issue _) fun row => ?_
  cases row with
  | some r => exact endsIn_pure 0 r
  | none => exact endsIn_raise 0 _

theorem endsIn_leaseNow (L : LeaseHost) : (leaseNow L).EndsIn 1 :=
  EndsIn.bind (k := 0) (endsIn_issue _) fun _ => endsIn_pure 0 _

theorem endsIn_emitLease (e : LeaseEvent) : (emitLease e).EndsIn 1 := by
  refine EndsIn.bind (k := 0) (endsIn_issue _) fun appended => ?_
  cases appended with
  | ok _ => exact endsIn_pure 0 _
  | error x => exact endsIn_raise 0 x

theorem endsIn_terminalLease (L : LeaseHost) (id : String) (target : LeaseState)
    (idempotent : Bool) : (terminalLease L id target idempotent).EndsIn 5 := by
  refine EndsIn.ite (endsIn_raise 5 _) (EndsIn.bind (k := 4) (endsIn_getLease id) fun current => ?_)
  refine EndsIn.ite (endsIn_pure 4 _) (EndsIn.ite (endsIn_raise 4 _) ?_)
  refine EndsIn.bind (k := 3) (endsIn_leaseNow L) fun now => ?_
  refine EndsIn.bind (k := 2) (endsIn_issue _) fun _ => ?_
  refine EndsIn.bind (k := 1) (endsIn_getLease id) fun updated => ?_
  exact EndsIn.bind (k := 0) (endsIn_emitLease _) fun _ => endsIn_pure 0 _

theorem endsIn_settleOrFail (id : String) (answer : Except Exc AdapterResult) :
    (settleOrFail W id answer).EndsIn 10 := by
  refine EndsIn.onRaise (n := 5) (k := 5) ?_ (EndsIn.lift (endsIn_terminalLease _ _ _ _))
  cases answer with
  | error e => exact endsIn_raise 5 e
  | ok result =>
    rw [settle_ok]
    exact EndsIn.bind (k := 0) (EndsIn.lift (endsIn_terminalLease _ _ _ _)) fun _ => endsIn_pure 0 _

/-! ### Runs -/

section Runs

variable {s : RemoteDb} {turns : List (Turn RemoteCall)}

theorem relied_start (s : RemoteDb) :
    ({ shared := s } : RemotePool).Relied RemoteDb.exec RemoteDb.Later RemoteDb.Guarantees :=
  fun i q hq => by cases hq

/-- Every process keeps to what the others rely on. -/
theorem relied_dispatchesAt (k : ℕ) :
    (dispatchesAt H W s turns k).Relied RemoteDb.exec RemoteDb.Later RemoteDb.Guarantees :=
  (relied_start s).stateAt later_execRemote ensures_prog k

/-- No lease vanishes, and none that has ended is active again. -/
theorem later_dispatchesAt {j k : ℕ} (hjk : j ≤ k) :
    RemoteDb.Later (dispatchesAt H W s turns j).shared (dispatchesAt H W s turns k).shared :=
  (relied_start s).shared_le later_execRemote ensures_prog hjk

/-- A package that is about to be sent names a lease that is known, and its end is what follows. -/
theorem sent_dispatchesAt {i k : ℕ} {node : NodeRecord} {package : Json}
    {next : ℕ → RemoteProg (Option AdapterResult)}
    (hsent : (dispatchesAt H W s turns k).procs i = some (.stmt (.execute node package) next)) :
    ∃ id, package.get "lease_id" = .str id ∧
      Known id (dispatchesAt H W s turns k).shared.leases ∧
      next = fun n => settleOrFail W id (W.answer n node package) >>= fun r => pure (some r) := by
  obtain ⟨⟨id, hid, hknown⟩, -⟩ := relied_dispatchesAt k i _ hsent _ (Std.Refl.refl _)
  obtain ⟨⟨id', hid', hnext⟩, -⟩ := Pool.allNext_stateAt (P := ThenHandsOn W) allNext_prog
    (fun i q hq => by cases hq) k i _ hsent
  obtain rfl : id = id' := Json.str.inj (hid.symm.trans hid')
  exact ⟨id, hid, hknown, hnext⟩

/-- Up to its next turn the process of a dispatch is about to end the lease. -/
theorem settling_dispatchesAt {i k l : ℕ} (hkl : k < l) {node : NodeRecord} {package : Json}
    {next : ℕ → RemoteProg (Option AdapterResult)}
    (hsent : (dispatchesAt H W s turns k).procs i = some (.stmt (.execute node package) next))
    (hk : turns[k]? = some (.next i))
    (hbetween : ∀ j, k < j → j < l → ∀ t ∈ turns[j]?, ¬ t.Replaces i ∧ t.isNext i = false) :
    (dispatchesAt H W s turns l).procs i =
      some (next (dispatchesAt H W s turns k).shared.executed) := by
  obtain ⟨hlt, hturn⟩ := List.getElem?_eq_some_iff.1 hk
  rw [dispatchesAt, Pool.procs_stay (j := k + 1) (by omega) fun j hj hjl =>
    hbetween j (by omega) hjl, Run.stateAt_succ hlt, hturn]
  exact (Pool.step_next _ _ hsent).1

/-- What the appends of a process to the log have raised from the turn `j` on, before the turn
`k`. -/
def raisedFrom (H : Host) (W : RemoteHost T) (s : RemoteDb) (turns : List (Turn RemoteCall))
    (i j k : ℕ) : List Exc :=
  Pool.toldFrom RemoteDb.exec (RemoteCall.prog H W) RemoteDb.raised { shared := s } turns i j k

/-- What a dispatch that found its lease in the state `st` returns or raises in the end, when its
appends to the log have raised `raised` since. -/
structure Settlement (id : String) (st : LeaseState) (answer : Except Exc AdapterResult)
    (raised : List Exc) (r : Except Exc (Option AdapterResult)) : Prop where
  /-- The answer is handed on, unless the append to the log fails. -/
  active : st = .active → raised = [] ∧ r = answer.map some ∨
    ∃ x e, raised = [x] ∧ r = .error e ∧ (e = x ∨ LeaseRefused id e)
  same : st = settledState answer → raised = [] ∧ r = answer.map some
  other : ¬ (st = .active ∨ st = settledState answer) →
    raised = [] ∧ ∃ e, r = .error e ∧ LeaseRefused id e

/-- What is left of a dispatch after its look at the lease. -/
theorem ensures_looked {id : String} {answer : Except Exc AdapterResult} {row : LeaseRow}
    {next : Option LeaseRow → RemoteProg AdapterResult} {s : RemoteDb}
    (hactive : row.state = .active →
      RemoteDb.EnsuresTold (fun r t => answer = .ok r ∧ Over id t.1.leases ∧ t.2 = [])
        (fun e t => Over id t.1.leases ∧ (answer = .error e ∧ t.2 = [] ∨
          ∃ x, t.2 = [x] ∧ (e = x ∨ LeaseRefused id e)))
        (next (some row)) (s, []))
    (hsame : row.state = settledState answer →
      RemoteDb.EnsuresTold (fun r t => answer = .ok r ∧ Over id t.1.leases ∧ t.2 = [])
        (fun e t => answer = .error e ∧ Over id t.1.leases ∧ t.2 = []) (next (some row)) (s, []))
    (hstop : ¬ (row.state = .active ∨ row.state = settledState answer) →
      RemoteDb.EnsuresTold (fun _ _ => False)
        (fun e t => LeaseRefused id e ∧ Over id t.1.leases ∧ t.2 = []) (next (some row)) (s, [])) :
    RemoteDb.EnsuresTold
      (fun r t => Over id t.1.leases ∧ Settlement id row.state answer t.2 (.ok r))
      (fun e t => Over id t.1.leases ∧ Settlement id row.state answer t.2 (.error e))
      (next (some row) >>= fun r => pure (some r)) (s, []) := by
  have hne : settledState answer ≠ .active := fun h =>
    absurd (h ▸ settledState_mem answer) (by decide)
  by_cases h₁ : row.state = .active
  · refine Relies.bind ((hactive h₁).mono (fun r t hr u htu => ⟨hr.2.1.later htu.1, ?_⟩)
      fun e t he =>
      ⟨he.1, ?_⟩)
    · rw [hr.1, ← htu.2, hr.2.2]
      exact ⟨fun _ => Or.inl ⟨rfl, rfl⟩, fun _ => ⟨rfl, rfl⟩, fun hno => absurd (Or.inl h₁) hno⟩
    · refine ⟨fun _ => ?_, fun h => absurd (h.symm.trans h₁) hne, fun hno => absurd (Or.inl h₁) hno⟩
      rcases he.2 with ⟨rfl, hraised⟩ | ⟨x, hraised, he⟩
      · exact Or.inl ⟨hraised, rfl⟩
      · exact Or.inr ⟨x, e, hraised, rfl, he⟩
  by_cases h₂ : row.state = settledState answer
  · refine Relies.bind ((hsame h₂).mono (fun r t hr u htu => ⟨hr.2.1.later htu.1, ?_⟩) fun e t he =>
      ⟨he.2.1, ?_⟩)
    · rw [← htu.2, hr.2.2]
      exact ⟨fun h => absurd h h₁, fun _ => ⟨rfl, by rw [hr.1]; rfl⟩,
        fun hno => absurd (Or.inr h₂) hno⟩
    · rw [he.2.2]
      exact ⟨fun h => absurd h h₁, fun _ => ⟨rfl, by rw [he.1]; rfl⟩,
        fun hno => absurd (Or.inr h₂) hno⟩
  · refine Relies.bind ((hstop (not_or.2 ⟨h₁, h₂⟩)).mono (fun _ _ hf => hf.elim) fun e t he =>
      ⟨he.2.1, ?_⟩)
    exact ⟨fun h => absurd h h₁, fun h => absurd h h₂, fun _ => ⟨he.2.2, e, rfl, he.1⟩⟩

/-- **A dispatch hands on what its executor answered exactly when it finds its lease in the state
that it is to end in, or active and its append to the log does not fail.**  Otherwise it raises what
the append raised or that the lease is not active, and the answer is lost.  When it is over the
lease has ended, and it is over after ten more turns of its own. -/
theorem dispatch_delivers {i k l m : ℕ} (hkl : k < l) (hlm : l < m) {node : NodeRecord}
    {package : Json} {next : ℕ → RemoteProg (Option AdapterResult)}
    (hsent : (dispatchesAt H W s turns k).procs i = some (.stmt (.execute node package) next))
    (hk : turns[k]? = some (.next i)) (hl : turns[l]? = some (.next i))
    (hbetween : ∀ j, k < j → j < l → ∀ t ∈ turns[j]?, t.isNext i = false)
    (hown : ∀ j, k < j → j < m → ∀ t ∈ turns[j]?, ¬ t.Replaces i) :
    ∃ id x st, package.get "lease_id" = .str id ∧ (dispatchesAt H W s turns m).procs i = some x ∧
      (dispatchesAt H W s turns l).shared.leases.stateOf id = some st ∧
      (11 ≤ ((turns.take m).drop k).countP (Turn.isNext i) → x.isDone = true) ∧
      (x.isDone = true → Over id (dispatchesAt H W s turns m).shared.leases ∧
        ∃ r, x = ofExcept r ∧ Settlement id st
          (W.answer (dispatchesAt H W s turns k).shared.executed node package)
          (raisedFrom H W s turns i (l + 1) m) r) := by
  obtain ⟨id, hid, hknown, rfl⟩ := sent_dispatchesAt hsent
  have hproc := settling_dispatchesAt hkl hsent hk fun j hkj hjl t ht =>
    ⟨hown j hkj (by omega) t ht, hbetween j hkj hjl t ht⟩
  obtain ⟨st, hst⟩ := hknown.later (later_dispatchesAt hkl.le)
  obtain ⟨row, hrow, rfl⟩ := Option.map_eq_some_iff.1 hst
  obtain ⟨looks, hlook, hlooks⟩ := settleOrFail_looks (W := W) id
    (W.answer (dispatchesAt H W s turns k).shared.executed node package)
  obtain ⟨hactive, hsame, hstop⟩ := hlooks row _ hrow
  have hrest := ensures_looked hactive hsame hstop
  rw [hlook] at hproc
  -- the turn at which it looks
  obtain ⟨hlt, hturn⟩ := List.getElem?_eq_some_iff.1 hl
  obtain ⟨hnext, hshared⟩ := Pool.step_next RemoteDb.exec (RemoteCall.prog H W) hproc
  have hfound : (LeaseDb.exec (.select id) (dispatchesAt H W s turns l).shared.leases).1 =
      some row := hrow
  have hafter : (dispatchesAt H W s turns (l + 1)).procs i =
        some (looks (some row) >>= fun r => pure (some r)) ∧
      (dispatchesAt H W s turns (l + 1)).shared = (dispatchesAt H W s turns l).shared := by
    rw [dispatchesAt, Run.stateAt_succ hlt, hturn]
    exact ⟨hnext.trans (by rw [← hfound]; rfl), hshared⟩
  rw [← hafter.2] at hrest
  obtain ⟨x, hx, hends⟩ := (relied_start s).follow later_execRemote ensures_prog
    (by omega : l + 1 ≤ m) (fun j hj hjm => hown j (by omega) hjm) hafter.1 hrest
  refine ⟨id, x, row.state, hid, hx, hst, fun hcount => ?_, fun hdone => ?_⟩
  · have hstays : ∀ j, k ≤ j → j < m → ∀ t ∈ turns[j]?, ¬ t.Replaces i := by
      intro j hj hjm t ht
      rcases Nat.eq_or_lt_of_le hj with rfl | hj
      · rw [hk] at ht
        exact Option.mem_some_iff.1 ht ▸ not_false
      · exact hown j hj hjm t ht
    obtain ⟨x', hx', hshort⟩ := Pool.exists_rest (by omega : k ≤ m) hstays hsent
    obtain rfl : x = x' := Option.some.inj (hx.symm.trans hx')
    refine isDone_of_endsIn (hshort 0 (EndsIn.mono (n := 11) (fun r => ?_) (by omega)))
    exact EndsIn.bind (k := 0) (endsIn_settleOrFail id _) fun _ => endsIn_pure 0 _
  · cases x with
    | ret r =>
      obtain ⟨hover, hr⟩ := hends _ (Std.Refl.refl _)
      exact ⟨hover, .ok r, rfl, hr⟩
    | raise e =>
      obtain ⟨hover, he⟩ := hends _ (Std.Refl.refl _)
      exact ⟨hover, .error e, rfl, he⟩
    | stmt m next => cases hdone

end Runs

/-! ### A worker that answers late -/

namespace LateWorker

/-- A worker that answers when the lease has expired. -/
def host : RemoteHost tenMinutes where
  now n := if n < 3 then "2026-01-01T00:00:00Z" else "2026-01-01T00:09:00Z"
  expiresAt _ _ := .ok "2026-01-01T00:05:00Z"
  leaseId n := "lease_00" ++ toString n
  digest _ _ := some "sha256:1"
  moment _ := (1767225600000000 : ℤ)
  later m _ := .ok m
  uuid n := toString n
  answer _ _ _ := .ok { ok := true }
  answer_ne _ _ _ := by simp

/-- A trusted worker. -/
def db : RemoteDb where
  leases := { nodes := [{ id := "node_abc", role := "worker", trusted := true }] }
  columns _ := { capabilityDigest := some "sha256:1" }

theorem isObj_noInputs : (Json.mkObj []).isObj = true := rfl

theorem wf_noInputs : (Json.mkObj []).WF := ⟨List.Pairwise.nil, trivial⟩

/-- A node that is placed on the worker. -/
def args : DispatchArgs where
  graphId := "g"
  workNode := {
    id := "w"
    graphId := "g"
    kind := .task
    objective := "o"
    requires := []
    risk := .str "low"
    approvalRequired := false
    independentReview := false
    evidenceRequired := false
    expectedOutputs := []
    retry := {}
    placement := { mode := "node", nodeId := .str "node_abc" }
    metadata := .mkObj [] }
  capabilityId := "capability-1"
  inputs := .mkObj []
  inputs_obj := isObj_noInputs
  inputs_wf := wf_noInputs
  timeoutS := 300

/-- While the worker runs, another process expires what is stale. -/
def turns : List (Turn RemoteCall) :=
  .call 0 (.invoke args) :: List.replicate 14 (.next 0) ++
    [.call 1 (.lease .expire), .next 1, .next 1, .next 0, .next 0]

end LateWorker

/-- The process is about to call the executor. -/
def Prog.sends {α : Type} : RemoteProg α → Bool
  | .stmt (.execute _ _) _ => true
  | _ => false

theorem Prog.exists_of_sends {α : Type} {q : RemoteProg α} (h : q.sends = true) :
    ∃ node package next, q = .stmt (.execute node package) next := by
  unfold Prog.sends at h
  split at h
  · exact ⟨_, _, _, rfl⟩
  · cases h

/-- The worker has done its work, and the dispatch raises. -/
theorem dispatch_delivers_late :
    ∃ leaseId e, LeaseRefused leaseId e ∧
      (dispatchesAt (Host.quick id) LateWorker.host LateWorker.db LateWorker.turns 20).procs 0 =
        some (.raise e) ∧
      (dispatchesAt (Host.quick id) LateWorker.host LateWorker.db LateWorker.turns
        20).shared.executed = 1 := by
  have hsends : ((dispatchesAt (Host.quick id) LateWorker.host LateWorker.db LateWorker.turns
      14).procs 0).any Prog.sends = true := by decide +kernel
  have hdone : ((dispatchesAt (Host.quick id) LateWorker.host LateWorker.db LateWorker.turns
      20).procs 0).all Prog.isDone = true := by decide +kernel
  have hexpired : ∀ r ∈ (dispatchesAt (Host.quick id) LateWorker.host LateWorker.db LateWorker.turns
      18).shared.leases.leases, r.state = .expired := by decide +kernel
  have hothers : ∀ j < 20, 14 < j → LateWorker.turns[j]?.all (fun t =>
      (decide ¬ t.Replaces 0) && (!t.isNext 0 || decide (18 ≤ j))) = true := by decide
  have hturn : ∀ j, 14 < j → j < 20 → ∀ t ∈ LateWorker.turns[j]?,
      ¬ t.Replaces 0 ∧ (t.isNext 0 = false ∨ 18 ≤ j) := by
    intro j hj hj' t ht
    have h := hothers j hj' hj
    rw [Option.mem_def.1 ht] at h
    simpa using h
  obtain ⟨q, hq, hs⟩ := (Option.any_eq_true _ _).1 hsends
  obtain ⟨node, package, next, rfl⟩ := exists_of_sends hs
  obtain ⟨leaseId, x, st, -, hx, hst, -, hend⟩ := dispatch_delivers (k := 14) (l := 18) (m := 20)
    (by decide) (by decide) hq rfl rfl
    (fun j hj hj' t ht => (hturn j hj (by omega) t ht).2.resolve_right (by omega))
    (fun j hj hj' t ht => (hturn j hj hj' t ht).1)
  rw [hx] at hdone
  obtain ⟨r, hr, rfl⟩ := Option.map_eq_some_iff.1 hst
  obtain ⟨-, r', rfl, hsettled⟩ := hend hdone
  rw [hexpired r (List.mem_of_find?_eq_some hr)] at hsettled
  obtain ⟨-, e, rfl, he⟩ := hsettled.other (by simp [settledState, LateWorker.host])
  exact ⟨leaseId, e, he, hx, by decide +kernel⟩

end Shiroe
