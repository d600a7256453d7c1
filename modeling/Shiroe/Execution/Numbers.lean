import Mathlib.Algebra.Order.Ring.Rat
import Shiroe.Execution.Recording
import Shiroe.Execution.Spending
import Shiroe.Work.Progress

/-!
# The numbers of attempts

Every run counts the attempts that are recorded for a node and goes on from there, so over all runs
the attempts of a node have the numbers from one on, and no executor is called without one.

* `attempts_numbered` : the numbers and the calls after any sequence of runs, each of which may end
  anywhere, for a node whose `max_attempts` is no fraction above one;
* `not_attempts_numbered` : a node with two and a half attempts is tried three times.
-/

namespace Shiroe

open Act
open Process (Inv)

/-! ### How often a node may be tried -/

/-- `k ≤ x` for a number `x`. -/
def notAbove (k : ℕ) : Json → Bool
  | .int m => (k : ℤ) ≤ m
  | .bool b => k ≤ if b then 1 else 0
  | .float x => if x.isFinite then (k : ℚ) ≤ x.value else x.repr = "Infinity"
  | _ => false

namespace RetryPolicy

variable {retry : RetryPolicy} {k n : ℕ}

/-- `k ≤ max(1, max_attempts)`. -/
def Allows (retry : RetryPolicy) (k : ℕ) : Prop := k ≤ 1 ∨ notAbove k retry.maxAttempts = true

instance : Decidable (retry.Allows k) := inferInstanceAs (Decidable (_ ∨ _))

/-- `max_attempts` is no fraction above one. -/
def isWhole (retry : RetryPolicy) : Bool :=
  match retry.maxAttempts with
  | .float x => !x.isFinite || decide (x.value ≤ 1) || decide (x.value.den = 1)
  | _ => true

theorem Allows.mono (h : retry.Allows n) (hk : k ≤ n) : retry.Allows k := by
  rcases h with h | h
  · exact Or.inl (by omega)
  · right
    unfold notAbove at h ⊢
    split at h
    · simp only [decide_eq_true_eq] at h ⊢
      omega
    · simp only [decide_eq_true_eq] at h ⊢
      omega
    · split at h
      · rename_i hfinite
        simp only [hfinite, if_true, decide_eq_true_eq] at h ⊢
        exact le_trans (by exact_mod_cast hk) h
      · rename_i hinfinite
        rwa [if_neg hinfinite]
    · cases h

/-- A node that may be tried once more may be tried that often. -/
theorem allows_succ (hwhole : retry.isWhole = true) (h : Supervisor.mayTry retry n = .ok true) :
    retry.Allows (n + 1) := by
  obtain ⟨below, hbelow, h⟩ := except_bind_eq_ok.1 h
  have h := Except.ok.inj h
  simp only [Bool.or_eq_true, decide_eq_true_eq] at h
  by_cases hn : n < 1
  · exact Or.inl (by omega)
  · right
    rw [or_iff_right hn] at h
    subst h
    unfold Supervisor.belowNumber at hbelow
    unfold isWhole at hwhole
    unfold notAbove
    cases hmax : retry.maxAttempts with
    | int m =>
      rw [hmax] at hbelow
      have := of_decide_eq_true (Except.ok.inj hbelow)
      simp only [decide_eq_true_eq]
      omega
    | bool b =>
      rw [hmax] at hbelow
      have := of_decide_eq_true (Except.ok.inj hbelow)
      simp only [decide_eq_true_eq]
      omega
    | float x =>
      rw [hmax] at hbelow hwhole
      have hbelow := Except.ok.inj hbelow
      by_cases hf : x.isFinite = true
      · simp only [hf, if_true, decide_eq_true_eq, Bool.not_true, Bool.false_or,
          Bool.or_eq_true] at hbelow hwhole ⊢
        rcases hwhole with hle | hden
        · -- a fraction up to one leaves room for the first attempt alone
          have : (n : ℚ) < 1 := hbelow.trans_le hle
          exact absurd (by exact_mod_cast this) hn
        · have hnum : x.value = (x.value.num : ℚ) := ((Rat.den_eq_one_iff _).1 hden).symm
          rw [hnum] at hbelow ⊢
          have : (n : ℤ) < x.value.num := by exact_mod_cast hbelow
          exact_mod_cast this
      · rw [if_neg hf] at hbelow
        dsimp only
        rw [if_neg hf]
        exact hbelow
    | null => rw [hmax] at hbelow; cases hbelow
    | str s => rw [hmax] at hbelow; cases hbelow
    | arr l => rw [hmax] at hbelow; cases hbelow
    | obj d => rw [hmax] at hbelow; cases hbelow

end RetryPolicy

/-! ### Numbers -/

/-- The numbers from one to `k`, as a column holds them. -/
def numbers (k : ℕ) : List SqlVal := (List.range k).map fun i : ℕ => .int ((i : ℤ) + 1)

/-- The numbers of the attempts of a node, in the order of their rows. -/
def Db.numbersOf (db : Db) (nodeId : String) : List SqlVal := (db.attemptsOf nodeId).map (·.attempt)

theorem numbers_succ (k : ℕ) : numbers (k + 1) = numbers k ++ [.int (k + 1)] := by
  rw [numbers, List.range_succ, List.map_append]
  rfl

theorem nextNumber_eq {rows : List AttemptRow} {k : ℕ} (h : rows.map (·.attempt) = numbers k) :
    nextNumber rows = k + 1 := by
  have hints : rows.filterMap (·.attempt.int?) = (List.range k).map fun i : ℕ => (i : ℤ) + 1 := by
    have := congrArg (List.filterMap SqlVal.int?) h
    rw [List.filterMap_map, numbers, List.filterMap_map] at this
    rw [show (fun r : AttemptRow => r.attempt.int?) = SqlVal.int? ∘ fun r => r.attempt from rfl,
      this]
    exact congrFun (List.filterMap_eq_map (f := fun i : ℕ => (i : ℤ) + 1)) _
  rw [nextNumber, hints]
  cases k with
  | zero => rfl
  | succ k =>
    have hmax : ((List.range (k + 1)).map fun i : ℕ => (i : ℤ) + 1).max? = some (k + 1 : ℤ) := by
      rw [List.max?_eq_some_iff]
      refine ⟨List.mem_map.2 ⟨k, by simp, rfl⟩, fun b hb => ?_⟩
      obtain ⟨i, hi, rfl⟩ := List.mem_map.1 hb
      have := List.mem_range.1 hi
      omega
    rw [hmax]
    rfl

/-! ### The tables between the calls -/

/-- The retry policy that a column holds. -/
def retryOf (v : SqlVal) : Except Exc RetryPolicy := do
  RetryPolicy.make (← v.loadsOr (.mkObj []))

/-- The node `v` has its retry policy, the redaction pass leaves the ids of the nodes as they are,
and the rows of the attempts hold what they have to. -/
structure TablesFit (H : Host) (v : String) (retry : RetryPolicy) (w : World) : Prop where
  policy : ∀ r ∈ w.db.workNodes, r.id = .text v → retryOf r.retryJson = .ok retry
  nodeIds : ∀ r ∈ w.db.workNodes, ∀ u, r.id = .text u → H.scrub u = u
  filled : ∀ a ∈ w.db.workAttempts, a.Filled

/-- None of the first `N` ids is one of an attempt before it is drawn. -/
def Unused (H : Host) (N : ℕ) (w : World) : Prop :=
  ∀ a ∈ w.db.workAttempts, ∀ n, w.drawn ≤ n → n < N → a.id ≠ .text (attemptId H n)

/-- The redaction pass leaves the ids of attempts as they are, and no two of the first `N` that are
drawn are equal. -/
structure GoodIds (H : Host) (N : ℕ) : Prop where
  kept : ∀ n, H.scrub (attemptId H n) = attemptId H n
  distinct : ∀ m n, m < N → n < N → attemptId H m = attemptId H n → m = n

variable {H : Host} {N : ℕ} {v : String} {retry : RetryPolicy}

/-- What is asked of the nodes depends on their policies alone. -/
theorem TablesFit.of_policies {w w' : World} (h : TablesFit H v retry w)
    (hp : w'.db.workNodes.map NodeRow.policy = w.db.workNodes.map NodeRow.policy)
    (hfilled : ∀ a ∈ w'.db.workAttempts, a.Filled) : TablesFit H v retry w' := by
  have hrow : ∀ r ∈ w'.db.workNodes, ∃ r' ∈ w.db.workNodes, r'.id = r.id ∧
      r'.retryJson = r.retryJson := by
    intro r hr
    have hmem := List.mem_map_of_mem (f := NodeRow.policy) hr
    rw [hp] at hmem
    obtain ⟨r', hr', he⟩ := List.mem_map.1 hmem
    exact ⟨r', hr', (Prod.mk.inj he).1, (Prod.mk.inj he).2⟩
  refine ⟨fun r hr hid => ?_, fun r hr u hid => ?_, hfilled⟩
  · obtain ⟨r', hr', hid', hretry⟩ := hrow r hr
    rw [← hretry]
    exact h.policy r' hr' (hid'.trans hid)
  · obtain ⟨r', hr', hid', -⟩ := hrow r hr
    exact h.nodeIds r' hr' u (hid'.trans hid)

/-- What another program, or an executor, may do between and in the calls of a run: it leaves the
attempts of the node `v` alone. -/
structure Apart (H : Host) (N : ℕ) (v : String) (retry : RetryPolicy) (w w' : World) : Prop where
  tables : TablesFit H v retry w → TablesFit H v retry w'
  unused : Unused H N w → Unused H N w'
  drawn : w.drawn ≤ w'.drawn
  rows : w'.db.numbersOf v = w.db.numbersOf v

theorem Aside.apart {w w' : World} (h : Aside w w') : Apart H N v retry w w' := by
  obtain ⟨hrows, hpolicies⟩ := Prod.mk.inj h.trials
  refine ⟨fun hf => hf.of_policies hpolicies ?_, fun hu a ha n hn => ?_, h.drawn, ?_⟩
  · rw [hrows]
    exact hf.filled
  · rw [hrows] at ha
    exact hu a ha n (h.drawn.trans hn)
  · rw [Db.numbersOf, Db.numbersOf, Db.attemptsOf, Db.attemptsOf, hrows]

/-- A row that is filled leaves all rows filled. -/
theorem Put.tablesFit {w w' : World} {r : AttemptRow} (h : Put r w w') (hr : r.Filled)
    (hf : TablesFit H v retry w) : TablesFit H v retry w' := by
  refine hf.of_policies h.policies fun a ha => ?_
  rw [h.rows, AttemptRow.putIn] at ha
  split at ha
  · obtain ⟨a', ha', rfl⟩ := Table.mem_update.1 ha
    have hfilled := hf.filled a' ha'
    split
    · exact ⟨hfilled.graphId, hfilled.nodeId, hfilled.attempt, hr.state⟩
    · exact hfilled
  · rcases List.mem_append.1 ha with ha | ha
    · exact hf.filled a ha
    · rw [List.mem_singleton.1 ha]
      exact hr

/-- An update of other columns leaves the numbers of a node. -/
theorem numbersOf_update {rows : List AttemptRow} {p : AttemptRow → Bool} {r : AttemptRow} :
    ((Table.update p r.over rows).filter fun a => a.nodeId = .text v).map (·.attempt) =
      (rows.filter fun a => a.nodeId = .text v).map (·.attempt) := by
  rw [Table.update, List.filter_map, List.map_map]
  have hnode : ((fun a : AttemptRow => decide (a.nodeId = .text v)) ∘
      fun a => if p a then r.over a else a) = fun a => decide (a.nodeId = .text v) := by
    funext a
    by_cases h : p a <;> simp [h, AttemptRow.over]
  rw [hnode]
  refine List.map_congr_left fun a _ => ?_
  by_cases h : p a <;> simp [h, AttemptRow.over]

/-- The row of an attempt that starts comes last. -/
theorem Put.started {w w' : World} {r : AttemptRow} {nodeId : String} {n : ℤ} (hids : GoodIds H N)
    (hu : Unused H N w) (hr : r.Starts H (attemptId H w.drawn) nodeId n)
    (hput : Put r w w') (hdrawn : w.drawn < w'.drawn) (hN : w'.drawn ≤ N) :
    Unused H N w' ∧ w'.db.numbersOf v =
      w.db.numbersOf v ++ if H.scrub nodeId = v then [.int n] else [] := by
  have hid : r.id = .text (attemptId H w.drawn) := by rw [hr.id, hids.kept]
  have hnew : w.db.workAttempts.any r.conflicts = false := by
    rw [List.any_eq_false]
    intro a ha hconflicts
    have : a.id = r.id := by
      simpa [AttemptRow.conflicts] using (Bool.and_eq_true_iff.1 hconflicts).2
    exact hu a ha w.drawn le_rfl (by omega) (this.trans hid)
  have hrows : w'.db.workAttempts = w.db.workAttempts ++ [r] := by
    rw [hput.rows, AttemptRow.putIn, hnew]
    rfl
  constructor
  · intro a ha m hm hmN he
    rw [hrows, List.mem_append, List.mem_singleton] at ha
    rcases ha with ha | rfl
    · exact hu a ha m (by omega) hmN he
    · rw [hid] at he
      have := hids.distinct _ _ (by omega) hmN (SqlVal.text.inj he)
      omega
  · rw [Db.numbersOf, Db.attemptsOf, hrows, List.filter_append, List.map_append]
    congr 1
    by_cases h : H.scrub nodeId = v
    · rw [if_pos h, ← hr.attempt]
      simp [hr.nodeId, h]
    · rw [if_neg h]
      simp [hr.nodeId, h]

/-- The row of an attempt that ends keeps its place. -/
theorem Put.finished {w w' : World} {r : AttemptRow} {id : String} {e : AttemptEnd}
    (hid : H.scrub id = id) (hu : Unused H N w) (hr : r.Finishes H id e)
    (hrow : ∃ row ∈ w.db.workAttempts, row.id = .text id) (hput : Put r w w') :
    Unused H N w' ∧ w'.db.numbersOf v = w.db.numbersOf v := by
  have hrid : r.id = .text id := by rw [hr.id, hid]
  have hold : w.db.workAttempts.any r.conflicts = true := by
    obtain ⟨row, hmem, he⟩ := hrow
    exact List.any_eq_true.2 ⟨row, hmem, by simp [AttemptRow.conflicts, hrid, he]⟩
  have hrows : w'.db.workAttempts = Table.update r.conflicts r.over w.db.workAttempts := by
    rw [hput.rows, AttemptRow.putIn, if_pos hold]
  constructor
  · intro a ha m hm
    rw [hrows] at ha
    obtain ⟨a', ha', rfl⟩ := Table.mem_update.1 ha
    have hunused := hu a' ha' m (hput.drawn.trans hm)
    split <;> exact hunused
  · rw [Db.numbersOf, Db.attemptsOf, hrows]
    exact numbersOf_update

/-! ### What holds in a run -/

/-- The executor of the node `v` is called. -/
def Mark.invokes (v : String) : Mark → Bool
  | .invoked n _ => n.id = v
  | _ => false

/-- How often the executor of a node was called in a run. -/
def invocations (v : String) (l : List (Mark × World)) : ℕ := l.countP fun m => m.1.invokes v

theorem invocations_append (l : List (Mark × World)) (m : Mark) (w : World) :
    invocations v (l ++ [(m, w)]) = invocations v l + if m.invokes v then 1 else 0 := by
  rw [invocations, List.countP_append, List.countP_singleton]
  rfl

/-- As long as no more than `N` ids are drawn, the attempts of the node `v` are numbered, there are
no more than its policy allows, and `spare` of them are left over when the calls of its executor are
counted, from `before` on. -/
def Numbered (H : Host) (N : ℕ) (v : String) (retry : RetryPolicy) (before spare : ℕ)
    (cap : ℕ → Prop) :
    RunFact := fun w _ l =>
  TablesFit H v retry w ∧ (w.drawn ≤ N → Unused H N w ∧ ∃ k, w.db.numbersOf v = numbers k ∧
    retry.Allows k ∧ before + invocations v l + spare ≤ k ∧ cap k)

/-- What is asked of a supervisor: the others and its dispatcher leave the attempts of the node
alone. -/
structure StaysApart (H : Host) (N : ℕ) (v : String) (retry : RetryPolicy) (S : Supervisor) :
    Prop where
  moves : ∀ n w, Apart H N v retry w (S.others.moves n w)
  dispatch : ∀ graphId n call w, Act.wp (S.dispatch graphId n call) (fun _ => Apart H N v retry w)
    (fun _ => Apart H N v retry w) w

namespace Numbered

variable {S : Supervisor} {before spare : ℕ} {cap cap' : ℕ → Prop}

theorem apart {w w' : World} {t : RunState} {l : List (Mark × World)}
    (h : Numbered H N v retry before spare cap w t l) (ha : Apart H N v retry w w') :
    Numbered H N v retry before spare cap w' t l := by
  refine ⟨ha.tables h.1, fun hN => ?_⟩
  obtain ⟨hunused, k, hk, hrest⟩ := h.2 (ha.drawn.trans hN)
  exact ⟨ha.unused hunused, k, ha.rows.trans hk, hrest⟩

theorem mono {spare' : ℕ} (hspare : spare' ≤ spare) (hcap : ∀ k, cap k → cap' k) (w : World)
    (t : RunState) (l : List (Mark × World)) (h : Numbered H N v retry before spare cap w t l) :
    Numbered H N v retry before spare' cap' w t l := by
  refine ⟨h.1, fun hN => ?_⟩
  obtain ⟨hunused, k, hk, hallows, hcount, hk'⟩ := h.2 hN
  exact ⟨hunused, k, hk, hallows, by omega, hcap k hk'⟩

/-- A mark that calls no executor of the node. -/
theorem note {m : Mark} (hm : m.invokes v = false) (w : World) (t : RunState)
    (l : List (Mark × World)) (h : Numbered H N v retry before spare cap w t l) :
    Numbered H N v retry before spare cap w t (l ++ [(m, w)]) := by
  rw [Numbered, invocations_append, hm]
  exact h

theorem routine (hS : StaysApart H N v retry S) :
    Routine H S (Numbered H N v retry before spare cap) where
  moves n w t l h := h.apart (hS.moves n w)
  calls hx t l w h := wp_mono (hx.aside w) (fun _ _ ha => h.apart ha.apart)
    fun _ _ ha => h.apart ha.apart
  marks m hm w t l h := by
    refine h.note ?_
    cases m <;> first | rfl | cases hm
  lists w t t' l _ h := h

variable (hids : GoodIds H N) (hS : StaysApart H N v retry S)

theorem ends (hcap : ∀ k, cap k → cap' k) (spare : ℕ) :
    Ends (Numbered H N v retry before spare cap) (fun _ _ _ => True)
      (Numbered H N v retry before 0 cap') :=
  ⟨fun _ _ _ _ => trivial, mono (Nat.zero_le _) hcap⟩

include hS

theorem await : Keeps (Inv (Numbered H N v retry before spare cap))
    (Process.await S.others Exc.killed) := (routine hS).await

/-- The end of an attempt. -/
theorem finish {id : String} (hid : H.scrub id = id) (state : AttemptEnd) (error : Option String)
    (usage : Json) : Keeps (Inv (Numbered H N v retry before spare cap))
      (S.finish H id state error usage) := by
  refine Keeps.bind (await hS) fun _ => Keeps.bind (Process.keeps_note (note rfl)) fun _ =>
    Process.keeps_lift fun t l w h => ?_
  refine wp_mono (finishAttempt_spec S.log id state error usage w h.1.filled)
    (fun _ w' hw' => ?_) fun _ w' ha => apart h ha.apart
  obtain ⟨hrow, r, hr, hput⟩ := hw'
  refine ⟨hput.tablesFit hr.filled h.1, fun hN => ?_⟩
  obtain ⟨hunused, k, hk, hrest⟩ := h.2 (hput.drawn.trans hN)
  obtain ⟨hunused', hrows⟩ := hput.finished hid hunused hr hrow
  exact ⟨hunused', k, hrows.trans hk, hrest⟩

theorem checkResult {id : String} (hid : H.scrub id = id) (n : WorkNode) (result : AdapterResult) :
    Keeps (Inv (Numbered H N v retry before spare cap)) (S.checkResult H n id result) := by
  have hfail : ∀ error message, Keeps (Inv (Numbered H N v retry before spare cap))
      (S.failAttempt (α := Unit) H id error result.usage message) := fun _ _ =>
    Keeps.bind (finish hS hid _ _ _) fun _ => Keeps.throw _
  refine Keeps.ite (fun _ => hfail _ _) fun _ => (Keeps.ofExcept _).bind fun _ => ?_
  exact Keeps.ite (fun _ => hfail _ _) fun _ =>
    Keeps.ite (fun _ => hfail _ _) fun _ => Keeps.pure _

theorem settleAttempt {id : String} (hid : H.scrub id = id) (n : WorkNode)
    (result : AdapterResult) :
    Keeps (Inv (Numbered H N v retry before spare cap)) (S.settleAttempt H n id result) :=
  Keeps.bind (Process.keeps_recollect _) fun _ => (Keeps.ofExcept _).bind fun _ =>
    Keeps.bind (Process.keeps_remember fun _ _ _ h => h) fun _ =>
      Keeps.bind (finish hS hid _ _ _) fun _ =>
        Keeps.bind ((routine hS).step (.nodeStateVersion ..)) fun _ =>
          Keeps.bind ((routine hS).step (.recordOutput ..)) fun _ =>
            Keeps.bind ((routine hS).note rfl) fun _ => Keeps.pure _

end Numbered

/-! ### An attempt -/

namespace Numbered

variable {S : Supervisor} {before : ℕ} (hids : GoodIds H N) (hS : StaysApart H N v retry S)
  (hwhole : retry.isWhole = true) {n : WorkNode}
    (hn : (n.id = v → n.retry = retry) ∧ H.scrub n.id = n.id)

/-- `k` attempts of the node that is tried are counted. -/
abbrev Counted (H : Host) (N : ℕ) (v : String) (retry : RetryPolicy) (before : ℕ) (n : WorkNode)
    (k : ℕ) :
    RunFact := Numbered H N v retry before 0 fun k' => n.id = v → k' ≤ k

/-- An attempt of the node is recorded whose executor is not called yet. -/
abbrev Recorded (H : Host) (N : ℕ) (v : String) (retry : RetryPolicy) (before : ℕ) (n : WorkNode)
    (k : ℕ) :
    RunFact := Numbered H N v retry before (if n.id = v then 1 else 0) fun k' => n.id = v → k' ≤ k

theorem Recorded.counted {k : ℕ} (w : World) (t : RunState) (l : List (Mark × World))
    (h : Recorded H N v retry before n k w t l) : Counted H N v retry before n k w t l :=
  mono (Nat.zero_le _) (fun _ => id) w t l h

/-- An attempt may be counted that leaves no row. -/
theorem Counted.succ {k : ℕ} (w : World) (t : RunState) (l : List (Mark × World))
    (h : Counted H N v retry before n k w t l) : Counted H N v retry before n (k + 1) w t l :=
  mono le_rfl (fun _ hk hv => (hk hv).trans (Nat.le_succ k)) w t l h

/-- The call of the executor is counted. -/
theorem Recorded.invoked {k : ℕ} {call : Invocation} (w : World) (t : RunState)
    (l : List (Mark × World)) (h : Recorded H N v retry before n k w t l) :
    Counted H N v retry before n k w t (l ++ [(.invoked n call, w)]) := by
  refine ⟨h.1, fun hN => ?_⟩
  obtain ⟨hunused, k', hk, hallows, hcount, hcap⟩ := h.2 hN
  refine ⟨hunused, k', hk, hallows, ?_, hcap⟩
  rw [invocations_append]
  by_cases hv : n.id = v <;> simp only [Mark.invokes, hv, if_true, if_false, decide_true,
    decide_false, Bool.false_eq_true] at hcount ⊢ <;> omega

include hids hwhole hn

/-- The row of an attempt that starts. -/
theorem Counted.recorded {k : ℕ} {w w' : World} {t : RunState} {l : List (Mark × World)}
    {r : AttemptRow} (hmay : Supervisor.mayTry n.retry k = .ok true)
    (h : Counted H N v retry before n k w t l)
    (hr : r.Starts H (attemptId H w.drawn) n.id (nextNumber (w.db.attemptsOf n.id)))
    (hput : Put r w w') (hdrawn : w.drawn < w'.drawn) :
    Recorded H N v retry before n (k + 1) w' t l := by
  refine ⟨hput.tablesFit hr.filled h.1, fun hN => ?_⟩
  obtain ⟨hunused, k', hk, hallows, hcount, hcap⟩ := h.2 (hdrawn.le.trans hN)
  obtain ⟨hunused', hrows⟩ := hput.started hids hunused hr hdrawn hN
  rw [hn.2] at hrows
  by_cases hv : n.id = v
  · have hk' := hcap hv
    have hnext : nextNumber (w.db.attemptsOf n.id) = k' + 1 := nextNumber_eq (by rw [hv]; exact hk)
    have hmax : retry.Allows (k + 1) := RetryPolicy.allows_succ hwhole (hn.1 hv ▸ hmay)
    refine ⟨hunused', k' + 1, ?_, hmax.mono (by omega), ?_, fun _ => by omega⟩
    · rw [hrows, if_pos hv, hk, hnext, numbers_succ]
    · rw [if_pos hv]
      omega
  · refine ⟨hunused', k', ?_, hallows, ?_, fun h => absurd h hv⟩
    · rw [hrows, if_neg hv, List.append_nil, hk]
    · rw [if_neg hv]
      exact hcount

omit hids hwhole hn

include hS

/-- The call of the executor. -/
theorem invokeExecutor {k : ℕ} (graphId : String) (call : Invocation) :
    ∀ p, Inv (Recorded H N v retry before n k) p → Act.wp (S.invokeExecutor H graphId n call)
      (fun _ => Inv (Counted H N v retry before n k))
        (fun _ => Inv (Counted H N v retry before n k)) p := by
  have hends : Ends (Recorded H N v retry before n k) (fun _ _ _ => True)
      (Counted H N v retry before n k) :=
    ends (fun _ => id) _
  have hcall : ∀ {x : Op AdapterResult}, (∀ w, Act.wp x (fun _ => Apart H N v retry w)
      (fun _ => Apart H N v retry w) w) → ∀ p, Inv (Recorded H N v retry before n k) p →
      Act.wp (S.stepAt (.invoked n call) x) (fun _ => Inv (Counted H N v retry before n k))
        (fun _ => Inv (Counted H N v retry before n k)) p := by
    intro x hx
    refine hends.wp_bind (await hS) fun _ p hp => ?_
    rw [wp_bind, Process.wp_note, Process.wp_lift]
    have hinvoked : Counted H N v retry before n k p.shared p.own
        (p.trace ++ [(.invoked n call, p.shared)]) := Recorded.invoked _ _ _ hp
    exact wp_mono (hx p.shared) (fun _ w' ha => hinvoked.apart ha) fun _ w' ha => hinvoked.apart ha
  intro p hp
  rw [Supervisor.invokeExecutor, wp_ite]
  refine ⟨fun _ => hcall (hS.dispatch graphId n call) p hp, fun _ => ?_⟩
  refine hends.wp_bind (x := S.stepAt (.resolving n.id call.capabilityId)
    (adapterEntry H call.capabilityId)) ?_ (fun name => ?_) p hp
  · exact (await hS).bind fun _ => Keeps.bind (Process.keeps_note (note rfl)) fun _ =>
      Process.keeps_lift ((routine hS).calls (.adapterEntry _))
  · refine hends.wp_bind ((routine hS).step (.resolveAdapter _)) fun _ => hcall fun w => ?_
    exact wp_mono ((quiet_aside (H := H) w).calm.invokeAdapter w (.refl w)) (fun _ _ ha => ha.apart)
      fun _ _ ha => ha.apart

include hids hwhole hn

/-- An attempt that is allowed. -/
theorem startAttempt {k : ℕ} (hmay : Supervisor.mayTry n.retry k = .ok true)
    (graphId capabilityId : String) : ∀ p, Inv (Counted H N v retry before n k) p →
      Act.wp (S.startAttempt H graphId n capabilityId)
        (fun r p' => H.scrub r.1 = r.1 ∧ Inv (Counted H N v retry before n (k + 1)) p')
        (fun _ => Inv (Counted H N v retry before n (k + 1))) p := by
  have hends : Ends (Recorded H N v retry before n (k + 1)) (fun _ _ _ => True)
      (Counted H N v retry before n (k + 1)) := ends (fun _ => id) _
  intro p hp
  rw [Supervisor.startAttempt, Supervisor.step, Process.step, wp_bind, wp_bind]
  refine wp_mono (await hS p hp) (fun _ p₁ hp₁ => ?_) fun _ _ h => Counted.succ _ _ _ h
  rw [Process.wp_lift]
  refine wp_mono (recordAttempt_spec S.log graphId n.id capabilityId p₁.shared) (fun id w' h => ?_)
    fun _ w' ha => Counted.succ _ p₁.own _ (hp₁.apart ha.apart)
  obtain ⟨rfl, hdrawn, r, hr, hput⟩ := h
  have hrecorded := Counted.recorded hids hwhole hn hmay hp₁ hr hput hdrawn
  rw [wp_bind, Process.wp_note]
  refine hends.wp_bind (Keeps.ofExcept _) (fun inputs => hends.wp_bind (Keeps.ofExcept _)
    fun timeoutS p₂ hp₂ => ?_) _ (note (m := .started n.id _) rfl _ p₁.own _ hrecorded)
  rw [wp_bind]
  refine wp_mono (invokeExecutor hS graphId _ p₂ hp₂) (fun result p₃ hp₃ => ?_) fun _ _ h => h
  rw [wp_bind, Process.wp_note]
  exact (wp_pure _).2 ⟨hids.kept _, note (m := .answered n.id result) rfl _ p₃.own _ hp₃⟩

/-- One attempt. -/
theorem attempt {k : ℕ} (hmay : Supervisor.mayTry n.retry k = .ok true) (graphId : String)
    (version : ℤ) : ∀ p, Inv (Counted H N v retry before n k) p →
      Act.wp (S.attempt H graphId n version) (fun _ => Inv (Counted H N v retry before n (k + 1)))
        (fun _ => Inv (Counted H N v retry before n (k + 1))) p := by
  have hends : Ends (Counted H N v retry before n k) (Counted H N v retry before n (k + 1))
      (Counted H N v retry before n (k + 1)) := ⟨Counted.succ, Counted.succ⟩
  refine hends.wp_bind ((routine hS).attemptGates graphId n) fun gates p hp => ?_
  obtain ⟨capabilityId, auth⟩ := gates
  dsimp only
  cases auth.verdict with
  | deny => exact (wp_throw _).2 (Counted.succ _ p.own _ hp)
  | requireApproval =>
    dsimp only
    exact Keeps.bind ((routine hS).pause _ _ _ _ _) (fun _ => Keeps.pure _) p
      (Counted.succ _ p.own _ hp)
  | allow =>
    dsimp only
    rw [wp_bind]
    refine wp_mono (startAttempt hids hS hwhole hn hmay graphId capabilityId p hp)
      (fun r p₁ hp₁ => ?_) fun _ _ h => h
    obtain ⟨id, result⟩ := r
    refine Keeps.bind (checkResult hS hp₁.1 n result) (fun _ => ?_) p₁ hp₁.2
    refine Keeps.bind (settleAttempt hS hp₁.1 n result) fun version => ?_
    refine Keeps.bind ((routine hS).reviewGate n) fun passed => Keeps.ite (fun _ => ?_) fun _ => ?_
    · exact Keeps.bind ((routine hS).complete _ _) fun _ => Keeps.pure _
    · exact Keeps.bind ((routine hS).pause _ _ _ _ _) fun _ => Keeps.pure _

omit hids hS hwhole hn

/-- Between two visits of nodes. -/
abbrev Total (H : Host) (N : ℕ) (v : String) (retry : RetryPolicy) (before : ℕ) : RunFact :=
  Numbered H N v retry before 0 fun _ => True

theorem Counted.total {k : ℕ} (w : World) (t : RunState) (l : List (Mark × World))
    (h : Counted H N v retry before n k w t l) : Total H N v retry before w t l :=
  mono le_rfl (fun _ _ => trivial) w t l h

/-- The attempts of a node are counted by its rows. -/
theorem Total.counted {w : World} {t : RunState} {l : List (Mark × World)}
    (h : Total H N v retry before w t l) :
    Counted H N v retry before n (w.db.attemptsOf n.id).length w t l := by
  refine ⟨h.1, fun hN => ?_⟩
  obtain ⟨hunused, k, hk, hallows, hcount, -⟩ := h.2 hN
  refine ⟨hunused, k, hk, hallows, hcount, fun hv => ?_⟩
  have := congrArg List.length hk
  rw [Db.numbersOf, List.length_map, numbers, List.length_map, List.length_range] at this
  rw [hv, this]

include hS

theorem attemptCount : ∀ p, Inv (Total H N v retry before) p →
    Act.wp (S.step (attemptCount H n.id)) (fun k => Inv (Counted H N v retry before n k))
      (fun _ => Inv (Total H N v retry before)) p := by
  intro p hp
  rw [Supervisor.step, Process.step, wp_bind]
  refine wp_mono (await hS p hp) (fun _ p₁ hp₁ => ?_) fun _ _ h => h
  rw [Process.wp_lift, Shiroe.attemptCount, wp_readDb]
  cases bindText H (.str n.id) with
  | error e => exact hp₁
  | ok u => exact Total.counted hp₁

include hids hwhole hn

/-- What holds while a node is tried. -/
theorem trial (graphId : String) (version : ℤ) :
    Trial H S (Total H N v retry before) (Total H N v retry before) (Total H N v retry before)
      (Total H N v retry before) (Counted H N v retry before n) graphId n version where
  room projection w t l _ h := h.note rfl
  counted := attemptCount hS
  attempt k p hmay hp := by
    refine wp_mono (attempt hids hS hwhole hn hmay graphId version p hp) (fun _ p' h => ?_)
      fun e p' h => ?_
    · exact ⟨fun _ => Counted.total _ p'.own _ h, Counted.total _ p'.own _ h⟩
    · split
      · exact h
      · exact Counted.total _ p'.own _ h
  routine _ := routine hS
  ends _ := ⟨Counted.total, Counted.total⟩

omit hn

omit hids hS hwhole

theorem loaded {w : World} {nodeId : String} {state : StoredWorkNode} (h : TablesFit H v retry w)
    (hget : w.db.getNode H nodeId = .ok state) :
    (state.node.id = v → state.node.retry = retry) ∧ H.scrub state.node.id = state.node.id := by
  obtain ⟨r, hr, hget⟩ := except_bind_eq_ok.1 hget
  obtain ⟨node, hnode, hget⟩ := except_bind_eq_ok.1 hget
  obtain ⟨status, -, hget⟩ := except_bind_eq_ok.1 hget
  cases Except.ok.inj hget
  obtain ⟨-, hfind⟩ := nodeRow_eq_ok.1 hr
  have hmem := List.mem_of_find?_eq_some hfind
  have hid : r.id = .text nodeId := by simpa using List.find?_some hfind
  obtain ⟨hread, -, policy, hjson, hpolicy⟩ := load_spec hnode
  have hretry : retryOf r.retryJson = .ok node.retry := by rwa [retryOf, hjson]
  rw [hid] at hread
  have he : nodeId = node.id := Json.str.inj hread
  subst he
  refine ⟨fun hv => ?_, h.nodeIds r hmem _ hid⟩
  rw [h.policy r hmem (by rw [hid, hv])] at hretry
  exact (Except.ok.inj hretry).symm

include hids hS hwhole

/-- What one run leaves. -/
theorem run (fuel : ℕ) (graphId : String) (p : Session) (hp : Inv (Total H N v retry before) p) :
    Inv (Total H N v retry before) (final (S.run H fuel graphId) p) := by
  have hends : Ends (Total H N v retry before) (Total H N v retry before)
      (Total H N v retry before) := ⟨fun _ _ _ => id, fun _ _ _ => id⟩
  exact wp_final ((routine hS).run_goes hends (fun _ _ _ _ _ h hget => loaded h.1 hget)
    (fun fuel _ version hn => (trial hids hS hwhole hn graphId version).visitTask_goes hends
      (routine hS) fuel) fuel p hp)

end Numbered

/-! ### Sequences of runs -/

/-- A call of `run` or `resume` of a supervisor that may have made other calls before. -/
structure RunCall where
  supervisor : Supervisor
  fuel : ℕ
  graphId : String
  own : RunState := {}

/-- Where a call in a world ends. -/
def RunCall.session (H : Host) (c : RunCall) (w : World) : Session :=
  final (c.supervisor.run H c.fuel c.graphId) { shared := w, own := c.own }

/-- The world after a sequence of calls, and how often they called the executor of a node. -/
def afterRuns (H : Host) (v : String) (s : World × ℕ) (calls : List RunCall) : World × ℕ :=
  calls.foldl (fun s c =>
    let p := c.session H s.1
    (p.shared, s.2 + invocations v p.trace)) s

/-- **The attempts of a node are numbered from one on, are no more than its policy allows, and no
executor is called without one**, after any sequence of runs, however each of them ends. -/
theorem attempts_numbered (hwhole : retry.isWhole = true) {w : World} {calls : List RunCall}
    (hids : GoodIds H (afterRuns H v (w, 0) calls).1.drawn)
    (hfit : TablesFit H v retry w) (hunused : Unused H (afterRuns H v (w, 0) calls).1.drawn w)
    (hnone : w.db.attemptsOf v = [])
    (hcalls : ∀ c ∈ calls, StaysApart H (afterRuns H v (w, 0) calls).1.drawn v retry c.supervisor) :
    ∃ k, (afterRuns H v (w, 0) calls).1.db.numbersOf v = numbers k ∧ retry.Allows k ∧
      (afterRuns H v (w, 0) calls).2 ≤ k := by
  generalize hN : (afterRuns H v (w, 0) calls).1.drawn = N at hids hunused hcalls
  have hrun : ∀ (calls : List RunCall) (s : World × ℕ),
      (∀ c ∈ calls, StaysApart H N v retry c.supervisor) →
      Numbered.Total H N v retry s.2 s.1 {} [] →
      Numbered.Total H N v retry (afterRuns H v s calls).2 (afterRuns H v s calls).1 {} [] := by
    intro calls
    induction calls with
    | nil => exact fun s _ hs => hs
    | cons c calls ih =>
      intro s hc hs
      refine ih _ (fun c' hc' => hc c' (List.mem_cons_of_mem _ hc')) ?_
      have hp := Numbered.run hids (hc c List.mem_cons_self) hwhole c.fuel c.graphId
        { shared := s.1, own := c.own } hs
      refine ⟨hp.1, fun hdrawn => ?_⟩
      obtain ⟨hunused, k, hk, hallows, hcount, -⟩ := hp.2 hdrawn
      exact ⟨hunused, k, hk, hallows, hcount, trivial⟩
  have hstart : Numbered.Total H N v retry 0 w {} [] :=
    ⟨hfit, fun _ => ⟨hunused, 0, by rw [Db.numbersOf, hnone]; rfl, Or.inl (Nat.zero_le 1), le_rfl,
      trivial⟩⟩
  obtain ⟨-, k, hk, hallows, hcount, -⟩ := (hrun calls (w, 0) hcalls hstart).2 hN.le
  exact ⟨k, hk, hallows, hcount⟩

/-! ### Two and a half attempts -/

theorem taskSupervisor_staysApart (H : Host) (N : ℕ) (v : String) (retry : RetryPolicy)
    (dies : ℕ → Bool) :
    StaysApart H N v retry { taskSupervisor with others := { dies } } where
  moves _ w := (Aside.refl w).apart
  dispatch _ _ _ w := wp_mono ((quiet_aside (H := H) w).calm.invokeAdapter w (.refl w))
    (fun _ _ ha => ha.apart) fun _ _ ha => ha.apart

/-- The tables of a project with one task that was not tried yet. -/
theorem tablesFit_task {scrub : String → String} (hscrub : ∀ s, scrub s = s) {node : NodeRow}
    {answer : ℕ → Except Exc AdapterResult} {retry : RetryPolicy}
    (hretry : retryOf node.retryJson = .ok retry) :
    TablesFit (Host.quick scrub) "n" retry (taskWorld node answer) where
  policy r hr _ := by
    rw [List.mem_singleton.1 hr]
    exact hretry
  nodeIds _ _ u _ := hscrub u
  filled _ ha := absurd ha List.not_mem_nil

/-- One run of the task. -/
def taskRun : RunCall := { supervisor := taskSupervisor, fuel := 5, graphId := "g" }

/-- A run of the task that dies right after it has called the executor. -/
def dyingRun : RunCall :=
  { taskRun with supervisor := { taskSupervisor with others := { dies := (· = 18) } } }

/-- The number `2.5`. -/
def twoAndAHalf : Json := .float ⟨"2.5", Or.inl (by decide)⟩

/-- A task that is tried twice, and one that is tried two and a half times. -/
def failingWorld (maxAttempts : Json) : World :=
  taskWorld { taskNode 80 with
    retryJson := .json (.mkObj [("max_attempts", maxAttempts), ("backoff_s", .int 0)]) }
    fun _ => .ok { ok := false }

/-- The policy of that task. -/
def failingPolicy (maxAttempts : Json) : RetryPolicy := { maxAttempts, backoffS := .int 0 }

theorem goodIds_quick {N : ℕ} (hN : N ≤ 20) : GoodIds (Host.quick id) N where
  kept _ := rfl
  distinct := by
    have hall : ∀ m < 20, ∀ n < 20, attemptId (Host.quick id) m = attemptId (Host.quick id) n →
        m = n := by decide +kernel
    exact fun m n hm hn => hall m (by omega) n (by omega)

/-- A run of a task that may be tried twice dies after its first try, and another run follows. -/
def restarted : World × ℕ :=
  afterRuns (Host.quick id) "n" (failingWorld (.int 2), 0) [dyingRun, taskRun]

theorem restarted_run : restarted.1.drawn ≤ 20 ∧ restarted.2 = 2 ∧
    (restarted.1.db.attemptsOf "n").map (·.state) = [.text "running", .text "failed"] := by
  decide +kernel

theorem failing_thrice : (decide ((afterRuns (Host.quick id) "n" (failingWorld twoAndAHalf, 0)
    [taskRun]).1.drawn ≤ 20) && decide ((afterRuns (Host.quick id) "n" (failingWorld twoAndAHalf, 0)
    [taskRun]).1.db.numbersOf "n" = numbers 3)) = true := by decide +kernel

/-- The attempts of a task that is tried once by a run that dies and once more after it. -/
theorem attempts_numbered_restarted :
    (∃ k, restarted.1.db.numbersOf "n" = numbers k ∧ (failingPolicy (.int 2)).Allows k ∧
      restarted.2 ≤ k) ∧ restarted.2 = 2 ∧
    (restarted.1.db.attemptsOf "n").map (·.state) = [.text "running", .text "failed"] := by
  refine ⟨attempts_numbered rfl (goodIds_quick restarted_run.1)
    (tablesFit_task (fun _ => rfl) (by decide +kernel)) (fun _ ha => absurd ha List.not_mem_nil) rfl
    ?_, restarted_run.2⟩
  refine List.forall_mem_cons.2 ⟨?_, List.forall_mem_singleton.2 ?_⟩
  · exact taskSupervisor_staysApart _ _ _ _ _
  · exact taskSupervisor_staysApart _ _ _ _ fun _ => false

/-- A policy of two and a half attempts is taken, and a task that fails is tried a third time. -/
theorem not_attempts_numbered : ¬ ∀ (H : Host) (v : String) (retry : RetryPolicy) (w : World)
    (calls : List RunCall),
    let N := (afterRuns H v (w, 0) calls).1.drawn
    GoodIds H N → TablesFit H v retry w → Unused H N w → w.db.attemptsOf v = [] →
    (∀ c ∈ calls, StaysApart H N v retry c.supervisor) →
    ∃ k, (afterRuns H v (w, 0) calls).1.db.numbersOf v = numbers k ∧ retry.Allows k ∧
      (afterRuns H v (w, 0) calls).2 ≤ k := by
  intro hclaim
  obtain ⟨hdrawn, hnumbers⟩ := Bool.and_eq_true_iff.1 failing_thrice
  obtain ⟨k, hk, hallows, -⟩ := hclaim (Host.quick id) "n" (failingPolicy twoAndAHalf)
    (failingWorld twoAndAHalf) [taskRun] (goodIds_quick (of_decide_eq_true hdrawn))
    (tablesFit_task (fun _ => rfl) (by decide +kernel)) (fun _ ha => absurd ha List.not_mem_nil) rfl
    fun c hc => by
      rw [List.mem_singleton.1 hc]
      exact taskSupervisor_staysApart _ _ _ _ fun _ => false
  rw [of_decide_eq_true hnumbers] at hk
  have hthree : 3 = k := by simpa [numbers] using congrArg List.length hk
  subst hthree
  exact absurd hallows (by decide +kernel)

end Shiroe
