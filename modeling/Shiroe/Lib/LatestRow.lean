import Mathlib.Data.List.MinMax
import Mathlib.Data.List.Nodup
import Mathlib.Data.List.Pairwise
import Mathlib.Data.Set.Basic
import Shiroe.Lib.Run

/-!
# The latest row by time and the latest row by log

Rows are stored one after the other, and a log keeps the ids of the events that stored them.  A
lookup takes the rows that meet a predicate and returns the first of those with the greatest time.
The lookups of a set `L` return what the log says last as long as every event names a row that is
later than all rows it shares a lookup with (`Later`), and not beyond.

* `TableStep` : what one step does to the rows and the log;
* `LookedUp.step` : a step with a later event keeps the invariant that carries the law;
* `law_throughout_iff` : over whole runs, exactly when the lookups agree with the log.
-/

namespace Shiroe

namespace LatestRow

variable {ρ κ τ : Type*} [DecidableEq κ] [LinearOrder τ] (key : ρ → κ) (time : ρ → τ)

/-- The row that the log names last. -/
def lastLogged (log : List κ) (rows : List ρ) : Option ρ :=
  log.reverse.findSome? fun v => rows.find? fun r => key r = v

/-- Two rows that one of the lookups can choose between. -/
def Shares (L : Set (ρ → Bool)) (r r' : ρ) : Prop := ∃ p ∈ L, p r = true ∧ p r' = true

/-- Each lookup returns the row that the log names last. -/
def Law (L : Set (ρ → Bool)) (rows : List ρ) (log : List κ) : Prop :=
  ∀ p ∈ L, (rows.filter p).argmax time = lastLogged key log (rows.filter p)

/-- The row that an event names is later than the other rows that it shares a lookup with. -/
def Later (L : Set (ρ → Bool)) (rows : List ρ) (v : κ) : Prop :=
  ∀ r ∈ rows, key r = v → ∀ r' ∈ rows, key r' ≠ v → Shares L r r' → time r' < time r

/-- What a step does to the rows and the log. -/
inductive TableStep (L : Set (ρ → Bool)) : List ρ → List κ → List ρ → List κ → Prop
  /-- Rows are changed in columns that nothing is looked up by. -/
  | update {rows : List ρ} {log : List κ} (f : ρ → ρ) (hkey : ∀ r, key (f r) = key r)
      (htime : ∀ r, time (f r) = time r) (hlook : ∀ p ∈ L, ∀ r, p (f r) = p r) :
      TableStep L rows log (rows.map f) log
  /-- An event is logged, and its row is not stored. -/
  | logged {rows : List ρ} {log : List κ} (v : κ) : TableStep L rows log rows (log ++ [v])
  /-- An event is logged, and its row is stored in the place of the row under its key. -/
  | stored {rows : List ρ} {log : List κ} (r : ρ) :
      TableStep L rows log (rows.filter (fun r' => key r' ≠ key r) ++ [r]) (log ++ [key r])

/-- What carries the law: among the rows of a lookup, the order of the table is that of the times
and that of the log. -/
structure LookedUp (L : Set (ρ → Bool)) (rows : List ρ) (log : List κ) : Prop where
  nodup : (rows.map key).Nodup
  rising : rows.Pairwise fun r r' => Shares L r r' → time r < time r'
  last : ∀ p ∈ L, ∀ q : ρ → Bool, (∀ r, q r = true → p r = true) →
    lastLogged key log (rows.filter q) = (rows.filter q).getLast?

variable {key time} {L : Set (ρ → Bool)} {rows rows' : List ρ} {log log' : List κ}

/-! ### Lists -/

theorem lastLogged_concat (log : List κ) (v : κ) (rows : List ρ) :
    lastLogged key (log ++ [v]) rows =
      (rows.find? fun r => key r = v).or (lastLogged key log rows) := by
  rw [lastLogged, List.reverse_append, List.reverse_singleton, List.singleton_append,
    List.findSome?_cons]
  cases rows.find? fun r => key r = v <;> rfl

theorem lastLogged_map {f : ρ → ρ} (hkey : ∀ r, key (f r) = key r) (log : List κ)
    (rows : List ρ) : lastLogged key log (rows.map f) = (lastLogged key log rows).map f := by
  induction log using List.reverseRecOn with
  | nil => rfl
  | append_singleton log v ih =>
    rw [lastLogged_concat, lastLogged_concat, ih, List.find?_map]
    have hsame : ((fun r => decide (key r = v)) ∘ f) = fun r => decide (key r = v) := by
      funext r
      simp [hkey]
    rw [hsame]
    cases rows.find? fun r => key r = v <;> rfl

/-- In a list whose times rise, the greatest one comes last. -/
theorem argmax_eq_getLast? {l : List ρ} (h : l.Pairwise fun r r' => time r < time r') :
    l.argmax time = l.getLast? := by
  induction l using List.reverseRecOn with
  | nil => rfl
  | append_singleton l r ih =>
    rw [List.pairwise_append] at h
    rw [List.argmax_concat, List.getLast?_append, List.getLast?_singleton, Option.some_or]
    cases hl : l.argmax time with
    | none => rfl
    | some c => exact if_pos (h.2.2 c (List.argmax_mem hl) r (List.mem_singleton_self r))

/-- The last of some rows whose keys differ is the one under its key. -/
theorem getLast?_eq_of_rising {l : List ρ} (h : l.Pairwise fun r r' => time r < time r') {r : ρ}
    (hr : r ∈ l) (hmax : ∀ r' ∈ l, r' ≠ r → time r' < time r) : l.getLast? = some r := by
  obtain ⟨l, c, rfl⟩ := List.eq_nil_or_concat' l |>.resolve_left (List.ne_nil_of_mem hr)
  rw [List.getLast?_append, List.getLast?_singleton, Option.some_or]
  by_contra hne
  have hc : c ≠ r := fun heq => hne (by rw [heq])
  have hlt := hmax c (List.mem_append_right _ (List.mem_singleton_self c)) hc
  rcases List.mem_append.1 hr with hr | hr
  · exact lt_asymm hlt ((List.pairwise_append.1 h).2.2 r hr c (List.mem_singleton_self c))
  · exact hc (List.mem_singleton.1 hr).symm

/-! ### The invariant -/

namespace LookedUp

theorem empty (log : List κ) : LookedUp key time L [] log where
  nodup := List.nodup_nil
  rising := List.Pairwise.nil
  last := by
    intro p _ q _
    rw [List.filter_nil, lastLogged, List.getLast?_nil, List.findSome?_eq_none_iff]
    exact fun v _ => rfl

/-- The rows of a lookup, or some of them, rise in time. -/
theorem rising_filter (h : LookedUp key time L rows log) {p q : ρ → Bool} (hp : p ∈ L)
    (hq : ∀ r, q r = true → p r = true) :
    (rows.filter q).Pairwise fun r r' => time r < time r' := by
  refine (h.rising.sublist List.filter_sublist).imp_of_mem fun hr hr' hlt => hlt ?_
  exact ⟨p, hp, hq _ (List.mem_filter.1 hr).2, hq _ (List.mem_filter.1 hr').2⟩

/-- **The invariant gives the law.** -/
theorem law (h : LookedUp key time L rows log) : Law key time L rows log := by
  intro p hp
  rw [h.last p hp p fun _ hr => hr]
  exact argmax_eq_getLast? (h.rising_filter hp fun _ hr => hr)

theorem update (h : LookedUp key time L rows log) {f : ρ → ρ} (hkey : ∀ r, key (f r) = key r)
    (htime : ∀ r, time (f r) = time r) (hlook : ∀ p ∈ L, ∀ r, p (f r) = p r) :
    LookedUp key time L (rows.map f) log := by
  refine ⟨?_, ?_, ?_⟩
  · have hkeys : (rows.map f).map key = rows.map key := by
      rw [List.map_map]
      exact List.map_congr_left fun r _ => hkey r
    rw [hkeys]
    exact h.nodup
  · rw [List.pairwise_map]
    refine h.rising.imp fun hlt hshares => ?_
    obtain ⟨p, hp, hr, hr'⟩ := hshares
    rw [htime, htime]
    exact hlt ⟨p, hp, hlook p hp _ ▸ hr, hlook p hp _ ▸ hr'⟩
  · intro p hp q hq
    rw [List.filter_map, lastLogged_map hkey, List.getLast?_map, h.last p hp (q ∘ f) fun r hr => ?_]
    rw [← hlook p hp r]
    exact hq _ hr

theorem logged (h : LookedUp key time L rows log) {v : κ} (hv : Later key time L rows v) :
    LookedUp key time L rows (log ++ [v]) := by
  refine ⟨h.nodup, h.rising, fun p hp q hq => ?_⟩
  rw [lastLogged_concat]
  cases hfind : (rows.filter q).find? fun r => key r = v with
  | none => exact h.last p hp q hq
  | some r =>
    have hr := List.mem_of_find?_eq_some hfind
    have hkey : key r = v := by simpa using List.find?_some hfind
    rw [Option.some_or, getLast?_eq_of_rising (h.rising_filter hp hq) hr]
    intro r' hr' hne
    obtain ⟨hmem, hqr⟩ := List.mem_filter.1 hr
    obtain ⟨hmem', hqr'⟩ := List.mem_filter.1 hr'
    refine hv r hmem hkey r' hmem' (fun hkey' => hne ?_) ⟨p, hp, hq r hqr, hq r' hqr'⟩
    exact List.inj_on_of_nodup_map h.nodup hmem' hmem (hkey'.trans hkey.symm)

theorem stored (h : LookedUp key time L rows log) {r : ρ}
    (hr : Later key time L (rows.filter (fun r' => key r' ≠ key r) ++ [r]) (key r)) :
    LookedUp key time L (rows.filter (fun r' => key r' ≠ key r) ++ [r]) (log ++ [key r]) := by
  have hne : ∀ r' ∈ rows.filter (fun r' => key r' ≠ key r), key r' ≠ key r := by
    intro r' hr'
    simpa using (List.mem_filter.1 hr').2
  refine ⟨?_, ?_, fun p hp q hq => ?_⟩
  · rw [List.map_append, List.nodup_append]
    refine ⟨h.nodup.sublist (List.filter_sublist.map key), List.nodup_singleton _, ?_⟩
    intro x hx y hy heq
    obtain ⟨r', hr', rfl⟩ := List.mem_map.1 hx
    exact hne r' hr' (heq.trans (List.mem_singleton.1 hy))
  · rw [List.pairwise_append]
    refine ⟨h.rising.sublist List.filter_sublist, List.pairwise_singleton _ _, ?_⟩
    intro r' hr' s hs hshares
    obtain rfl := List.mem_singleton.1 hs
    obtain ⟨p, hp, hpr', hps⟩ := hshares
    exact hr s (by simp) rfl r' (List.mem_append_left _ hr') (hne r' hr') ⟨p, hp, hps, hpr'⟩
  · have hnone : ((rows.filter fun r' => key r' ≠ key r).filter q).find?
        (fun r' => key r' = key r) = none := by
      rw [List.find?_eq_none]
      intro r' hr'
      simpa using hne r' (List.mem_filter.1 hr').1
    rw [lastLogged_concat, List.filter_append, List.find?_append, hnone, Option.none_or]
    cases hqr : q r with
    | true => simp [hqr]
    | false =>
      have hold := h.last p hp (fun r' => decide (key r' ≠ key r) && q r') fun r' hr' => by
        rw [Bool.and_eq_true] at hr'
        exact hq r' hr'.2
      have hsame : (rows.filter fun r' => key r' ≠ key r).filter q =
          rows.filter fun r' => decide (key r' ≠ key r) && q r' := by
        rw [List.filter_filter]
        exact List.filter_congr fun r' _ => Bool.and_comm _ _
      rw [List.filter_cons_of_neg (by simp [hqr]), List.filter_nil, List.append_nil, hsame, ← hold]
      rfl

/-- **A step whose event names a later row keeps the invariant.** -/
theorem step (h : LookedUp key time L rows log) (hstep : TableStep key time L rows log rows' log')
    (hlater : ∀ v, log' = log ++ [v] → Later key time L rows' v) :
    LookedUp key time L rows' log' := by
  cases hstep with
  | update f hkey htime hlook => exact h.update hkey htime hlook
  | logged v => exact h.logged (hlater v rfl)
  | stored r => exact h.stored (hlater (key r) rfl)

/-- The row under a key, among the rows that a predicate picks. -/
theorem find?_filter (h : LookedUp key time L rows log) {p : ρ → Bool} {r : ρ} (hr : r ∈ rows)
    (hp : p r = true) : (rows.filter p).find? (fun r' => key r' = key r) = some r := by
  cases hfind : (rows.filter p).find? fun r' => key r' = key r with
  | none =>
    rw [List.find?_eq_none] at hfind
    exact absurd (decide_eq_true rfl) (hfind r (List.mem_filter.2 ⟨hr, hp⟩))
  | some c =>
    have hc := (List.mem_filter.1 (List.mem_of_find?_eq_some hfind)).1
    have hkey : key c = key r := by simpa using List.find?_some hfind
    rw [List.inj_on_of_nodup_map h.nodup hc hr hkey]

/-- **A step to a state in which the law holds names a later row.** -/
theorem later_of_law (h : LookedUp key time L rows log)
    (hstep : TableStep key time L rows log rows' log') (hlaw : Law key time L rows' log') :
    ∀ v, log' = log ++ [v] → Later key time L rows' v := by
  intro v hv
  cases hstep with
  | update f hkey htime hlook => simp at hv
  | logged u =>
    obtain rfl : u = v := by simpa using hv
    intro r hr hkey r' hr' hne hshares
    obtain ⟨p, hp, hpr, hpr'⟩ := hshares
    have hmax : (rows.filter p).argmax time = some r := by
      rw [hlaw p hp, lastLogged_concat, ← hkey, h.find?_filter hr hpr, Option.some_or]
    have hmem := List.mem_filter.2 ⟨hr, hpr⟩
    have hmem' := List.mem_filter.2 ⟨hr', hpr'⟩
    -- in rows that rise, no two times are equal
    have hsymm : Std.Symm fun a b : ρ => time a ≠ time b := ⟨fun _ _ h => h.symm⟩
    have hdiffer : time r' ≠ time r :=
      ((h.rising_filter hp fun _ hr => hr).imp fun hlt => hlt.ne).forall hmem' hmem
        fun heq => hne (by rw [heq, hkey])
    exact lt_of_le_of_ne (List.le_of_mem_argmax hmem' hmax) hdiffer
  | stored s =>
    obtain rfl : key s = v := by simpa using hv
    intro r hr hkey r' hr' hne hshares
    have hold : ∀ c ∈ rows.filter (fun r' => key r' ≠ key s), key c ≠ key s := by
      intro c hc
      simpa using (List.mem_filter.1 hc).2
    have hrs : r = s := by
      rcases List.mem_append.1 hr with hr | hr
      · exact absurd hkey (hold r hr)
      · exact List.mem_singleton.1 hr
    rw [hrs] at hshares ⊢
    have hr'old : r' ∈ rows.filter fun r' => key r' ≠ key s := by
      rcases List.mem_append.1 hr' with hr' | hr'
      · exact hr'
      · exact absurd (congrArg key (List.mem_singleton.1 hr')) hne
    obtain ⟨p, hp, hps, hpr'⟩ := hshares
    have hmem' := List.mem_filter.2 ⟨hr'old, hpr'⟩
    have hnone : ((rows.filter fun r' => key r' ≠ key s).filter p).find?
        (fun r' => key r' = key s) = none := by
      rw [List.find?_eq_none]
      intro c hc
      simpa using hold c (List.mem_filter.1 hc).1
    have hmax := hlaw p hp
    rw [List.filter_append, List.filter_cons_of_pos hps, List.filter_nil, lastLogged_concat,
      List.find?_append, hnone, Option.none_or, List.find?_singleton, List.argmax_concat] at hmax
    -- a tie is won by the row that was there before
    cases hc : ((rows.filter fun r' => key r' ≠ key s).filter p).argmax time with
    | none =>
      rw [List.argmax_eq_none] at hc
      rw [hc] at hmem'
      cases hmem'
    | some c =>
      rw [hc] at hmax
      have hlt : time c < time s := by
        by_contra hnot
        have hcs : c = s := by simpa [hnot] using hmax
        exact hold c (List.mem_filter.1 (List.argmax_mem hc)).1 (by rw [hcs])
      exact (List.le_of_mem_argmax hmem' hc).trans_lt hlt

end LookedUp

/-! ### Runs -/

variable {σ ι : Type*} {step : σ → ι → σ} {rowsOf : σ → List ρ} {logOf : σ → List κ}

variable (key time L step rowsOf logOf) in
/-- The event that an input logs names a row that is later than the others. -/
def NamesLater (s : σ) (i : ι) : Prop :=
  ∀ v, logOf (step s i) = logOf s ++ [v] → Later key time L (rowsOf (step s i)) v

/-- **Exactly when the lookups agree with the log in every state of a run**: each event names a
row that is later than the others. -/
theorem law_throughout_iff {s : σ} {l : List ι} (h : LookedUp key time L (rowsOf s) (logOf s))
    (hstep : ∀ s, ∀ i ∈ l, TableStep key time L (rowsOf s) (logOf s) (rowsOf (step s i))
      (logOf (step s i))) :
    (∀ n, Law key time L (rowsOf (Run.stateAt step s l n)) (logOf (Run.stateAt step s l n))) ↔
      Run.Throughout step (NamesLater key time L step rowsOf logOf) s l := by
  induction l generalizing s with
  | nil =>
    refine ⟨fun _ => trivial, fun _ n => ?_⟩
    rw [Run.stateAt, List.take_nil]
    exact h.law
  | cons i l ih =>
    have hi := hstep s i List.mem_cons_self
    have hrest := fun s j hj => hstep s j (List.mem_cons_of_mem i hj)
    constructor
    · intro hlaw
      have hlater := h.later_of_law hi (hlaw 1)
      exact ⟨hlater, (ih (h.step hi hlater) hrest).1 fun n => hlaw (n + 1)⟩
    · rintro ⟨hlater, hthrough⟩ n
      cases n with
      | zero => exact h.law
      | succ n => exact (ih (h.step hi hlater) hrest).2 hthrough n

end LatestRow

end Shiroe
