import Shiroe.Capabilities.Registry
import Shiroe.Storage.Recorded

/-!
# The registry follows its log

Two calls update the row of a capability before they fold their event.  The fold writes the same
columns of the same row again, if the event names the row by the text that it is stored under.

* `Recorded.setLifecycle`, `Recorded.drift` : such a call keeps a project recorded;
* `Recorded.decideHuman` : so does a decision, and the move of a capability that comes with it.
-/

namespace Shiroe

open Act

variable {H : Host}

/-! ### Two updates of one row -/

/-- The tables after an update of the capability under an id. -/
def Db.updateCapability (db : Db) (v : SqlVal) (f : CapabilityRow → CapabilityRow) : Db :=
  { db with capabilities := Table.update (fun r => v ≠ .null && r.id = v) f db.capabilities }

theorem updateCapability_eq {columns : List (String × SqlVal)} {v : SqlVal}
    {f : CapabilityRow → CapabilityRow} (h : ∀ c ∈ columns, c.2.isNull = false) (db : Db) :
    updateCapability columns v f db =
      .ok (db.capabilities.any fun r => v ≠ .null && r.id = v) (db.updateCapability v f) := by
  have hcheck : requireNotNull "capabilities" columns = .ok () := requireNotNull_eq_ok.2 h
  unfold updateCapability updateWhere
  rw [bind_of_ok (show EStateM.get db = .ok db db from rfl), bind_of_ok (exec_ok ?_)]
  · rfl
  · simp only [hcheck, ite_self]

/-- Of two updates of one row the second counts, if it writes all that the first has written. -/
theorem updateCapability_over {columns columns' : List (String × SqlVal)} (v : SqlVal)
    (f g : CapabilityRow → CapabilityRow) (h : ∀ c ∈ columns, c.2.isNull = false)
    (h' : ∀ c ∈ columns', c.2.isNull = false) (hid : ∀ r, (f r).id = r.id)
    (hg : ∀ r, g (f r) = g r) (db : Db) :
    ∃ hit hit' db₁ db₂, updateCapability columns v f db = .ok hit db₁ ∧
      updateCapability columns' v g db₁ = .ok hit' db₂ ∧
      updateCapability columns' v g db = .ok hit' db₂ := by
  refine ⟨_, _, _, _, updateCapability_eq h db, updateCapability_eq h' _, ?_⟩
  have hrows : (db.updateCapability v f).updateCapability v g = db.updateCapability v g := by
    have htwice := Table.update_update (t := db.capabilities)
      (p := fun r : CapabilityRow => v ≠ .null && r.id = v) (by intro r; simp [hid]) hg
    unfold Db.updateCapability
    simp only [htwice]
  have hhit : ((db.updateCapability v f).capabilities.any fun r => v ≠ .null && r.id = v) =
      db.capabilities.any fun r => v ≠ .null && r.id = v := by
    unfold Db.updateCapability Table.update
    rw [List.any_map]
    congr 1
    funext r
    simp only [Function.comp]
    split_ifs <;> simp only [hid]
  rw [updateCapability_eq h', hrows, hhit]

theorem text_bind {α : Type} {j : Json} (h : Bindable H j) (f : SqlVal → Act Exc Db α) :
    (text H j >>= f) = f (keyOf H j) := by
  rw [text, bindText_eq h]
  exact ofExcept_ok_bind _ _

/-- The time of an event is a text. -/
theorem eventTime_str {env p : Json} {t : String} (ht : env.get "timestamp" = .str t)
    (hnone : p.get "event_time" = .null) : eventTime env p = .str t := by
  rw [eventTime, ht, hnone]
  rfl

/-! ### The events of the registry -/

/-- The fold of a lifecycle event writes over what `set_lifecycle` has written. -/
theorem lifecycle_foldsOver {id : Json} (hb : Bindable H id) (hkey : KeyText H id)
    {current : SqlVal} {t : Lifecycle} {actor : String} {s : Lifecycle} (hs : t ∈ s.transitions)
    {env : Json} (henv : ReadsAs H (lifecycleEvent id current t actor) env) (n : ℕ) (db : Db) :
    FoldsOver H (writeLifecycle H id t (H.clock n)) env db := by
  obtain ⟨stamp, hstamp, hencodes⟩ := henv.timestamp
  have hvalue : Bindable H (.str t.value) := by
    cases t <;> exact H.encodes_ascii _ (by decide)
  have hto : Bindable H (.str (H.scrub t.value)) := H.scrub_encodes _ hvalue
  have hwhen : Bindable H (.str (H.clock n)) := encodes_clock n
  have htime : Bindable H (.str stamp) := hencodes
  have hid : Bindable H (.str (pyStr id)) := encodes_pyStr hb
  have hpayload : ((lifecycleEvent id current t actor).payload.mapStr H.scrub).getD "to"
      (.str t.value) = .str (H.scrub t.value) ∧
      ((lifecycleEvent id current t actor).payload.mapStr H.scrub).get "event_time" = .null := by
    simp [lifecycleEvent, Json.getD, List.lookup]
  obtain ⟨hit, hit', db₁, db₂, h₁, h₂, h₃⟩ := updateCapability_over (keyOf H id)
    (fun r => { r with lifecycle := .text t.value, updatedAt := .text (H.clock n) })
    (fun r => { r with
      lifecycle := .text (H.scrub t.value)
      updatedAt := (SqlVal.text stamp).coalesce r.updatedAt })
    (show ∀ c ∈ [("lifecycle", SqlVal.text t.value), ("updated_at", .text (H.clock n))],
      c.2.isNull = false by simp)
    (show ∀ c ∈ [("lifecycle", SqlVal.text (H.scrub t.value))], c.2.isNull = false by simp)
    (fun _ => rfl) (fun _ => rfl) db
  have hfold : applyEvent H env = touched .capabilities
      (updateCapability [("lifecycle", .text (H.scrub t.value))] (keyOf H id) fun r => { r with
        lifecycle := .text (H.scrub t.value)
        updatedAt := (SqlVal.text stamp).coalesce r.updatedAt }) := by
    rw [applyEvent_lifecycle henv.payload (lookup_eventType hs) henv.eventType]
    unfold applyLifecycle
    simp only [targetId_capability henv.target, hpayload.1, eventTime_str hstamp hpayload.2]
    rw [text_bind hto, text_bind htime, text_bind hid, hkey hb]
    rfl
  refine ⟨if hit' then some .capabilities else none, db₁, db₂, ?_, ?_, ?_⟩
  · unfold writeLifecycle
    rw [text_bind hvalue, text_bind hwhen, text_bind hb]
    exact bind_of_ok h₁
  · rw [hfold]
    exact (bind_of_ok h₂).trans rfl
  · rw [hfold]
    exact (bind_of_ok h₃).trans rfl

/-- The fold of a drift event writes over what `refresh_digest` has written. -/
theorem drift_foldsOver {id d : String} (hid : H.encodes id = true) (hd : H.encodes d = true)
    {row : CapabilityRow} (s : Lifecycle) {env : Json} (henv : ReadsAs H (driftEvent id row d) env)
    (n : ℕ) (db : Db) : FoldsOver H (writeDigest H id d s (H.clock n)) env db := by
  obtain ⟨stamp, hstamp, hencodes⟩ := henv.timestamp
  have hvalue : ∀ s : Lifecycle, Bindable H (.str s.value) := by
    intro s
    cases s <;> exact H.encodes_ascii _ (by decide)
  have hdigest : Bindable H (.str d) := hd
  have hwhen : Bindable H (.str (H.clock n)) := encodes_clock n
  have htime : Bindable H (.str stamp) := hencodes
  have hbid : Bindable H (.str id) := hid
  generalize hnext : nextStateForDigestChange row.lifecycle = next
  have hnew : Bindable H (.str (H.scrub next.value)) := H.scrub_encodes _ (hvalue next)
  have hnewDigest : Bindable H (.str (H.scrub d)) := H.scrub_encodes _ hd
  let p := (driftEvent id row d).payload.mapStr H.scrub
  have hpayload : p.get "new_digest" = .str (H.scrub d) ∧
      p.get "new_state" = .str (H.scrub next.value) ∧ p.get "event_time" = .null := by
    simp [p, driftEvent, List.lookup, hnext]
  have hsome : anyNone p ["new_digest", "new_state"] = false := by
    simp [anyNone, hpayload]
  obtain ⟨hit, hit', db₁, db₂, h₁, h₂, h₃⟩ := updateCapability_over (keyOf H (.str id))
    (fun r => { r with
      currentDigest := .text d
      lifecycle := .text s.value
      updatedAt := .text (H.clock n) })
    (fun r => { r with
      currentDigest := .text (H.scrub d)
      lifecycle := .text (H.scrub next.value)
      updatedAt := (SqlVal.text stamp).coalesce r.updatedAt })
    (show ∀ c ∈ [("lifecycle", SqlVal.text s.value), ("updated_at", .text (H.clock n))],
      c.2.isNull = false by simp)
    (show ∀ c ∈ [("lifecycle", SqlVal.text (H.scrub next.value))], c.2.isNull = false by simp)
    (fun _ => rfl) (fun _ => rfl) db
  have hfold : applyEvent H env = touched .capabilities
      (updateCapability [("lifecycle", .text (H.scrub next.value))] (keyOf H (.str id)) fun r =>
        { r with
          currentDigest := .text (H.scrub d)
          lifecycle := .text (H.scrub next.value)
          updatedAt := (SqlVal.text stamp).coalesce r.updatedAt }) := by
    rw [applyEvent_drift henv.payload henv.eventType]
    unfold applyDrift
    simp only [targetId_capability henv.target]
    rw [if_neg (by rw [hsome]; exact Bool.false_ne_true), hpayload.1, hpayload.2.1,
      eventTime_str hstamp hpayload.2.2, text_bind hnewDigest, text_bind hnew, text_bind htime,
      text_bind hbid]
    rfl
  refine ⟨if hit' then some .capabilities else none, db₁, db₂, ?_, ?_, ?_⟩
  · unfold writeDigest
    rw [text_bind hdigest, text_bind (hvalue s), text_bind hwhen, text_bind hbid]
    exact bind_of_ok h₁
  · rw [hfold]
    exact (bind_of_ok h₂).trans rfl
  · rw [hfold]
    exact (bind_of_ok h₃).trans rfl

/-! ### Calls -/

namespace Recorded

/-- A digest that can be encoded is recorded. -/
theorem drift (i : ℕ) (id : String) (row : CapabilityRow) {d : String} (s : Lifecycle)
    (hd : H.encodes d = true) :
    Keeps (Recorded H) (Shiroe.emitWith H i (driftEvent id row d) (writeDigest H id d s)) := by
  refine emitWith i ⟨rfl, rfl⟩ (Json.isObj_mkObj _) fun env db n henv htarget => ?_
  have hid : H.encodes id = true := by
    have h := htarget _ rfl
    rw [H.encodes_append, Bool.and_eq_true] at h
    exact h.2
  exact drift_foldsOver hid hd s henv n db

/-- A transition of a capability that events name by the text it is stored under. -/
theorem setLifecycle (i : ℕ) {id : Json} (hkey : KeyText H id) (target actor : String) :
    Keeps (Recorded H) (setLifecycle H i id target actor) := by
  intro w h
  unfold Shiroe.setLifecycle
  rw [wp_bind]
  refine wp_mono (getCapability_spec id w) ?_ fun _ _ hw => hw ▸ h
  rintro row w₀ ⟨rfl, hbound, -⟩
  cases row with
  | none => exact (wp_throw _).2 h
  | some row =>
    have hb := hbound row rfl
    simp only
    cases ht : (Lifecycle.ofText? target).filter (canTransition row.lifecycle) with
    | none => exact (wp_throw _).2 h
    | some t =>
      obtain ⟨-, hcan⟩ := Option.filter_eq_some_iff.1 ht
      obtain ⟨s, -, htrans⟩ := canTransition_iff.1 hcan
      refine Keeps.bind (emitWith i ⟨rfl, rfl⟩ (Json.isObj_mkObj _) fun env db n henv _ => ?_)
        (fun _ => Keeps.pure _) _ h
      exact lifecycle_foldsOver hb hkey htrans henv n db

end Recorded

end Shiroe
