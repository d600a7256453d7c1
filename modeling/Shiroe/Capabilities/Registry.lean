import Shiroe.Capabilities.Gate
import Shiroe.Capabilities.Onboarding
import Shiroe.Policy.Decisions

/-!
# What the calls do to the registry

The standing of a capability is its lifecycle and its digest.  Every statement and every event
changes the standing under at most one id, and every call makes a few such changes, also when it
raises halfway.

* `setLifecycle_spec`, `refreshDigest_spec`, `decideHuman_spec` : what one call changes.
-/

namespace Shiroe

open Act

/-- What the registry says of a capability. -/
structure Standing where
  lifecycle : SqlVal
  digest : SqlVal
  deriving DecidableEq

/-- The registry: the standing under each id. -/
abbrev Standings := SqlVal → Option Standing

/-- The standing of each capability. -/
def Db.standings (db : Db) : Standings := fun id =>
  (db.capability? id).map fun r => ⟨r.lifecycle, r.currentDigest⟩

/-- Change the standing under an id, if there is one. -/
def Standings.write (s : Standings) (id : SqlVal) (g : Standing → Standing) : Standings :=
  Function.update s id ((s id).map g)

variable {H : Host}

theorem standings_congr {db db' : Db} (h : db'.capabilities = db.capabilities) :
    db'.standings = db.standings := by
  unfold Db.standings Db.capability?
  rw [h]

theorem standings_of_exceptMirror {db db' : Db} (h : db'.exceptMirror = db.exceptMirror) :
    db'.standings = db.standings := by
  have hc : db'.exceptMirror.capabilities = db.exceptMirror.capabilities := by rw [h]
  exact standings_congr hc

/-! ### Statements -/

theorem standings_update {db : Db} {v : SqlVal} {f : CapabilityRow → CapabilityRow}
    {g : Standing → Standing} (hid : ∀ r, (f r).id = r.id)
    (hg : ∀ r, (⟨(f r).lifecycle, (f r).currentDigest⟩ : Standing) =
      g ⟨r.lifecycle, r.currentDigest⟩) :
    Db.standings { db with
      capabilities := Table.update (fun r => v ≠ .null && r.id = v) f db.capabilities } =
    db.standings.write v g := by
  funext id
  unfold Db.standings Db.capability? Standings.write
  simp only
  rw [Table.find?_update (by intro r; simp [hid]), Option.map_map]
  cases hr : db.capabilities.find? fun r => id ≠ .null && r.id = id with
  | none =>
    by_cases h : id = v
    · subst h
      rw [Function.update_self, hr]
      rfl
    · rw [Function.update_of_ne h, hr]
      rfl
  | some r =>
    have hrow := List.find?_some hr
    simp only [ne_eq, Bool.and_eq_true, decide_not, Bool.not_eq_true', decide_eq_false_iff_not,
      decide_eq_true_eq] at hrow
    by_cases h : id = v
    · subst h
      rw [Function.update_self, hr]
      simp [hrow, hg]
    · rw [Function.update_of_ne h, hr]
      simp [hrow, h]

theorem standings_replace {db : Db} {r : CapabilityRow} (hid : r.id ≠ .null) :
    Db.standings { db with
      capabilities := Table.replace (·.id.key) r db.capabilities } =
    Function.update db.standings r.id (some ⟨r.lifecycle, r.currentDigest⟩) := by
  have hkey : ∀ v : SqlVal, v ≠ .null → v.key = some v := fun v h => if_neg h
  funext id
  unfold Db.standings Db.capability?
  simp only
  by_cases h : id = r.id
  · subst h
    rw [Function.update_self, Table.find?_replace_self (by simp [hid])]
    · rfl
    · intro r' hr'
      simp only [ne_eq, Bool.and_eq_true, decide_eq_true_eq] at hr'
      rw [hr'.2, hkey _ hid]
      exact ⟨rfl, Option.some_ne_none _⟩
  · rw [Function.update_of_ne h, Table.find?_replace_of_ne]
    · simpa using fun _ => Ne.symm h
    · intro r' hr'
      simp only [ne_eq, Bool.and_eq_true, decide_eq_true_eq, decide_not, Bool.not_eq_true',
        decide_eq_false_iff_not] at hr'
      refine Or.inr fun hk => h ?_
      rw [hr'.2, hkey _ hr'.1, hkey _ hid] at hk
      exact Option.some.inj hk

/-- What an `UPDATE capabilities` does to the registry. -/
theorem wp_updateCapability {columns : List (String × SqlVal)} {v : SqlVal}
    {f : CapabilityRow → CapabilityRow} {g : Standing → Standing} (hid : ∀ r, (f r).id = r.id)
    (hg : ∀ r, (⟨(f r).lifecycle, (f r).currentDigest⟩ : Standing) =
      g ⟨r.lifecycle, r.currentDigest⟩) (db : Db) :
    Act.wp (updateCapability columns v f)
      (fun _ db' => db'.standings = db.standings.write v g) (fun _ db' => db' = db) db := by
  unfold updateCapability updateWhere
  rw [wp_bind, wp_of_ok (show EStateM.get db = .ok db db from rfl), wp_bind, wp_exec]
  split
  · rw [wp_pure]
    exact standings_update hid hg
  · rfl

theorem Standings.write_write (s : Standings) (v : SqlVal) (f g : Standing → Standing) :
    (s.write v f).write v g = s.write v (g ∘ f) := by
  unfold Standings.write
  rw [Function.update_idem, Function.update_self, Option.map_map]

/-- Give a standing another lifecycle. -/
def Standing.withLifecycle (l : SqlVal) (s : Standing) : Standing := { s with lifecycle := l }

/-- The column that an id is compared with. -/
def keyOf (H : Host) (id : Json) : SqlVal := (boundVal id).asText H

@[simp] theorem keyOf_str (s : String) : keyOf H (.str s) = .text s := rfl

theorem wp_writeLifecycle {id : Json} (hb : Bindable H id) (t : Lifecycle) (n : ℕ) (db : Db) :
    Act.wp (writeLifecycle H id t (H.clock n))
      (fun _ db' => db'.standings =
        db.standings.write (keyOf H id) (Standing.withLifecycle (.text t.value)))
      (fun _ db' => db' = db) db := by
  have ht : Bindable H (.str t.value) := by
    cases t <;> exact H.encodes_ascii _ (by decide)
  have hc : Bindable H (.str (H.clock n)) := encodes_clock n
  unfold writeLifecycle
  rw [wp_bind, wp_text ht, wp_bind, wp_text hc, wp_bind, wp_text hb, wp_bind]
  refine wp_mono (wp_updateCapability (g := Standing.withLifecycle (.text t.value)) ?_ ?_ db)
    (fun _ _ h => ?_) fun _ _ h => h
  · exact fun _ => rfl
  · exact fun _ => rfl
  · rw [wp_pure]
    exact h

theorem wp_writeDigest {id d : String} (hid : H.encodes id = true) (t : Lifecycle) (n : ℕ)
    (db : Db) :
    Act.wp (writeDigest H id d t (H.clock n))
      (fun _ db' => H.encodes d = true ∧
        db'.standings = db.standings.write (.text id) fun _ => ⟨.text t.value, .text d⟩)
      (fun _ db' => db' = db) db := by
  have ht : Bindable H (.str t.value) := by
    cases t <;> exact H.encodes_ascii _ (by decide)
  have hc : Bindable H (.str (H.clock n)) := encodes_clock n
  have hb : Bindable H (.str id) := hid
  unfold writeDigest
  by_cases hd : H.encodes d = true
  · have hbd : Bindable H (.str d) := hd
    rw [wp_bind, wp_text hbd, wp_bind, wp_text ht, wp_bind, wp_text hc, wp_bind, wp_text hb,
      wp_bind]
    refine wp_mono (wp_updateCapability (g := fun _ => ⟨.text t.value, .text d⟩) ?_ ?_ db)
      (fun _ _ h => ?_) fun _ _ h => h
    · exact fun _ => rfl
    · exact fun _ => rfl
    · rw [wp_pure]
      exact ⟨hd, h⟩
  · rw [wp_bind, text, wp_ofExcept]
    simp [bindText, bindParam, hd]

/-! ### Events -/

theorem targetId_capability {env p : Json} {s : String}
    (h : env.get "target" = .str ("capability:" ++ s)) :
    targetId env p "capability:" = some s := by
  have hpre : startsWith ("capability:" ++ s) "capability:" = true := by
    simp [startsWith, String.toList_append]
  have hrest : removePrefix ("capability:" ++ s) "capability:" = s := by
    simp [removePrefix, String.toList_append]
  unfold targetId
  rw [h]
  simp only [hpre, hrest, if_true]

/-- The fold of a lifecycle event. -/
theorem wp_applyLifecycle {env p : Json} {id lifecycle l : String}
    (hid : targetId env p "capability:" = some id) (henc : H.encodes id = true)
    (ht : Bindable H (eventTime env p)) (hto : p.getD "to" (.str lifecycle) = .str l)
    (hl : H.encodes l = true) (db : Db) :
    Act.wp (applyLifecycle H env p lifecycle)
      (fun _ db' => db'.standings =
        db.standings.write (.text id) (Standing.withLifecycle (.text l)))
      (fun _ _ => False) db := by
  have hbl : Bindable H (.str l) := hl
  have hret : Returns (applyLifecycle H env p lifecycle) db :=
    returns_applyLifecycle hid henc ht (hto ▸ hbl) (by rw [hto]; rfl)
  have hbid : Bindable H (.str id) := henc
  have hw : Act.wp (applyLifecycle H env p lifecycle) (fun _ db' => db'.standings =
      db.standings.write (.text id) (Standing.withLifecycle (.text l))) (fun _ _ => True) db := by
    unfold applyLifecycle
    simp only [hid, hto]
    rw [wp_bind, wp_text hbl, wp_bind, wp_text ht, wp_bind, wp_text hbid]
    refine wp_mono (wp_updateCapability ?_ ?_ db) (fun _ _ h => h) fun _ _ _ => trivial
    · exact fun _ => rfl
    · exact fun _ => rfl
  exact wp_mono (wp_and hret hw) (fun _ _ h => h.2) fun _ _ h => h.1

/-- The fold of a drift event. -/
theorem wp_applyDrift {env p : Json} {id d l : String}
    (hid : targetId env p "capability:" = some id) (henc : H.encodes id = true)
    (ht : Bindable H (eventTime env p)) (hd : p.get "new_digest" = .str d)
    (hl : p.get "new_state" = .str l) (hde : H.encodes d = true) (hle : H.encodes l = true)
    (db : Db) :
    Act.wp (applyDrift H env p)
      (fun _ db' => db'.standings = db.standings.write (.text id) fun _ => ⟨.text l, .text d⟩)
      (fun _ _ => False) db := by
  have hbd : Bindable H (.str d) := hde
  have hbl : Bindable H (.str l) := hle
  have hbid : Bindable H (.str id) := henc
  have hret : Returns (applyDrift H env p) db := by
    refine returns_applyDrift hid henc ht ?_
    simp [hd, hl, hbd, hbl]
  have hsome : anyNone p ["new_digest", "new_state"] = false := by
    simp [anyNone, hd, hl]
  have hw : Act.wp (applyDrift H env p) (fun _ db' => db'.standings =
      db.standings.write (.text id) fun _ => ⟨.text l, .text d⟩) (fun _ _ => True) db := by
    unfold applyDrift
    simp only [hid, hsome, hd, hl, Bool.false_eq_true, if_false]
    rw [wp_bind, wp_text hbd, wp_bind, wp_text hbl, wp_bind, wp_text ht, wp_bind, wp_text hbid]
    refine wp_mono (wp_updateCapability ?_ ?_ db) (fun _ _ h => h) fun _ _ _ => trivial
    · exact fun _ => rfl
    · exact fun _ => rfl
  exact wp_mono (wp_and hret hw) (fun _ _ h => h.2) fun _ _ h => h.1

/-- The fold of a discovery leaves the registry as it is or puts the capability in. -/
theorem wp_applyDiscovered {env p : Json} {id l d : String} (hid : p.get "id" = .str id)
    (hl : p.getD "lifecycle" (.str "quarantined") = .str l) (hd : p.get "digest" = .str d)
    (db : Db) :
    let R := fun db' : Db => db'.standings = db.standings ∨
      db'.standings = Function.update db.standings (.text id) (some ⟨.text l, .text d⟩)
    Act.wp (applyDiscovered H env p) (fun _ => R) (fun _ => R) db := by
  intro R
  have hrest : ∀ {α : Type} (x : Act Exc Db α), Leaves Db.capabilities x → ∀ db₁, R db₁ →
      Act.wp x (fun _ => R) (fun _ => R) db₁ := by
    intro α x hx db₁ h₁
    have hsame : ∀ db', db'.capabilities = db₁.capabilities → R db' := by
      intro db' h
      change _ ∨ _
      rw [standings_congr h]
      exact h₁
    exact wp_mono (hx.wp db₁) (fun _ db' h => hsame db' h) fun _ db' h => hsame db' h
  unfold applyDiscovered
  rw [wp_ite]
  refine ⟨fun _ => (wp_pure _).2 (Or.inl rfl), fun _ => ?_⟩
  simp only [hid, hl, hd]
  rw [wp_bind]
  refine wp_text_any (fun _ => Or.inl rfl) fun vid hvid => ?_
  iterate 2
    rw [wp_bind]
    refine wp_text_any (fun _ => Or.inl rfl) fun _ _ => ?_
  rw [wp_bind]
  refine wp_text_any (fun _ => Or.inl rfl) fun vl hvl => ?_
  rw [wp_bind]
  refine wp_text_any (fun _ => Or.inl rfl) fun vd hvd => ?_
  iterate 2
    rw [wp_bind]
    refine wp_text_any (fun _ => Or.inl rfl) fun _ _ => ?_
  rw [wp_bind]
  unfold insertCapability
  rw [wp_exec]
  split
  · rw [bindText_str_eq_ok hvid, bindText_str_eq_ok hvl, bindText_str_eq_ok hvd]
    -- what follows writes the other tables
    refine hrest _ ?_ _ (Or.inr (standings_replace nofun))
    intro c
    unfold applyPermissions insertVersion insertPermission
    repeat' first
      | exact Keeps.ofExcept _
      | exact Keeps.pure _
      | exact leaves_exec (by intro db; rfl) c
      | exact leaves_manifestText _ c
      | refine Keeps.ite (fun _ => ?_) fun _ => ?_
      | refine Keeps.bind ?_ fun _ => ?_
  · exact Or.inl rfl

/-! ### Calls -/

/-- The statement of `refresh_digest` returns when the digest can be bound. -/
theorem returns_writeDigest {id d : String} (hid : H.encodes id = true) (hd : H.encodes d = true)
    (t : Lifecycle) (n : ℕ) (db : Db) : Returns (writeDigest H id d t (H.clock n)) db := by
  have ht : Bindable H (.str t.value) := by
    cases t <;> exact H.encodes_ascii _ (by decide)
  have hc : Bindable H (.str (H.clock n)) := encodes_clock n
  have hb : Bindable H (.str id) := hid
  have hbd : Bindable H (.str d) := hd
  unfold Returns writeDigest
  rw [wp_bind, wp_text hbd, wp_bind, wp_text ht, wp_bind, wp_text hc, wp_bind, wp_text hb, wp_bind]
  exact wp_mono (returns_updateWhere (by simp)) (fun _ _ _ => (wp_pure _).2 trivial)
    fun _ _ h => h

/-- A parameter is NULL or the value that was bound. -/
theorem bindText_eq_ok {j : Json} {v : SqlVal} (h : bindText H j = .ok v) :
    v = .null ∨ (Bindable H j ∧ v = keyOf H j) := by
  by_cases hb : Bindable H j
  · rw [bindText_eq hb] at h
    exact Or.inr ⟨hb, (Except.ok.inj h).symm⟩
  · -- only a NaN is bound otherwise, as NULL
    refine Or.inl ?_
    cases j with
    | int n =>
      rw [bindText, bindParam] at h
      split_ifs at h with hn
      · exact absurd hn hb
      · cases h
    | float x =>
      change ¬ x.isNaN = false at hb
      rw [Bool.not_eq_false] at hb
      rw [bindText, bindParam, if_pos hb] at h
      exact (Except.ok.inj h).symm
    | str s =>
      rw [bindText, bindParam] at h
      split_ifs at h with hs
      · exact absurd hs hb
      · cases h
    | arr l => cases h
    | obj d => cases h
    | _ => exact absurd trivial hb

/-- A capability that is found has the standing of its row. -/
theorem getCapability_spec (id : Json) (w : World) :
    Act.wp (getCapability H id) (fun row w' => w' = w ∧ (∀ r ∈ row, Bindable H id) ∧
        (Bindable H id → w.db.standings (keyOf H id) =
          row.map fun r => ⟨r.lifecycle, r.currentDigest⟩))
      (fun _ w' => w' = w) w := by
  rw [getCapability, wp_readDb]
  cases hv : bindText H id with
  | error x => rfl
  | ok v =>
    refine ⟨rfl, ?_, ?_⟩
    · intro r hr
      rcases bindText_eq_ok hv with rfl | ⟨hb, -⟩
      · have hnull := List.find?_some hr
        simp at hnull
      · exact hb
    · intro hb
      have hkey : v = keyOf H id := by
        rw [bindText_eq hb] at hv
        exact (Except.ok.inj hv).symm
      rw [hkey]
      rfl

theorem getCapability_str_spec (id : String) (w : World) :
    Act.wp (getCapability H (.str id)) (fun row w' => w' = w ∧ H.encodes id = true ∧
        w.db.standings (.text id) = row.map fun r => ⟨r.lifecycle, r.currentDigest⟩)
      (fun _ w' => w' = w) w := by
  rw [getCapability, wp_readDb]
  cases hv : bindText H (.str id) with
  | error x => rfl
  | ok v =>
    refine ⟨rfl, bindText_isOk (by rw [hv]; rfl), ?_⟩
    rw [bindText_str_eq_ok hv]
    rfl

/-- The text that events name a capability by is the column its id is compared with. -/
def KeyText (H : Host) (id : Json) : Prop := Bindable H id → keyOf H id = .text (pyStr id)

theorem keyText_str (s : String) : KeyText H (.str s) := fun _ => rfl

/-- A lifecycle event is folded under the type that the state has. -/
theorem lookup_eventType {s t : Lifecycle} (h : t ∈ s.transitions) :
    capabilityLifecycleEvents.lookup t.eventType = some t.value := by
  revert h
  cases s <;> cases t <;> decide

/-- **What `set_lifecycle` does**: an allowed transition of the capability, or nothing. -/
theorem setLifecycle_spec (i : ℕ) {id : Json} (hkey : KeyText H id) (target actor : String)
    (w : World) :
    Act.wp (setLifecycle H i id target actor)
      (fun _ w' => ∃ (st : Standing) (t : Lifecycle), Lifecycle.ofText? target = some t ∧
        w.db.standings (keyOf H id) = some st ∧ canTransition st.lifecycle t = true ∧
        w'.db.standings = w.db.standings.write (keyOf H id)
          (Standing.withLifecycle (.text (H.scrub t.value))))
      (fun _ w' => w'.db.standings = w.db.standings) w := by
  unfold setLifecycle
  rw [wp_bind]
  refine wp_mono (getCapability_spec id w) ?_ fun _ _ h => h ▸ rfl
  rintro row w₀ ⟨rfl, hbound, hstand⟩
  cases row with
  | none => exact (wp_throw _).2 rfl
  | some row =>
    have hb := hbound row rfl
    have hst := hstand hb
    simp only
    cases ht : (Lifecycle.ofText? target).filter (canTransition row.lifecycle) with
    | none => exact (wp_throw _).2 rfl
    | some t =>
      obtain ⟨ht, hcan⟩ := Option.filter_eq_some_iff.1 ht
      obtain ⟨s, -, htrans⟩ := canTransition_iff.1 hcan
      have hlookup := lookup_eventType htrans
      have hvalue : H.encodes (H.scrub t.value) = true :=
        H.scrub_encodes _ (H.encodes_ascii _ (by cases t <;> decide))
      have hid : H.encodes (pyStr id) = true := encodes_pyStr hb
      have hkey := hkey hb
      -- the fold of the event, from whatever the statement before it has left
      have hfold : ∀ env, IsEnvOf H (lifecycleEvent id row.lifecycle t actor)
          ((lifecycleEvent id row.lifecycle t actor).timestampAt H w₀) env → ∀ db,
          Act.wp (applyEvent H env) (fun _ db' => db'.standings =
            db.standings.write (keyOf H id) (Standing.withLifecycle (.text (H.scrub t.value))))
            (fun _ _ => False) db := by
        intro env henv db
        rw [applyEvent_lifecycle (henv.payloadOf (Json.isObj_mkObj _)) hlookup henv.eventType,
          touched, wp_map, hkey]
        refine wp_applyLifecycle (targetId_capability henv.target) hid ?_ ?_ hvalue db
        · refine bindable_eventTime henv.timestamp ?_ ?_
          · exact EventEnvelope.Open.encodes_timestampAt ⟨rfl, rfl⟩ w₀
          · simp [lifecycleEvent, List.lookup, Bindable]
        · simp [lifecycleEvent, Json.getD, List.lookup]
      rw [wp_bind]
      refine wp_mono (emitWith_spec i _ _ w₀) ?_ ?_
      · rintro env w' ⟨henv, ⟨n, db₁, db₂, d, hm, hw, hf⟩, -⟩
        have h₁ := (wp_of_ok hw).1 (wp_writeLifecycle hb t n db₁)
        have h₂ := (wp_of_ok hf).1 (hfold env henv db₂)
        rw [wp_pure]
        refine ⟨_, t, ht, hst, hcan, ?_⟩
        rw [h₂, h₁, standings_of_exceptMirror hm, Standings.write_write]
        rfl
      · rintro x w' ⟨hdb | ⟨env, n, db₁, henv, hm, hw | ⟨db₂, hw, hf⟩⟩, -⟩
        · rw [hdb]
        · rw [(wp_of_error hw).1 (wp_writeLifecycle hb t n db₁)]
          exact standings_of_exceptMirror hm
        · exact ((wp_of_error hf).1 (hfold env henv db₂)).elim

/-- **What `refresh_digest` does**: nothing for the digest that is kept, else the capability is put
back to where a changed source puts it. -/
theorem refreshDigest_spec (i : ℕ) (id d : String) (w : World) :
    Act.wp (refreshDigest H i id d)
      (fun _ w' => ∃ st, w.db.standings (.text id) = some st ∧
        if st.digest = .text d then w' = w
        else w'.db.standings = w.db.standings.write (.text id) fun _ =>
          ⟨.text (H.scrub (nextStateForDigestChange st.lifecycle).value), .text (H.scrub d)⟩)
      (fun _ w' => w'.db.standings = w.db.standings) w := by
  unfold refreshDigest
  rw [wp_bind]
  refine wp_mono (getCapability_str_spec id w) ?_ fun _ _ h => h ▸ rfl
  rintro row w₀ ⟨rfl, hid, hst⟩
  cases row with
  | none => exact (wp_throw _).2 rfl
  | some row =>
    rw [Option.map_some] at hst
    simp only
    rw [wp_ite]
    refine ⟨fun hsame => ?_, fun hdiff => ?_⟩
    · rw [wp_pure]
      exact ⟨_, hst, by rw [if_pos hsame]⟩
    · have hstate : ∀ t : Lifecycle, H.encodes (H.scrub t.value) = true := fun t =>
        H.scrub_encodes _ (H.encodes_ascii _ (by cases t <;> decide))
      have hfold : ∀ env, IsEnvOf H (driftEvent id row d) ((driftEvent id row d).timestampAt H w₀)
          env → H.encodes d = true → ∀ db, Act.wp (applyEvent H env) (fun _ db' => db'.standings =
            db.standings.write (.text id) fun _ =>
              ⟨.text (H.scrub (nextStateForDigestChange row.lifecycle).value), .text (H.scrub d)⟩)
            (fun _ _ => False) db := by
        intro env henv hd db
        rw [applyEvent_drift (henv.payloadOf (Json.isObj_mkObj _)) henv.eventType, touched, wp_map]
        refine wp_applyDrift (targetId_capability henv.target) hid ?_ ?_ ?_
          (H.scrub_encodes _ hd) (hstate _) db
        · refine bindable_eventTime henv.timestamp ?_ ?_
          · exact EventEnvelope.Open.encodes_timestampAt ⟨rfl, rfl⟩ w₀
          · simp [driftEvent, List.lookup, Bindable]
        · simp [driftEvent, List.lookup]
        · simp [driftEvent, List.lookup]
      rw [wp_bind]
      refine wp_mono (emitWith_spec i _ _ w₀) ?_ ?_
      · rintro env w' ⟨henv, ⟨n, db₁, db₂, dom, hm, hw, hf⟩, -⟩
        obtain ⟨hd, h₁⟩ := (wp_of_ok hw).1 (wp_writeDigest hid _ n db₁)
        have h₂ := (wp_of_ok hf).1 (hfold env henv hd db₂)
        rw [wp_pure]
        refine ⟨_, hst, ?_⟩
        rw [if_neg hdiff, h₂, h₁, standings_of_exceptMirror hm, Standings.write_write]
        rfl
      · rintro x w' ⟨hdb | ⟨env, n, db₁, henv, hm, hw | ⟨db₂, hw, hf⟩⟩, -⟩
        · rw [hdb]
        · rw [(wp_of_error hw).1 (wp_writeDigest hid _ n db₁)]
          exact standings_of_exceptMirror hm
        · have hd := ((wp_of_ok hw).1 (wp_writeDigest hid _ n db₁)).1
          exact ((wp_of_error hf).1 (hfold env henv hd db₂)).elim

/-- What the fold of an event does to the registry is what its `emit` does. -/
theorem emit_standings {e : EventEnvelope} {R : Standings → Standings → Prop} (hrefl : ∀ s, R s s)
    (hfold : ∀ t env, IsEnvOf H e t env → H.encodes t = true → ∀ db,
      Act.wp (applyEvent H env) (fun _ db' => R db.standings db'.standings)
        (fun _ db' => R db.standings db'.standings) db)
    (he : e.Open) (i : ℕ) (w : World) :
    Act.wp (emit H i e) (fun _ w' => R w.db.standings w'.db.standings)
      (fun _ w' => R w.db.standings w'.db.standings) w := by
  have ht := he.encodes_timestampAt (H := H) w
  refine wp_mono (emit_spec i e w) ?_ ?_
  · rintro env w' ⟨henv, ⟨d, hf⟩, -⟩
    obtain ⟨u, db₁, hm, ha⟩ := Act.bind_eq_ok.1 hf
    have h := (wp_of_ok ha).1 (hfold _ env henv ht db₁)
    rwa [standings_of_exceptMirror ((leaves_mirrorRow env).of_ok hm)] at h
  · rintro x w' ⟨hdb | ⟨env, henv, hf⟩, -⟩
    · rw [hdb]
      exact hrefl _
    · cases hm : mirrorRow H env w.db with
      | ok u db₁ =>
        rw [foldEvent, Act.bind_of_ok hm] at hf
        have h := (wp_of_error hf).1 (hfold _ env henv ht db₁)
        rwa [standings_of_exceptMirror ((leaves_mirrorRow env).of_ok hm)] at h
      | error y db₁ =>
        rw [foldEvent, Act.bind_of_error hm] at hf
        cases hf
        have h := standings_of_exceptMirror ((leaves_mirrorRow env).of_error hm)
        rw [h]
        exact hrefl _

/-- Events of the other domains leave the registry alone. -/
theorem emit_standings_approval {e : EventEnvelope} (he : e.Open)
    (ht : domainOfType e.eventType = some .approvals) (hne : e.eventType ≠ "") (i : ℕ) (w : World) :
    Act.wp (emit H i e) (fun _ w' => w'.db.standings = w.db.standings)
      (fun _ w' => w'.db.standings = w.db.standings) w := by
  refine emit_standings (R := fun s s' => s' = s) (fun _ => rfl) ?_ he i w
  intro t env henv _ db
  rw [applyEvent_eq henv.eventType hne, ht, reduce, touched, wp_map]
  have hleaves : Leaves Db.capabilities (applyApproval H env) :=
    (leaves_applyApproval env).comp Db.capabilities
  exact wp_mono (hleaves.wp db) (fun _ _ h => standings_congr h) fun _ _ h => standings_congr h

/-- What `upsert_capability` may do to the registry. -/
def Upserted (H : Host) (a : UpsertArgs) (s s' : Standings) : Prop :=
  s' = s ∨ s' = Function.update s (.text (H.scrub a.capabilityId))
    (some ⟨.text (H.scrub a.lifecycle), .text (H.scrub a.digest)⟩)

theorem upsertCapability_spec (i : ℕ) (a : UpsertArgs) (w : World) :
    Act.wp (upsertCapability H i a) (fun _ w' => Upserted H a w.db.standings w'.db.standings)
      (fun _ w' => Upserted H a w.db.standings w'.db.standings) w := by
  unfold upsertCapability
  rw [wp_bind, wp_ofExcept]
  split
  · rw [wp_bind, wp_now, wp_bind, wp_uuidHex, wp_bind, wp_ofExcept]
    split
    · rw [wp_bind]
      refine wp_mono (emit_standings (R := Upserted H a) (fun _ => Or.inl rfl) ?_ ⟨rfl, rfl⟩ i _)
        (fun _ _ h => (wp_pure _).2 h) fun _ _ h => h
      intro t env henv _ db
      rw [applyEvent_discovered (henv.payloadOf (Json.isObj_mkObj _)) henv.eventType, touched,
        wp_map]
      refine wp_applyDiscovered ?_ ?_ ?_ db
      · simp [UpsertArgs.event, List.lookup]
      · simp [UpsertArgs.event, Json.getD, List.lookup]
      · simp [UpsertArgs.event, List.lookup]
    · exact Or.inl rfl
  · exact Or.inl rfl

/-- The event after a registration puts a capability with this id into quarantine. -/
theorem emit_quarantined {id : String} (hid : H.encodes id = true) (i : ℕ) (w : World) :
    let R := fun s s' : Standings => s' = s ∨ s' = s.write (.text id)
      (Standing.withLifecycle (.text Lifecycle.quarantined.value))
    Act.wp (emit H i (quarantinedEvent id)) (fun _ w' => R w.db.standings w'.db.standings)
      (fun _ w' => R w.db.standings w'.db.standings) w := by
  intro R
  refine emit_standings (R := R) (fun _ => Or.inl rfl) ?_ ⟨rfl, rfl⟩ i w
  intro t env henv ht db
  rw [applyEvent_lifecycle (henv.payloadOf (Json.isObj_mkObj _))
    (show capabilityLifecycleEvents.lookup "capability.quarantined" = some "quarantined" from rfl)
    henv.eventType, touched, wp_map]
  refine wp_mono (wp_applyLifecycle (targetId_capability henv.target) hid ?_ ?_
    (H.encodes_ascii Lifecycle.quarantined.value (by decide)) db) (fun _ _ h => Or.inr h)
    fun _ _ h => h.elim
  · refine bindable_eventTime henv.timestamp ht ?_
    simp [quarantinedEvent, List.lookup, Bindable]
  · simp [quarantinedEvent, Json.getD, List.lookup, Lifecycle.value]

/-- **What `decide_human` does to the registry**: an approval of a capability request moves the
capability that the scope names, by an allowed transition. -/
theorem decideHuman_spec (i : ℕ) (d : DecisionArgs) (w : World)
    (hkey : ∀ id ∈ w.db.movedBy H d.approvalId, KeyText H id) :
    let R := fun s' : Standings => s' = w.db.standings ∨ d.check = .ok .approved ∧
      ∃ id ∈ w.db.movedBy H d.approvalId, ∃ st, w.db.standings (keyOf H id) = some st ∧
        canTransition st.lifecycle .approved = true ∧ s' = w.db.standings.write (keyOf H id)
          (Standing.withLifecycle (.text (H.scrub Lifecycle.approved.value)))
    Act.wp (decideHuman H i d) (fun _ w' => R w'.db.standings) (fun _ w' => R w'.db.standings)
      w := by
  intro R
  have hsame : ∀ w' : World, w'.db.standings = w.db.standings → R w'.db.standings :=
    fun _ h => Or.inl h
  unfold decideHuman
  rw [wp_bind, wp_ofExcept]
  cases hcheck : d.check with
  | error x => exact hsame _ rfl
  | ok status =>
    simp only
    rw [wp_bind]
    refine wp_mono (getApproval_spec d.approvalId w) ?_ fun _ w' h => hsame _ (h ▸ rfl)
    rintro req w₀ ⟨rfl, hreq⟩
    rw [wp_bind, wp_now, wp_bind]
    refine wp_mono (emit_decided i d status _ _) ?_ fun _ w' h =>
      hsame _ (standings_of_exceptMirror h.2)
    rintro env w₁ ⟨-, db, hdb, hw₁⟩
    have hdb : db.exceptMirror = w₀.db.exceptMirror := hdb
    have hs₁ : w₁.db.standings = w₀.db.standings := by
      rw [hw₁, ← standings_of_exceptMirror hdb]
      exact standings_congr rfl
    rw [wp_bind]
    refine wp_mono (getApproval_spec d.approvalId w₁) ?_ fun _ w' h => hsame _ (h ▸ hs₁)
    rintro req' w₂ ⟨rfl, hreq'⟩
    -- the request asks for what it asked for before the decision
    have hget : db.getApproval H d.approvalId = .ok req := by
      have happ : db.approvalRequests = w₀.db.approvalRequests :=
        (congrArg Db.approvalRequests hdb :)
      rw [← hreq, Db.getApproval, Db.getApproval, Db.approval?, Db.approval?, happ]
    obtain ⟨htype, hscope⟩ := getApproval_decided hget (hw₁ ▸ hreq')
    have hmoved : approvedCapability req' status = approvedCapability req status := by
      rw [approvedCapability, approvedCapability, htype, hscope]
    rw [hmoved]
    cases hcap : approvedCapability req status with
    | none => exact (wp_pure _).2 (hsame _ hs₁)
    | some id =>
      have happ : status = .approved := by
        unfold approvedCapability at hcap
        split_ifs at hcap with h
        exact h.2.1
      subst happ
      have hmem : id ∈ w₀.db.movedBy H d.approvalId := by
        rw [Db.movedBy, hreq]
        exact hcap
      simp only
      rw [wp_bind, wp_newLog, wp_bind]
      refine wp_mono (setLifecycle_spec _ (hkey id hmem) Lifecycle.approved.value "human" _) ?_
        fun _ w' h => hsame _ (h.trans hs₁)
      rintro - w' ⟨st, t, ht, hst, hcan, hs⟩
      rw [Lifecycle.ofText?_value] at ht
      cases ht
      simp only [hs₁] at hst hs
      rw [wp_pure]
      exact Or.inr ⟨hcheck, id, hmem, st, hst, hcan, hs⟩

end Shiroe
