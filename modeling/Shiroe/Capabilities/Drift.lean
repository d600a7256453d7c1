import Shiroe.Capabilities.Coverage
import Shiroe.Capabilities.Requests

/-!
# Runs of the gate over a changing source

The gate reads the lifecycle first.  Only a capability that may execute has its source inspected,
and then a source with another digest puts it into quarantine before the call raises.

* `gate_over_runs` : what each call of the gate does along a run, and that nothing but a new
  approval opens a capability that was put into quarantine.
-/

namespace Shiroe

open Act Lifecycle

variable (H : Host)

/-- The digest that the gate recomputes for a capability. -/
def recomputed? (w : World) (id : String) : Option String := do
  let version ← w.db.latestVersion? (.text id)
  let location ← version.sourceLocation.asStr.toOption
  let source ← w.outside.source (relativize H location)
  let trust ← (inspectSource H source).toOption
  return trust.digest

/-- The gate lets the capability pass. -/
def Passes (w : World) (id : String) : Prop := ∃ w', assertExecutable H id w = .ok () w'

/-- The world in which the gate writes: it has opened the store. -/
def World.opened (w : World) : World :=
  { w with
    objects := w.objects + 1
    recovered := Function.update w.recovered w.objects false }

/-- The event of a changed source can be appended. -/
def Logged (w : World) (id : String) (row : CapabilityRow) (d : String) : Prop :=
  ∃ env w', append H w.objects (driftEvent id row d) none w.opened = .ok env w'

/-- What a call of the gate does. -/
structure GateCall (w : World) (id : String) : Prop where
  /-- A call that returns saw the digest that the registry keeps, and an executable lifecycle. -/
  passed : Passes H w id → ∃ row d, w.db.capability? (.text id) = some row ∧
    isExecutable row.lifecycle = true ∧ recomputed? H w id = some d ∧ row.currentDigest = .text d
  /-- Under an executable lifecycle another digest is recorded, and the capability quarantined. -/
  drifted : ∀ row d, w.db.capability? (.text id) = some row → isExecutable row.lifecycle = true →
    recomputed? H w id = some d → row.currentDigest ≠ .text d →
    ¬ Passes H w id ∧
      (Logged H w id row d → (final (assertExecutable H id) w).db.standings (.text id) =
        some ⟨.text (H.scrub quarantined.value), .text (H.scrub d)⟩) ∧
      (¬ Logged H w id row d → (final (assertExecutable H id) w).db.standings = w.db.standings)
  /-- Under any other lifecycle the call raises and leaves the registry as it is. -/
  refused : ∀ row, w.db.capability? (.text id) = some row → isExecutable row.lifecycle = false →
    ¬ Passes H w id ∧ (final (assertExecutable H id) w).db.standings = w.db.standings

/-- The call moves the capability to `approved` out of `inspected`; `approve` itself inspects what
is in quarantine. -/
def Reapproved (w : World) (c : RegistryCall) (id : String) : Prop :=
  (registryStep H w c).db.standings.In (.text id) approved ∧
    (w.db.standings.In (.text id) inspected ∨
      w.db.standings.In (.text id) quarantined ∧ ∃ actor, c = .approve id actor)

variable {H}

theorem newLog_eq (w : World) : newLog w = .ok w.objects w.opened := rfl

theorem recomputed?_eq_some {w : World} {id d : String} :
    recomputed? H w id = some d ↔ ∃ version location source trust,
      w.db.latestVersion? (.text id) = some version ∧
      version.sourceLocation.asStr = .ok location ∧
      w.outside.source (relativize H location) = some source ∧
      inspectSource H source = .ok trust ∧ trust.digest = d := by
  have hopt : ∀ {α : Type} {x : Except Exc α} {a : α}, x.toOption = some a ↔ x = .ok a := by
    intro α x a
    cases x <;> simp [Except.toOption]
  simp only [recomputed?, Option.bind_eq_bind, Option.bind_eq_some_iff, Option.pure_def,
    Option.some.injEq, hopt]
  constructor
  · rintro ⟨version, h₁, location, h₂, source, h₃, trust, h₄, h₅⟩
    exact ⟨version, location, source, trust, h₁, h₂, h₃, h₄, h₅⟩
  · rintro ⟨version, location, source, trust, h₁, h₂, h₃, h₄, h₅⟩
    exact ⟨version, h₁, location, h₂, source, h₃, trust, h₄, h₅⟩

/-! ### One call -/

theorem isExecutable_quarantined (hw : WordsKept H) :
    isExecutable (.text (H.scrub quarantined.value)) = false := by
  by_contra h
  obtain ⟨t, ht, hclear⟩ := cleared_of_isExecutable (Bool.not_eq_false _ ▸ h)
  rw [← hw quarantined t (text_inj ht)] at hclear
  exact absurd hclear (by decide)

/-- What may execute goes into quarantine. -/
theorem nextState_of_isExecutable {v : SqlVal} (h : isExecutable v = true) :
    nextStateForDigestChange v = quarantined := by
  obtain ⟨t, rfl, hclear⟩ := cleared_of_isExecutable h
  rw [nextStateForDigestChange, ofColumn?_text, ofText?_value, if_neg]
  intro ht
  rw [Option.some.inj ht] at hclear
  exact absurd hclear (by decide)

/-- Once its event is in the log, a refresh returns. -/
theorem refreshDigest_of_append {w w₁ : World} {i : ℕ} {id d : String} {row : CapabilityRow}
    {env : Json} (hid : H.encodes id = true) (hd : H.encodes d = true)
    (hrow : w.db.capability? (.text id) = some row) (hne : row.currentDigest ≠ .text d)
    (happend : append H i (driftEvent id row d) none w = .ok env w₁) :
    ∃ l w', refreshDigest H i id d w = .ok l w' := by
  have henv : IsEnvOf H (driftEvent id row d) ((driftEvent id row d).timestampAt H w) env :=
    ((wp_of_ok happend).1 (append_tables i _ w)).1
  refine Returns.exists_ok ?_
  unfold Returns refreshDigest
  rw [wp_bind, wp_of_ok (getCapability_eq hid), hrow]
  dsimp only
  rw [if_neg hne, wp_bind, emitWith, wp_bind, wp_of_ok happend, wp_bind, wp_now, wp_bind, wp_onDb]
  refine wp_mono (returns_writeDigest hid hd _ _ _) (fun _ db₂ _ => ?_) fun _ _ h => h
  rw [wp_bind, wp_onDb, applyEvent_drift (henv.payloadOf (Json.isObj_mkObj _)) henv.eventType]
  have hstate : H.encodes (H.scrub (nextStateForDigestChange row.lifecycle).value) = true :=
    H.scrub_encodes _ (H.encodes_ascii _
      (by cases nextStateForDigestChange row.lifecycle <;> decide))
  refine wp_mono (returns_touched (returns_applyDrift (targetId_capability henv.target) hid ?_ ?_))
    (fun _ _ _ => (wp_pure _).2 ((wp_pure _).2 trivial)) fun _ _ h => h
  · refine bindable_eventTime henv.timestamp ?_ ?_
    · exact EventEnvelope.Open.encodes_timestampAt ⟨rfl, rfl⟩ w
    · simp [driftEvent, List.lookup, Bindable]
  · have hb : Bindable H (.str (H.scrub d)) := H.scrub_encodes _ hd
    have hs : Bindable H (.str (H.scrub (nextStateForDigestChange row.lifecycle).value)) := hstate
    simp [driftEvent, List.lookup, hb, hs]

/-- A mirrored event has a target that can be encoded. -/
theorem encodes_of_mirrorRow {env : Json} {s : String} {db db' : Db} {u : Unit}
    (h : mirrorRow H env db = .ok u db') (ht : env.get "target" = .str s) :
    H.encodes s = true := by
  have hwp : Act.wp (mirrorRow H env) (fun _ _ => H.encodes s = true) (fun _ _ => True) db := by
    unfold mirrorRow
    rw [ht]
    iterate 8
      rw [wp_bind, wp_ofExcept]
      split
      rotate_left
      · trivial
    iterate 5
      rw [wp_bind, wp_ofExcept]
      split
      rotate_left
      · trivial
    rw [wp_bind, wp_ofExcept]
    split
    · rename_i v hv
      have henc : H.encodes s = true := bindText_isOk (by rw [hv]; rfl)
      exact wp_mono (Keeps.const (H.encodes s = true) _ _ henc) (fun _ _ h => h) fun _ _ _ =>
        trivial
    · trivial
  exact (wp_of_ok h).1 hwp

theorem Logged.encodes {w : World} {id d : String} {row : CapabilityRow}
    (h : Logged H w id row d) : H.encodes id = true := by
  obtain ⟨env, w', happend⟩ := h
  obtain ⟨⟨w₁, head, ha⟩, henv, -⟩ := (wp_of_ok happend).1
    (wp_and (append_spec _ _ none _) (append_tables _ _ _))
  have h := encodes_of_mirrorRow ha.mirrored
    (show env.get "target" = .str ("capability:" ++ id) from
    henv.target)
  rw [H.encodes_append, Bool.and_eq_true_iff] at h
  exact h.2

/-- The gate on a source with another digest: it refreshes the digest, and raises. -/
theorem assertExecutable_drift (hw : WordsKept H) {w : World} {id d : String} {row : CapabilityRow}
    (hid : H.encodes id = true) (hrow : w.db.capability? (.text id) = some row)
    (hexec : isExecutable row.lifecycle = true) (hd : recomputed? H w id = some d)
    (hne : row.currentDigest ≠ .text d) :
    Act.wp (assertExecutable H id) (fun _ _ => False)
      (fun _ w' => w'.db.standings =
        (final (refreshDigest H w.objects id d) w.opened).db.standings) w := by
  obtain ⟨version, location, source, trust, hversion, hlocation, hsource, htrust, rfl⟩ :=
    recomputed?_eq_some.1 hd
  rw [assertExecutable, wp_bind, wp_of_ok (newLog_eq w), wp_bind,
    wp_of_ok (getCapability_eq (w := w.opened) hid), show w.opened.db = w.db from rfl, hrow]
  dsimp only
  rw [if_neg (by simp [hexec]), wp_bind, resolveSource, wp_bind,
    wp_of_ok (latestVersion_eq (w := w.opened) hid), show w.opened.db = w.db from rfl, hversion]
  simp only [hlocation, wp_bind, wp_ofExcept, wp_get, show w.opened.outside = w.outside from rfl,
    hsource, htrust]
  rw [if_pos fun h => hne h.symm, wp_bind]
  cases hx : refreshDigest H w.objects id trust.digest w.opened with
  | error x w₂ =>
    rw [wp_of_error hx, final, hx]
  | ok l w₂ =>
    rw [wp_of_ok hx, final_of_ok hx, wp_bind, wp_of_ok (getCapability_eq hid)]
    obtain ⟨st, hst, hwrite⟩ :=
      (wp_of_ok hx).1 (refreshDigest_spec w.objects id trust.digest w.opened)
    have hst' : w.db.standings (.text id) = some ⟨row.lifecycle, row.currentDigest⟩ := by
      rw [Db.standings, hrow]
      rfl
    obtain rfl : st = ⟨row.lifecycle, row.currentDigest⟩ := Option.some.inj (hst.symm.trans hst')
    rw [if_neg hne, nextState_of_isExecutable hexec] at hwrite
    cases hrow₂ : w₂.db.capability? (.text id) with
    | none => exact (wp_throw _).2 rfl
    | some row₂ =>
      have hl : row₂.lifecycle = .text (H.scrub quarantined.value) := by
        have h : w₂.db.standings (.text id) = some ⟨row₂.lifecycle, row₂.currentDigest⟩ := by
          rw [Db.standings, hrow₂]
          rfl
        rw [hwrite, Standings.write, Function.update_self, hst] at h
        exact (congrArg Standing.lifecycle (Option.some.inj h)).symm
      simp only [wp_pure]
      rw [if_pos (hl ▸ isExecutable_quarantined hw), wp_bind]
      exact (wp_throw _).2 rfl

/-- **What a call of the gate does.** -/
theorem gateCall (hw : WordsKept H) (w : World) (id : String) : GateCall H w id where
  passed h := by
    obtain ⟨source, trust, hpass, htrust⟩ :=
      (assertExecutable_iff (isExecutable_quarantined hw)).1 h
    obtain ⟨-, ⟨row, hrow, hexec, hdig⟩, version, location, -, -, hversion, hlocation,
      hsource, -⟩ :=
      hpass
    exact ⟨row, trust.digest, hrow, hexec, recomputed?_eq_some.2
      ⟨version, location, source, trust, hversion, hlocation, hsource, htrust, rfl⟩, hdig⟩
  drifted row d hrow hexec hd hne := by
    by_cases hid : H.encodes id = true
    · have hwp := assertExecutable_drift hw hid hrow hexec hd hne
      have hfinal : (final (assertExecutable H id) w).db.standings =
          (final (refreshDigest H w.objects id d) w.opened).db.standings :=
        wp_final (I := fun w' : World => w'.db.standings = _)
          (wp_mono hwp (fun _ _ h => h.elim) fun _ _ h => h)
      have hst : w.opened.db.standings (.text id) = some ⟨row.lifecycle, row.currentDigest⟩ := by
        change w.db.standings (.text id) = _
        rw [Db.standings, hrow]
        rfl
      have hraises : ¬ Passes H w id := by
        rintro ⟨w', h⟩
        exact (wp_of_ok h).1 hwp
      refine ⟨hraises, fun hlog => ?_, fun hlog => ?_⟩
      · obtain ⟨env, w₁, happend⟩ := hlog
        have hdenc : H.encodes d = true := by
          obtain ⟨-, -, source, trust, -, -, -, htrust, rfl⟩ := recomputed?_eq_some.1 hd
          rw [(hasDigest_iff.1 (hasDigest_of_inspect htrust)).2, H.encodes_append,
            H.encodes_ascii "sha256:" (by decide), H.encodes_ascii _ (ascii_hex _)]
          rfl
        obtain ⟨l, w₂, hx⟩ := refreshDigest_of_append (w := w.opened) hid hdenc hrow hne happend
        obtain ⟨st, hst', hwrite⟩ := (wp_of_ok hx).1 (refreshDigest_spec w.objects id d w.opened)
        obtain rfl : st = ⟨row.lifecycle, row.currentDigest⟩ :=
          Option.some.inj (hst'.symm.trans hst)
        rw [if_neg hne, nextState_of_isExecutable hexec] at hwrite
        rw [hfinal, final_of_ok hx, hwrite, Standings.write, Function.update_self, hst]
        rfl
      · rw [hfinal]
        cases hx : refreshDigest H w.objects id d w.opened with
        | error x w₂ =>
          rw [final, hx]
          exact (wp_of_error hx).1 (refreshDigest_spec w.objects id d w.opened)
        | ok l w₂ =>
          -- it returns only with its event in the log
          refine absurd ?_ hlog
          unfold refreshDigest at hx
          rw [bind_of_ok (getCapability_eq (w := w.opened) hid),
            show w.opened.db = w.db from rfl, hrow] at hx
          dsimp only at hx
          rw [if_neg hne] at hx
          obtain ⟨e, w₃, hemit, -⟩ := bind_eq_ok.1 hx
          obtain ⟨env, w₄, happend, -⟩ := bind_eq_ok.1 hemit
          exact ⟨env, w₄, happend⟩
    · have hwp : Act.wp (assertExecutable H id) (fun _ _ => False)
          (fun _ w' => w'.db.standings = w.db.standings) w := by
        rw [assertExecutable, wp_bind, wp_of_ok (newLog_eq w), wp_bind]
        refine wp_mono (getCapability_str_spec id _) ?_ fun _ w' h => h ▸ rfl
        rintro row w₁ ⟨-, henc, -⟩
        exact absurd henc hid
      have hraises : ¬ Passes H w id := by
        rintro ⟨w', h⟩
        exact (wp_of_ok h).1 hwp
      exact ⟨hraises, fun hlog => absurd hlog.encodes hid, fun _ =>
        wp_final (I := fun w' : World => w'.db.standings = w.db.standings)
          (wp_mono hwp (fun _ _ h => h.elim) fun _ _ h => h)⟩
  refused row hrow hexec := by
    have hwp : Act.wp (assertExecutable H id) (fun _ _ => False)
        (fun _ w' => w'.db.standings = w.db.standings) w := by
      rw [assertExecutable, wp_bind, wp_of_ok (newLog_eq w), wp_bind]
      by_cases hid : H.encodes id = true
      · rw [wp_of_ok (getCapability_eq (w := w.opened) hid), show w.opened.db = w.db from rfl, hrow]
        dsimp only
        rw [if_pos hexec, wp_bind]
        exact (wp_throw _).2 rfl
      · refine wp_mono (getCapability_str_spec id _) ?_ fun _ w' h => h ▸ rfl
        rintro row w₁ ⟨-, henc, -⟩
        exact absurd henc hid
    have hraises : ¬ Passes H w id := by
      rintro ⟨w', h⟩
      exact (wp_of_ok h).1 hwp
    exact ⟨hraises,
      wp_final (I := fun w' : World => w'.db.standings = w.db.standings)
        (wp_mono hwp (fun _ _ h => h.elim) fun _ _ h => h)⟩

/-! ### Runs -/

theorem not_cleared_of_executed {s : Standings} {v : SqlVal}
    (h : (s v).map (·.lifecycle) = some (.text (H.scrub quarantined.value))) (hw : WordsKept H) :
    ¬ s.Cleared v := by
  rintro ⟨t, ht, hin⟩
  rw [Standings.In, h] at hin
  rw [← hw quarantined t (text_inj (Option.some.inj hin))] at ht
  exact absurd ht (by decide)

/-- A transition into `approved` comes out of `inspected`. -/
theorem inspected_of_transition (hw : WordsKept H) {s : Standings} {u v : SqlVal} {st : Standing}
    {t : Lifecycle} (hst : s u = some st) (hcan : canTransition st.lifecycle t = true)
    (hno : ¬ s.In v approved)
    (happ : (s.write u (Standing.withLifecycle (.text (H.scrub t.value)))).In v approved) :
    s.In v inspected := by
  by_cases h : v = u
  · subst h
    have hg : ∀ st : Standing, (st.withLifecycle (.text (H.scrub t.value))).lifecycle =
      .text (H.scrub t.value) := fun _ => rfl
    obtain ⟨-, hl⟩ := (Standings.in_write_self hg).1 happ
    rw [hw t approved (text_inj hl)] at hcan
    obtain ⟨t', ht', hmem⟩ := canTransition_iff.1 hcan
    rw [Standings.In, hst, Option.map_some, ht']
    revert hmem
    cases t' <;> decide
  · exact absurd ((Standings.in_write_of_ne h).1 happ) hno

/-- What `approve` changes is the standing of a capability in `quarantined` or `inspected`. -/
theorem approve_changes (id actor : String) (w : World) :
    let R := fun s' : Standings => (∀ v, v ≠ .text id → s' v = w.db.standings v) ∧
      (s' (.text id) = w.db.standings (.text id) ∨ w.db.standings.In (.text id) quarantined ∨
        w.db.standings.In (.text id) inspected)
    Act.wp (approve H id actor) (fun _ w' => R w'.db.standings) (fun _ w' => R w'.db.standings)
      w := by
  intro R
  have hsame : R w.db.standings := ⟨fun _ _ => rfl, Or.inl rfl⟩
  -- a transition changes the standing under the id alone
  have hset : ∀ (i : ℕ) (t : String) {w₁ : World}, (∀ v, v ≠ .text id →
      w₁.db.standings v = w.db.standings v) → (w.db.standings.In (.text id) quarantined ∨
        w.db.standings.In (.text id) inspected) →
      Act.wp (setLifecycle H i (.str id) t actor) (fun _ w' => R w'.db.standings)
        (fun _ w' => R w'.db.standings) w₁ := by
    intro i t w₁ hout hin
    refine wp_mono (setLifecycle_spec i (keyText_str id) t actor w₁) ?_ ?_
    · rintro - w' ⟨st, t', -, -, -, hs⟩
      rw [hs]
      exact ⟨fun v hv => (Function.update_of_ne hv _ _).trans (hout v hv), Or.inr hin⟩
    · rintro - w' hs
      rw [hs]
      exact ⟨hout, Or.inr hin⟩
  have hread : ∀ {w₁ : World} {Q : CapabilityRow → World → Prop}, R w₁.db.standings →
      (∀ row : CapabilityRow, w₁.db.standings (.text id) = some ⟨row.lifecycle, row.currentDigest⟩ →
        Q row w₁) → Act.wp (requireCapability H id) Q (fun _ w' => R w'.db.standings) w₁ := by
    intro w₁ Q hR hQ
    unfold requireCapability
    rw [wp_bind]
    refine wp_mono (getCapability_str_spec id w₁) ?_ fun _ w' h => h ▸ hR
    rintro row w₂ ⟨rfl, -, hst⟩
    cases row with
    | none => exact (wp_throw _).2 hR
    | some row => exact (wp_pure _).2 (hQ row hst)
  have happrove : ∀ (i : ℕ) {w₁ : World}, R w₁.db.standings → Act.wp (do
        let row ← requireCapability H id
        if row.lifecycle = .text inspected.value then
          setLifecycle H i (.str id) approved.value actor)
      (fun _ w' => R w'.db.standings) (fun _ w' => R w'.db.standings) w₁ := by
    intro i w₁ hR
    rw [wp_bind]
    refine hread hR fun row hst => ?_
    rw [wp_ite]
    refine ⟨fun hl => hset i _ hR.1 ?_, fun _ => (wp_pure _).2 hR⟩
    rcases hR.2 with hsame | hin
    · refine Or.inr ?_
      rw [Standings.In, ← hsame, hst, Option.map_some, hl]
    · exact hin
  unfold approve
  rw [wp_bind, wp_newLog, wp_bind]
  refine hread hsame fun row hst => ?_
  change w.db.standings (.text id) = _ at hst
  split_ifs with hl
  · rw [wp_bind]
    refine wp_mono (hset w.objects _ (fun _ _ => rfl) (Or.inl ?_)) (fun _ w' h => happrove _ h)
      fun _ _ h => h
    rw [Standings.In, hst, Option.map_some, hl]
  · exact happrove _ hsame

theorem registryStep_edit (w : World) (outside : Outside) :
    (registryStep H w (.edit outside)).db = w.db := rfl

/-- **Nothing but a new approval opens a capability.** -/
theorem reapproved_of_cleared (hw : WordsKept H) {w : World} {c : RegistryCall}
    (hc : c.Meets H w) {id : String} (hno : ¬ w.db.standings.Cleared (.text id))
    (hcl : (registryStep H w c).db.standings.Cleared (.text id)) : Reapproved H w c id := by
  obtain ⟨hnoapp, happ⟩ := (((registryStep_sound hw w c hc).opened _ hcl).2).resolve_left hno
  refine ⟨happ, ?_⟩
  -- what changes the standing to a cleared one
  have hsame : ∀ s' : Standings, s'.Cleared (.text id) →
      s' (.text id) ≠ w.db.standings (.text id) := fun s' hs' h => hno ((cleared_congr h).1 hs')
  unfold registryStep at happ hcl
  cases c with
  | approve id' actor =>
    obtain ⟨hout, hin⟩ := wp_final (approve_changes (H := H) id' actor w)
    by_cases h : id = id'
    · subst h
      rcases hin with hin | hin | hin
      · exact absurd hin (hsame _ hcl)
      · exact Or.inr ⟨hin, actor, rfl⟩
      · exact Or.inl hin
    · exact absurd (hout _ fun h' => h (text_inj h')) (hsame _ hcl)
  | setLifecycle object id' target actor =>
    refine Or.inl ?_
    have hspec := wp_final (I := fun w' : World => w'.db.standings = w.db.standings ∨
      ∃ (st : Standing) (t : Lifecycle), w.db.standings (.text id') = some st ∧
        canTransition st.lifecycle t = true ∧ w'.db.standings =
          w.db.standings.write (.text id') (Standing.withLifecycle (.text (H.scrub t.value))))
      (wp_mono (setLifecycle_spec (H := H) object (keyText_str id') target actor w)
        (fun _ w' ⟨st, t, _, hst, hcan, hs⟩ => Or.inr ⟨st, t, hst, hcan, hs⟩) fun _ _ h => Or.inl h)
    rcases hspec with hs | ⟨st, t, hst, hcan, hs⟩
    · exact absurd (congrFun hs _) (hsame _ hcl)
    · exact inspected_of_transition hw hst hcan hnoapp (hs ▸ happ)
  | decide object d =>
    refine Or.inl ?_
    rw [RegistryCall.run, final_discard] at happ hcl
    rcases wp_final (I := fun w' : World => _) (decideHuman_spec (H := H) object d w hc) with
      hs | ⟨-, id', -, st, hst, hcan, hs⟩
    · exact absurd (congrFun hs _) (hsame _ hcl)
    · exact inspected_of_transition hw hst hcan hnoapp (hs ▸ happ)
  | register discovered trust adapter =>
    rw [RegistryCall.run, final_discard] at hcl
    have h := wp_final (I := fun w' : World => _)
      (registerDiscovery_lowers hw discovered trust adapter hc)
    exact absurd ((h.closed _).resolve_right (not_not_intro hcl)) (hsame _ hcl)
  | onboard source =>
    rw [RegistryCall.run, final_discard] at hcl
    have h := wp_final (I := fun w' : World => _) (onboard_lowers hw source hc)
    exact absurd ((h.closed _).resolve_right (not_not_intro hcl)) (hsame _ hcl)
  | revoke id' actor =>
    have h := wp_final (I := fun w' : World => _) (revoke_lowers hw id' actor w)
    exact absurd ((h.closed _).resolve_right (not_not_intro hcl)) (hsame _ hcl)
  | refreshDigest object id' d =>
    rw [RegistryCall.run, final_discard] at hcl
    have h := wp_final (I := fun w' : World => _) (refreshDigest_lowers hw object id' d w)
    exact absurd ((h.closed _).resolve_right (not_not_intro hcl)) (hsame _ hcl)
  | assertExecutable id' =>
    have h := wp_final (I := fun w' : World => _) (assertExecutable_lowers hw id' w)
    exact absurd ((h.closed _).resolve_right (not_not_intro hcl)) (hsame _ hcl)
  | edit outside => exact absurd rfl (hsame _ hcl)

/-- **Runs of the gate**: each call does what `GateCall` says, and after a capability was put into
quarantine no call lets it pass until it was approved out of `inspected` again. -/
theorem gate_over_runs (hw : WordsKept H) {w : World} {calls : List RegistryCall}
    (hmeets : Run.Throughout (registryStep H) (RegistryCall.Meets H) w calls) (id : String)
    (k : ℕ) :
    let world := fun k => Run.stateAt (registryStep H) w calls k
    GateCall H (world k) id ∧
      (((world k).db.standings (.text id)).map (·.lifecycle) =
          some (.text (H.scrub quarantined.value)) →
        ∀ m, k ≤ m → Passes H (world m) id →
          ∃ j c, k ≤ j ∧ j < m ∧ calls[j]? = some c ∧ Reapproved H (world j) c id) := by
  intro world
  refine ⟨gateCall hw _ id, fun hq m hkm hpass => ?_⟩
  have hclosed : ¬ (world k).db.standings.Cleared (.text id) := not_cleared_of_executed hq hw
  -- the capability is cleared when it passes, so some call in between has opened it
  have hopen : ∀ m, k ≤ m → (world m).db.standings.Cleared (.text id) →
      ∃ j c, k ≤ j ∧ j < m ∧ calls[j]? = some c ∧ Reapproved H (world j) c id := by
    intro m hkm
    induction m, hkm using Nat.le_induction with
    | base => exact fun hcl => absurd hcl hclosed
    | succ m hkm ih =>
      intro hcl
      by_cases hm : (world m).db.standings.Cleared (.text id)
      · obtain ⟨j, c, hkj, hjm, hc, happ⟩ := ih hm
        exact ⟨j, c, hkj, by omega, hc, happ⟩
      · by_cases hlt : m < calls.length
        · have hstep : world (m + 1) = registryStep H (world m) calls[m] := Run.stateAt_succ hlt
          rw [hstep] at hcl
          exact ⟨m, calls[m], hkm, by omega, List.getElem?_eq_getElem hlt,
            reapproved_of_cleared hw (hmeets.at hlt) hm hcl⟩
        · have hstep : world (m + 1) = world m := Run.stateAt_of_length_le (by omega)
          rw [hstep] at hcl
          exact absurd hcl hm
  refine hopen m hkm ?_
  obtain ⟨row, d, hrow, hexec, -⟩ := (gateCall hw (world m) id).passed hpass
  obtain ⟨t, ht, hclear⟩ := cleared_of_isExecutable hexec
  refine ⟨t, hclear, ?_⟩
  rw [Standings.In, Db.standings, hrow, Option.map_some, Option.map_some, ht]

/-! ### Two runs -/

/-- A project with an approved tool, whose file now holds the given byte. -/
def toolHolds (b : UInt8) : World :=
  approvedWorld ((oneFile "main.py" 1 (by decide)).digestUnder (Host.quick id))
    (oneFile "main.py" b (by decide))

/-- The tool changes, the gate is asked, and the change is undone. -/
def restoreCalls : List RegistryCall :=
  [.edit (toolHolds 2).outside, .assertExecutable "tool", .edit (toolHolds 1).outside]

/-- The gate stays closed after the change is undone. -/
theorem gate_over_runs_restored :
    ¬ Passes (Host.quick id)
      (Run.stateAt (registryStep (Host.quick id)) (toolHolds 1) restoreCalls 3)
      "tool" := by
  have hw : WordsKept (Host.quick id) := fun _ _ h => Lifecycle.value_injective h
  have hmeets : Run.Throughout (registryStep (Host.quick id)) (RegistryCall.Meets (Host.quick id))
      (toolHolds 1) restoreCalls := ⟨trivial, trivial, trivial, trivial⟩
  have hq : (Run.stateAt (registryStep (Host.quick id)) (toolHolds 1) restoreCalls
    2).db.standings.In
      (.text "tool") quarantined := by decide +kernel
  intro hpass
  obtain ⟨j, c, hj, hj', hc, hre⟩ :=
    (gate_over_runs hw hmeets "tool" 2).2 hq 3 (by omega) hpass
  obtain rfl : j = 2 := by omega
  cases hc
  -- the last call is an edit, which moves no capability
  have happ := hre.1
  rw [registryStep_edit] at happ
  exact absurd (happ.unique hq) (by decide)

/-- A script is onboarded, and it changes while it waits for its approval. -/
def waitingCalls : List RegistryCall :=
  [.onboard "/srv/project/run.sh",
    .edit { scriptWorld.outside with source := fun _ => some (byteSource "run.sh" 2 runSh_noNul) }]

/-- **A changed capability that waits for approval is left as it is**: the gate raises for its
lifecycle, and neither records the digest nor puts it into quarantine, although the event of the
change could be appended. -/
theorem waiting_left :
    let H := Host.quick id
    let w := Run.stateAt (registryStep H) scriptWorld waitingCalls 2
    let s := (final (assertExecutable H "local.run") w).db.standings
    ∃ row d, w.db.capability? (.text "local.run") = some row ∧
      recomputed? H w "local.run" = some d ∧ row.currentDigest ≠ .text d ∧
      Logged H w "local.run" row d ∧ s.In (.text "local.run") inspected ∧
      s.digest (.text "local.run") = some row.currentDigest := by
  intro H w s
  have hany : ((w.db.capability? (.text "local.run")).any fun row =>
      (recomputed? H w "local.run").any fun d => decide (row.currentDigest ≠ .text d ∧
        (Act.result? (append H w.objects (driftEvent "local.run" row d) none)
          w.opened).isSome = true ∧
        s.In (.text "local.run") inspected ∧
        s.digest (.text "local.run") = some row.currentDigest)) = true := by
    decide +kernel
  obtain ⟨row, hrow, hany⟩ := (Option.any_eq_true _ _).1 hany
  obtain ⟨d, hd, h⟩ := (Option.any_eq_true _ _).1 hany
  obtain ⟨hne, happend, hin, hdig⟩ := of_decide_eq_true h
  obtain ⟨env, w', happend⟩ := exists_ok happend
  exact ⟨row, d, hrow, hd, hne, ⟨env, w', happend⟩, hin, hdig⟩

end Shiroe
