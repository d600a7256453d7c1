import Shiroe.Capabilities.Registry
import Shiroe.Lib.Run

/-!
# Who may execute

A capability is cleared while its lifecycle is one of those that only an approval opens.  A call
either opens nothing (`Lowers`) or opens by an approval that keeps the digest (`Sound`); neither
takes a capability out of `revoked`.
-/

namespace Shiroe

open Act Lifecycle

/-- The redaction pass turns no lifecycle state into another one. -/
def WordsKept (H : Host) : Prop := ∀ s t : Lifecycle, H.scrub s.value = t.value → s = t

namespace Standings

/-- The capability is in the given state. -/
def In (s : Standings) (v : SqlVal) (t : Lifecycle) : Prop :=
  (s v).map (·.lifecycle) = some (.text t.value)

instance (s : Standings) (v : SqlVal) (t : Lifecycle) : Decidable (s.In v t) :=
  inferInstanceAs (Decidable (_ = _))

/-- The capability is cleared. -/
def Cleared (s : Standings) (v : SqlVal) : Prop := ∃ t : Lifecycle, t.Cleared ∧ s.In v t

/-- The digest that the registry keeps of a capability. -/
def digest (s : Standings) (v : SqlVal) : Option SqlVal := (s v).map (·.digest)

variable {s : Standings} {u v : SqlVal} {t : Lifecycle}

theorem in_write_of_ne {g : Standing → Standing} (h : u ≠ v) :
    (s.write v g).In u t ↔ s.In u t := by
  rw [In, write, Function.update_of_ne h]
  rfl

theorem in_write_self {g : Standing → Standing} {l : SqlVal} (hl : ∀ st, (g st).lifecycle = l) :
    (s.write v g).In v t ↔ (s v).isSome = true ∧ l = .text t.value := by
  rw [In, write, Function.update_self]
  cases s v with
  | none => simp
  | some st => simp [hl]

theorem in_put_of_ne {st : Standing} (h : u ≠ v) :
    In (Function.update s v (some st)) u t ↔ s.In u t := by
  rw [In, Function.update_of_ne h]
  rfl

theorem in_put_self {st : Standing} :
    In (Function.update s v (some st)) v t ↔ st.lifecycle = .text t.value := by
  rw [In, Function.update_self]
  simp

/-- A capability is in one state. -/
theorem In.unique {t' : Lifecycle} (h : s.In v t) (h' : s.In v t') : t = t' := by
  rw [In, h] at h'
  exact value_injective (by simpa using h')

end Standings

/-- What every call does to the state `revoked`. -/
structure Revocation (H : Host) (s s' : Standings) : Prop where
  /-- Nothing leads out of it, where the redaction pass keeps its word. -/
  kept : H.scrub revoked.value = revoked.value → ∀ v, s.In v revoked → s'.In v revoked
  /-- It is entered only where the redaction pass keeps its word. -/
  entered : ∀ v, s'.In v revoked → s.In v revoked ∨ H.scrub revoked.value = revoked.value

/-- Nothing is opened: what changes is not cleared afterwards. -/
structure Lowers (H : Host) (s s' : Standings) : Prop extends Revocation H s s' where
  closed : ∀ v, s' v = s v ∨ ¬ s'.Cleared v

/-- What is cleared has kept its digest, and was cleared before unless it was just approved. -/
structure Sound (H : Host) (s s' : Standings) : Prop extends Revocation H s s' where
  opened : ∀ v, s'.Cleared v →
    s'.digest v = s.digest v ∧ (s.Cleared v ∨ (¬ s.In v approved ∧ s'.In v approved))

variable {H : Host} {s s' s'' : Standings}

theorem Revocation.refl (H : Host) (s : Standings) : Revocation H s s where
  kept _ _ h := h
  entered _ h := Or.inl h

theorem Revocation.trans (h : Revocation H s s') (h' : Revocation H s' s'') :
    Revocation H s s'' where
  kept hw v hv := h'.kept hw v (h.kept hw v hv)
  entered v hv := (h'.entered v hv).elim (h.entered v) Or.inr

theorem Lowers.refl (H : Host) (s : Standings) : Lowers H s s :=
  { Revocation.refl H s with closed := fun _ => Or.inl rfl }

/-- A standing that is the same is cleared as before. -/
theorem cleared_congr {v : SqlVal} (h : s' v = s v) : s'.Cleared v ↔ s.Cleared v := by
  simp only [Standings.Cleared, Standings.In, h]

theorem Lowers.trans (h : Lowers H s s') (h' : Lowers H s' s'') : Lowers H s s'' where
  toRevocation := h.toRevocation.trans h'.toRevocation
  closed v := by
    rcases h'.closed v with hsame | hno
    · rcases h.closed v with hsame' | hno
      · exact Or.inl (hsame.trans hsame')
      · exact Or.inr fun hc => hno ((cleared_congr hsame).1 hc)
    · exact Or.inr hno

theorem Lowers.sound (h : Lowers H s s') : Sound H s s' where
  toRevocation := h.toRevocation
  opened v hc := by
    have hsame := (h.closed v).resolve_right (not_not_intro hc)
    exact ⟨by rw [Standings.digest, hsame]; rfl, Or.inl ((cleared_congr hsame).1 hc)⟩

/-- An approval after a step that opens nothing and keeps the digests. -/
theorem Sound.of_lowers (h : Lowers H s s') (hd : ∀ v, s'.digest v = s.digest v)
    (h' : Sound H s' s'') (ha : ∀ v, s''.Cleared v → ¬ s'.Cleared v → ¬ s.In v approved) :
    Sound H s s'' where
  toRevocation := h.toRevocation.trans h'.toRevocation
  opened v hc := by
    obtain ⟨hdig, hop⟩ := h'.opened v hc
    refine ⟨hdig.trans (hd v), ?_⟩
    rcases hop with hop | ⟨hno, happ⟩
    · exact Or.inl ((cleared_congr ((h.closed v).resolve_right (not_not_intro hop))).1 hop)
    · by_cases hcl : s'.Cleared v
      · exact Or.inl ((cleared_congr ((h.closed v).resolve_right (not_not_intro hcl))).1 hcl)
      · exact Or.inr ⟨ha v hc hcl, happ⟩

/-! ### Single writes -/

/-- A lifecycle that a write may give to a capability without opening it. -/
structure LowerWord (H : Host) (l : SqlVal) : Prop where
  notCleared : ∀ t : Lifecycle, t.Cleared → l ≠ .text t.value
  revoked : l = .text revoked.value → H.scrub revoked.value = revoked.value

theorem lowers_write {v : SqlVal} {g : Standing → Standing} {l : SqlVal}
    (hg : ∀ st, (g st).lifecycle = l) (hl : LowerWord H l)
    (hrev : H.scrub revoked.value = revoked.value → s.In v revoked → l = .text revoked.value) :
    Lowers H s (s.write v g) where
  kept hw u hu := by
    by_cases h : u = v
    · subst h
      refine (Standings.in_write_self hg).2 ⟨?_, hrev hw hu⟩
      cases hs : s u with
      | none => simp [Standings.In, hs] at hu
      | some st => rfl
    · exact (Standings.in_write_of_ne h).2 hu
  entered u hu := by
    by_cases h : u = v
    · subst h
      exact Or.inr (hl.revoked ((Standings.in_write_self hg).1 hu).2)
    · exact Or.inl ((Standings.in_write_of_ne h).1 hu)
  closed u := by
    by_cases h : u = v
    · subst h
      refine Or.inr ?_
      rintro ⟨t, ht, hin⟩
      exact hl.notCleared t ht ((Standings.in_write_self hg).1 hin).2
    · exact Or.inl (Function.update_of_ne h _ _)

theorem lowers_put {v : SqlVal} {st : Standing} (hl : LowerWord H st.lifecycle)
    (hrev : H.scrub revoked.value = revoked.value → ¬ s.In v revoked) :
    Lowers H s (Function.update s v (some st)) where
  kept hw u hu := by
    by_cases h : u = v
    · subst h
      exact absurd hu (hrev hw)
    · exact (Standings.in_put_of_ne h).2 hu
  entered u hu := by
    by_cases h : u = v
    · subst h
      exact Or.inr (hl.revoked (Standings.in_put_self.1 hu))
    · exact Or.inl ((Standings.in_put_of_ne h).1 hu)
  closed u := by
    by_cases h : u = v
    · subst h
      refine Or.inr ?_
      rintro ⟨t, ht, hin⟩
      exact hl.notCleared t ht (Standings.in_put_self.1 hin)
    · exact Or.inl (Function.update_of_ne h _ _)

theorem text_inj {a b : String} (h : SqlVal.text a = .text b) : a = b := SqlVal.text.inj h

theorem lowerWord_quarantined : LowerWord H (.text quarantined.value) where
  notCleared u hu h := by
    have := value_injective (text_inj h)
    subst this
    exact absurd hu (by decide)
  revoked h := absurd (text_inj h) (by decide)

theorem digest_withLifecycle (s : Standings) (v u : SqlVal) (l : SqlVal) :
    (s.write v (Standing.withLifecycle l)).digest u = s.digest u := by
  by_cases h : u = v
  · subst h
    rw [Standings.digest, Standings.write, Function.update_self, Option.map_map]
    rfl
  · rw [Standings.digest, Standings.write, Function.update_of_ne h]
    rfl

section

variable (hw : WordsKept H)

include hw

/-- The word of a state that is not cleared. -/
theorem lowerWord_scrub {t : Lifecycle} (ht : ¬ t.Cleared) :
    LowerWord H (.text (H.scrub t.value)) where
  notCleared u hu h := ht (hw t u (text_inj h) ▸ hu)
  revoked h := by
    have h' := text_inj h
    rwa [hw t revoked h'] at h'

/-- A transition to a state that is not cleared. -/
theorem lowers_transition {v : SqlVal} {st : Standing} {t : Lifecycle} (hst : s v = some st)
    (hcan : canTransition st.lifecycle t = true) (ht : ¬ t.Cleared) :
    Lowers H s (s.write v (Standing.withLifecycle (.text (H.scrub t.value)))) := by
  refine lowers_write (fun _ => rfl) (lowerWord_scrub hw ht) fun _ hin => ?_
  rw [Standings.In, hst] at hin
  have hl : st.lifecycle = .text revoked.value := by simpa using hin
  rw [hl, not_canTransition_revoked] at hcan
  cases hcan

/-- Any transition is sound. -/
theorem sound_transition {v : SqlVal} {st : Standing} {t : Lifecycle} (hst : s v = some st)
    (hcan : canTransition st.lifecycle t = true) :
    Sound H s (s.write v (Standing.withLifecycle (.text (H.scrub t.value)))) := by
  by_cases ht : t.Cleared
  · obtain ⟨from', hfrom, htrans⟩ := canTransition_iff.1 hcan
    have hin : s.In v from' := by rw [Standings.In, hst, ← hfrom]; rfl
    have hword : ∀ u : Lifecycle, H.scrub t.value = u.value → u = t := fun u h => (hw t u h).symm
    have hg : ∀ st : Standing, (st.withLifecycle (.text (H.scrub t.value))).lifecycle =
      .text (H.scrub t.value) := fun _ => rfl
    refine ⟨⟨fun _ u hu => ?_, fun u hu => ?_⟩, fun u hc => ⟨digest_withLifecycle s v u _, ?_⟩⟩
    · by_cases h : u = v
      · subst h
        rw [hin.unique hu] at htrans
        cases htrans
      · exact (Standings.in_write_of_ne h).2 hu
    · by_cases h : u = v
      · subst h
        have := hword _ (text_inj ((Standings.in_write_self hg).1 hu).2)
        subst this
        exact absurd ht (by decide)
      · exact Or.inl ((Standings.in_write_of_ne h).1 hu)
    · by_cases h : u = v
      · subst h
        obtain ⟨t', ht', hin'⟩ := hc
        have := hword _ (text_inj ((Standings.in_write_self hg).1 hin').2)
        subst this
        rcases cleared_of_mem_transitions htrans ht' with rfl | hcl
        · by_cases happ : from' = approved
          · subst happ
            exact absurd htrans (by decide)
          · exact Or.inr ⟨fun h => happ (hin.unique h), hin'⟩
        · exact Or.inl ⟨from', hcl, hin⟩
      · obtain ⟨t', ht', hin'⟩ := hc
        exact Or.inl ⟨t', ht', (Standings.in_write_of_ne h).1 hin'⟩
  · exact (lowers_transition hw hst hcan ht).sound

/-- A changed source puts the capability back. -/
theorem lowers_drift {v : SqlVal} {st : Standing} (hst : s v = some st) (d : SqlVal) :
    Lowers H s (s.write v fun _ =>
      ⟨.text (H.scrub (nextStateForDigestChange st.lifecycle).value), d⟩) := by
  have hnext : ¬ (nextStateForDigestChange st.lifecycle).Cleared := by
    unfold nextStateForDigestChange
    split_ifs <;> decide
  refine lowers_write (fun _ => rfl) (lowerWord_scrub hw hnext) fun hrev hin => ?_
  rw [Standings.In, hst] at hin
  have hl : st.lifecycle = .text revoked.value := by simpa using hin
  have hn : nextStateForDigestChange (.text revoked.value) = revoked :=
    if_pos (ofText?_value revoked)
  simp only [hl, hn, hrev]

end

/-! ### Calls that open nothing -/

/-- Every way out of the computation opens nothing. -/
def Lowering (H : Host) {α : Type} (x : Op α) : Prop := ∀ w,
  Act.wp x (fun _ w' => Lowers H w.db.standings w'.db.standings)
    (fun _ w' => Lowers H w.db.standings w'.db.standings) w

namespace Lowering

variable {α β : Type}

theorem of_leaves {x : Op α} (hx : Leaves (fun w : World => w.db.standings) x) : Lowering H x := by
  intro w
  refine wp_mono (hx.wp w) (fun _ w' h => ?_) fun _ w' h => ?_
  · change w'.db.standings = w.db.standings at h
    rw [h]
    exact Lowers.refl H _
  · change w'.db.standings = w.db.standings at h
    rw [h]
    exact Lowers.refl H _

theorem bind {x : Op β} {f : β → Op α} (hx : Lowering H x) (hf : ∀ b, Lowering H (f b)) :
    Lowering H (x >>= f) := by
  intro w
  rw [wp_bind]
  refine wp_mono (hx w) (fun b w₁ h => ?_) fun _ _ h => h
  exact wp_mono (hf b w₁) (fun _ _ h' => h.trans h') fun _ _ h' => h.trans h'

/-- What follows a part that opens nothing. -/
theorem wp_of_lowers {x : Op α} (hx : Lowering H x) {s : Standings} {w : World}
    (h : Lowers H s w.db.standings) :
    Act.wp x (fun _ w' => Lowers H s w'.db.standings)
      (fun _ w' => Lowers H s w'.db.standings) w :=
  wp_mono (hx w) (fun _ _ h' => h.trans h') fun _ _ h' => h.trans h'

theorem pure (a : α) : Lowering H (Pure.pure a : Op α) := of_leaves fun _ => Keeps.pure a

theorem throw (e : Exc) : Lowering H (MonadExcept.throw e : Op α) :=
    of_leaves fun _ => Keeps.throw e

theorem ofExcept (r : Except Exc α) : Lowering H (Act.ofExcept r) :=
  of_leaves fun _ => Keeps.ofExcept r

theorem ite {c : Prop} [Decidable c] {x y : Op α} (hx : c → Lowering H x)
    (hy : ¬ c → Lowering H y) : Lowering H (if c then x else y) := by
  by_cases h : c
  · rw [if_pos h]
    exact hx h
  · rw [if_neg h]
    exact hy h

/-- `if c: raise e` in front of what follows. -/
theorem guard {c : Prop} [Decidable c] {e : Exc} {f : PUnit → Op α}
    (hf : ∀ u, Lowering H (f u)) :
    Lowering H (if c then (MonadExcept.throw e : Op PUnit) >>= f else f ⟨⟩) :=
  ite (fun _ => (throw e).bind hf) fun _ => hf ⟨⟩

theorem get : Lowering H (MonadState.get : Op World) := of_leaves fun _ => Keeps.get

theorem newLog : Lowering H newLog := by
  intro w
  rw [wp_newLog]
  exact Lowers.refl H _

theorem now : Lowering H (Shiroe.now H) := by
  intro w
  rw [wp_now]
  exact Lowers.refl H _

theorem readDb (f : Db → Except Exc α) : Lowering H (Shiroe.readDb f) :=
  bind get fun _ => ofExcept _

theorem getCapability (id : Json) : Lowering H (Shiroe.getCapability H id) := readDb _

theorem getApproval (id : String) : Lowering H (Shiroe.getApproval H id) := readDb _

theorem requireCapability (id : String) : Lowering H (Shiroe.requireCapability H id) := by
  refine bind (getCapability _) fun row => ?_
  cases row with
  | none => exact throw _
  | some row => exact pure row

/-- Events about approvals open nothing in the registry. -/
theorem emit {e : EventEnvelope} (he : e.Open) (ht : domainOfType e.eventType = some .approvals)
    (hne : e.eventType ≠ "") (i : ℕ) : Lowering H (Shiroe.emit H i e) :=
  of_leaves fun c w hw => by
    subst hw
    exact emit_standings_approval he ht hne i w

theorem requestApproval (i : ℕ) (a : RequestArgs) : Lowering H (Shiroe.requestApproval H i a) := by
  unfold Shiroe.requestApproval
  refine bind ?_ fun id => bind now fun requestedAt => bind (ofExcept _) fun r => ?_
  · unfold requestId
    cases given a.requestId with
    | some id => exact pure id
    | none =>
      refine bind (fun w => ?_) fun _ => pure _
      rw [wp_uuidHex]
      exact Lowers.refl H _
  · exact bind (emit ⟨rfl, rfl⟩ (show domainOfType "approval.requested" = _ by decide)
      (show "approval.requested" ≠ "" by decide) i) fun _ => pure _

end Lowering

/-! ### The calls -/

/-- The registration of a new capability overwrites no revoked one: the id under which it is stored
is the id after redaction. -/
def Registers (H : Host) (s : Standings) (id : String) : Prop :=
  s (.text id) = none → ¬ s.In (.text (H.scrub id)) revoked

section

variable (hw : WordsKept H)

include hw

theorem setLifecycle_sound (i : ℕ) {id : Json} (hkey : KeyText H id) (target actor : String)
    (w : World) :
    Act.wp (setLifecycle H i id target actor)
      (fun _ w' => Sound H w.db.standings w'.db.standings)
      (fun _ w' => Sound H w.db.standings w'.db.standings) w := by
  refine wp_mono (setLifecycle_spec i hkey target actor w) ?_ ?_
  · rintro - w' ⟨st, t, -, hst, hcan, hs⟩
    rw [hs]
    exact sound_transition hw hst hcan
  · rintro - w' hs
    rw [hs]
    exact (Lowers.refl H _).sound

theorem setLifecycle_lowers (i : ℕ) {id : Json} (hkey : KeyText H id) {t : Lifecycle}
    (ht : ¬ t.Cleared) (actor : String) : Lowering H (setLifecycle H i id t.value actor) := by
  intro w
  refine wp_mono (setLifecycle_spec i hkey t.value actor w) ?_ ?_
  · rintro - w' ⟨st, t', ht', hst, hcan, hs⟩
    rw [ofText?_value] at ht'
    cases ht'
    rw [hs]
    exact lowers_transition hw hst hcan ht
  · rintro - w' hs
    rw [hs]
    exact Lowers.refl H _

theorem refreshDigest_lowers (i : ℕ) (id d : String) : Lowering H (refreshDigest H i id d) := by
  intro w
  refine wp_mono (refreshDigest_spec i id d w) ?_ ?_
  · rintro - w' ⟨st, hst, hs⟩
    split_ifs at hs
    · rw [hs]
      exact Lowers.refl H _
    · rw [hs]
      exact lowers_drift hw hst _
  · rintro - w' hs
    rw [hs]
    exact Lowers.refl H _

theorem registerOrRefresh_lowers (i : ℕ) (id : String) (manifest : Json) (location : String)
    (trust : TrustReport) {w : World} (hnew : Registers H w.db.standings id) :
    Act.wp (registerOrRefresh H i id manifest location trust)
      (fun _ w' => Lowers H w.db.standings w'.db.standings)
      (fun _ w' => Lowers H w.db.standings w'.db.standings) w := by
  unfold registerOrRefresh
  rw [wp_bind]
  refine wp_mono (getCapability_str_spec id w) ?_ fun _ w' h => h ▸ Lowers.refl H _
  rintro row w₀ ⟨rfl, hid, hst⟩
  cases row with
  | some row =>
    simp only
    exact ((refreshDigest_lowers hw i id trust.digest).bind fun _ => Lowering.pure ()) w₀
  | none =>
    simp only [Option.map_none] at hst ⊢
    have hq : ¬ quarantined.Cleared := by decide
    -- the row goes under the id after redaction
    have hput : ∀ a : UpsertArgs, a.capabilityId = id → a.lifecycle = quarantined.value →
        ∀ s', Upserted H a w₀.db.standings s' →
          Lowers H w₀.db.standings s' ∧ ¬ s'.In (.text id) revoked := by
      rintro a rfl hla s' (rfl | rfl)
      · refine ⟨Lowers.refl H _, fun hin => ?_⟩
        rw [Standings.In, hst] at hin
        cases hin
      · rw [hla]
        refine ⟨lowers_put (lowerWord_scrub hw hq) fun _ => hnew hst, fun hin => ?_⟩
        by_cases h : SqlVal.text a.capabilityId = .text (H.scrub a.capabilityId)
        · rw [h] at hin
          exact absurd (hw _ _ (text_inj (Standings.in_put_self.1 hin))) (by decide)
        · have hin' := (Standings.in_put_of_ne h).1 hin
          rw [Standings.In, hst] at hin'
          cases hin'
    rw [wp_bind]
    refine wp_mono (upsertCapability_spec i _ w₀) (fun _ w₁ h₁ => ?_) fun _ _ h =>
      (hput _ rfl rfl _ h).1
    obtain ⟨hl, hno⟩ := hput _ rfl rfl _ h₁
    rw [wp_bind]
    have hquar : ∀ s', (s' = w₁.db.standings ∨ s' = w₁.db.standings.write (.text id)
        (Standing.withLifecycle (.text quarantined.value))) → Lowers H w₀.db.standings s' := by
      rintro s' (rfl | rfl)
      · exact hl
      · exact hl.trans (lowers_write (fun _ => rfl) lowerWord_quarantined
          fun _ hin => absurd hin hno)
    refine wp_mono (emit_quarantined hid i w₁) (fun _ w' h => ?_) fun _ w' h => hquar _ h
    rw [wp_pure]
    exact hquar _ h

theorem registerDiscovery_lowers (d : DiscoveredCapability) (trust : TrustReport)
    (adapter : Option String) {w : World}
    (hnew : Registers H w.db.standings (capabilityIdFor d ((given adapter).getD d.adapter))) :
    Act.wp (registerDiscovery H d trust adapter)
      (fun _ w' => Lowers H w.db.standings w'.db.standings)
      (fun _ w' => Lowers H w.db.standings w'.db.standings) w := by
  unfold registerDiscovery
  simp only [wp_bind, wp_newLog, wp_get, wp_ofExcept]
  split
  · split
    · split
      · refine wp_mono (registerOrRefresh_lowers hw _ _ _ _ trust (by exact hnew)) ?_
          fun _ _ h => h
        exact fun _ w' h => (wp_pure _).2 h
      · exact Lowers.refl H _
    · exact Lowers.refl H _
  · exact Lowers.refl H _

theorem onboard_lowers (source : String) {w : World}
    (hnew : ∀ rel, relativeTo H source = some rel →
      Registers H w.db.standings (deriveCapabilityId rel)) :
    Act.wp (onboard H source) (fun _ w' => Lowers H w.db.standings w'.db.standings)
      (fun _ w' => Lowers H w.db.standings w'.db.standings) w := by
  have hthrow : ∀ e : Exc, Act.wp (throw e : Op (String × String))
      (fun _ w' => Lowers H w.db.standings w'.db.standings)
      (fun _ w' => Lowers H w.db.standings w'.db.standings) w := fun e =>
    (wp_throw e).2 (Lowers.refl H _)
  unfold onboard
  rw [wp_bind, wp_get]
  cases hsource : w.outside.source (relativize H source) with
  | none => exact hthrow _
  | some found =>
    cases hrel : relativeTo H source with
    | none => exact hthrow _
    | some rel =>
      simp only [wp_bind, wp_newLog, wp_ofExcept]
      split
      · split
        · split
          · refine wp_mono (registerOrRefresh_lowers hw _ _ _ _ _ (by exact hnew rel hrel))
              (fun _ w₁ h₁ => ?_) fun _ _ h => h
            have hrest : Lowering H (do
                setLifecycle H w.objects (.str (deriveCapabilityId rel)) Lifecycle.inspected.value
                  "onboarding"
                let row ← requireCapability H (deriveCapabilityId rel)
                let j ← newLog
                let approvalId ← requestApproval H j
                  (onboardingRequest (deriveCapabilityId rel) row.currentDigest.read)
                return (deriveCapabilityId rel, approvalId)) := by
              refine (setLifecycle_lowers hw _ (keyText_str _) (by decide) _).bind fun _ => ?_
              refine (Lowering.requireCapability _).bind fun row => Lowering.newLog.bind fun j => ?_
              exact (Lowering.requestApproval j _).bind fun _ => Lowering.pure _
            have h := hrest.wp_of_lowers h₁
            simpa only [wp_bind, wp_newLog] using h
          · exact Lowers.refl H _
        · exact Lowers.refl H _
      · exact Lowers.refl H _

theorem revoke_lowers (id actor : String) : Lowering H (revoke H id actor) := by
  unfold revoke
  refine Lowering.newLog.bind fun i => (Lowering.requireCapability id).bind fun row => ?_
  have hrest : Lowering H (do
      let row ← requireCapability H id
      if canTransition row.lifecycle .revoked then
        setLifecycle H i (.str id) Lifecycle.revoked.value actor) := by
    refine (Lowering.requireCapability id).bind fun row => ?_
    refine Lowering.ite (fun _ => ?_) fun _ => Lowering.pure _
    exact setLifecycle_lowers hw i (keyText_str id) (by decide) actor
  refine Lowering.ite (fun _ => ?_) fun _ => hrest
  exact (setLifecycle_lowers hw i (keyText_str id) (by decide) actor).bind fun _ => hrest

/-- The inspection of a capability in quarantine touches no approved one. -/
theorem inspect_spec (i : ℕ) (id actor : String) (w : World) :
    let R := fun s s' : Standings => Lowers H s s' ∧ (∀ v, s'.digest v = s.digest v) ∧
      ∀ v, s.In v approved → s' v = s v
    Act.wp (setLifecycle H i (.str id) Lifecycle.inspected.value actor)
      (fun _ w' => R w.db.standings w'.db.standings)
      (fun _ w' => R w.db.standings w'.db.standings) w := by
  intro R
  refine wp_mono (setLifecycle_spec i (keyText_str id) _ actor w) ?_ ?_
  · rintro - w' ⟨st, t, ht, hst, hcan, hs⟩
    rw [ofText?_value] at ht
    cases ht
    rw [keyOf_str] at hst hs
    rw [hs]
    refine ⟨lowers_transition hw hst hcan (by decide), fun v => digest_withLifecycle _ _ v _, ?_⟩
    intro v hv
    refine Function.update_of_ne ?_ _ _
    rintro rfl
    obtain ⟨t, ht, hmem⟩ := canTransition_iff.1 hcan
    have hin : w.db.standings.In (.text id) t := by
      rw [Standings.In, hst, Option.map_some, ht]
    rw [hin.unique hv] at hmem
    exact absurd hmem (by decide)
  · rintro - w' hs
    rw [hs]
    exact ⟨Lowers.refl H _, fun _ => rfl, fun _ _ => rfl⟩

theorem approve_sound (id actor : String) (w : World) :
    Act.wp (approve H id actor) (fun _ w' => Sound H w.db.standings w'.db.standings)
      (fun _ w' => Sound H w.db.standings w'.db.standings) w := by
  have hread : ∀ {s : Standings} {w₁ : World} {Q : CapabilityRow → World → Prop},
      Sound H s w₁.db.standings → (∀ row, Q row w₁) →
      Act.wp (requireCapability H id) Q (fun _ w' => Sound H s w'.db.standings) w₁ := by
    intro s w₁ Q hs hQ
    unfold requireCapability
    rw [wp_bind]
    refine wp_mono (getCapability_str_spec id w₁) ?_ fun _ w' h => h ▸ hs
    rintro row w₂ ⟨rfl, -, -⟩
    cases row with
    | none => exact (wp_throw _).2 hs
    | some row => exact (wp_pure _).2 (hQ row)
  -- the approval that follows what the inspection has left
  have happrove : ∀ i w₁, (Lowers H w.db.standings w₁.db.standings ∧
      (∀ v, w₁.db.standings.digest v = w.db.standings.digest v) ∧
      ∀ v, w.db.standings.In v approved → w₁.db.standings v = w.db.standings v) →
      Act.wp (do
          let row ← requireCapability H id
          if row.lifecycle = .text Lifecycle.inspected.value then
            setLifecycle H i (.str id) Lifecycle.approved.value actor)
        (fun _ w' => Sound H w.db.standings w'.db.standings)
        (fun _ w' => Sound H w.db.standings w'.db.standings) w₁ := by
    rintro i w₁ ⟨hl, hdig, happ⟩
    have hjoin : ∀ s', Sound H w₁.db.standings s' → Sound H w.db.standings s' := by
      intro s' hs'
      refine Sound.of_lowers hl hdig hs' fun v _ hno hv => hno ?_
      exact (cleared_congr (happ v hv)).2 ⟨approved, by decide, hv⟩
    rw [wp_bind]
    refine hread (hjoin _ (Lowers.refl H _).sound) fun row => ?_
    rw [wp_ite]
    refine ⟨fun _ => ?_, fun _ => (wp_pure _).2 (hjoin _ (Lowers.refl H _).sound)⟩
    exact wp_mono (setLifecycle_sound hw i (keyText_str id) _ actor w₁) (fun _ w' h => hjoin _ h)
      fun _ w' h => hjoin _ h
  have hrefl : Sound H w.db.standings w.db.standings := (Lowers.refl H _).sound
  unfold approve
  rw [wp_bind, wp_newLog, wp_bind]
  refine hread hrefl fun row => ?_
  have hsame : Lowers H w.db.standings w.db.standings ∧
      (∀ v, w.db.standings.digest v = w.db.standings.digest v) ∧
      ∀ v, w.db.standings.In v approved → w.db.standings v = w.db.standings v :=
    ⟨Lowers.refl H _, fun _ => rfl, fun _ _ => rfl⟩
  split_ifs
  · rw [wp_bind]
    exact wp_mono (inspect_spec hw w.objects id actor _) (fun _ w' h => happrove _ w' h)
      fun _ w' h => h.1.sound
  · exact happrove _ _ hsame

theorem decideHuman_sound (i : ℕ) (d : DecisionArgs) {w : World}
    (hkey : ∀ id ∈ w.db.movedBy H d.approvalId, KeyText H id) :
    Act.wp (decideHuman H i d) (fun _ w' => Sound H w.db.standings w'.db.standings)
      (fun _ w' => Sound H w.db.standings w'.db.standings) w := by
  refine wp_mono (decideHuman_spec i d w hkey) ?_ ?_
  all_goals
    rintro - w' (hs | ⟨-, id, -, st, hst, hcan, hs⟩)
    · rw [hs]
      exact (Lowers.refl H _).sound
    · rw [hs]
      exact sound_transition hw hst hcan

theorem assertExecutable_lowers (id : String) : Lowering H (assertExecutable H id) := by
  unfold assertExecutable
  refine Lowering.newLog.bind fun i => (Lowering.getCapability _).bind fun row => ?_
  cases row with
  | none => exact Lowering.throw _
  | some row =>
    dsimp only
    refine Lowering.guard fun _ => Lowering.bind ?_ fun current => Lowering.guard fun _ => ?_
    · unfold resolveSource
      refine (Lowering.readDb _).bind fun version => ?_
      cases version with
      | none => exact Lowering.throw _
      | some version =>
        refine (Lowering.ofExcept _).bind fun location => Lowering.get.bind fun w => ?_
        cases w.outside.source (relativize H location) with
        | none => exact Lowering.throw _
        | some source =>
          refine (Lowering.ofExcept _).bind fun trust => ?_
          refine Lowering.ite (fun _ => (refreshDigest_lowers hw i id trust.digest).bind fun _ =>
            (Lowering.getCapability _).bind fun row => ?_) fun _ =>
              (Lowering.getCapability _).bind fun row => ?_
          all_goals
            cases row with
            | none => exact Lowering.throw _
            | some row => exact Lowering.pure row
    · unfold assertManifestAdapterExecutable
      refine (Lowering.readDb _).bind fun version => ?_
      cases version with
      | none => exact Lowering.throw _
      | some version =>
        refine (Lowering.ofExcept _).bind fun manifest => (Lowering.ofExcept _).bind fun name => ?_
        exact Lowering.get.bind fun w => Lowering.ofExcept _

end

/-! ### Histories -/

/-- What is cleared was approved after its digest was last changed. -/
theorem approved_before_cleared {s : ℕ → Standings} (h₀ : ∀ v, s 0 v = none)
    (hstep : ∀ k, Sound H (s k) (s (k + 1))) {k : ℕ} {v : SqlVal} (hc : (s k).Cleared v) :
    ∃ j < k, ¬ (s j).In v approved ∧ (s (j + 1)).In v approved ∧
      ∀ m, j ≤ m → m ≤ k → (s m).digest v = (s k).digest v := by
  induction k with
  | zero =>
    obtain ⟨t, -, hin⟩ := hc
    rw [Standings.In, h₀] at hin
    cases hin
  | succ k ih =>
    obtain ⟨hdig, hop⟩ := (hstep k).opened v hc
    rcases hop with hop | ⟨hno, happ⟩
    · -- cleared before the last step as well
      obtain ⟨j, hj, hno, happ, hsame⟩ := ih hop
      refine ⟨j, by omega, hno, happ, fun m hjm hmk => ?_⟩
      by_cases hm : m = k + 1
      · rw [hm]
      · rw [hsame m hjm (by omega), hdig]
    · refine ⟨k, by omega, hno, happ, fun m hjm hmk => ?_⟩
      by_cases hm : m = k + 1
      · rw [hm]
      · rw [show m = k by omega, hdig]

/-- What is revoked stays revoked. -/
theorem revoked_forever {s : ℕ → Standings} (h₀ : ∀ v, s 0 v = none)
    (hstep : ∀ k, Sound H (s k) (s (k + 1))) {k : ℕ} {v : SqlVal} (hr : (s k).In v revoked) {m : ℕ}
    (hkm : k ≤ m) : (s m).In v revoked := by
  -- the state is entered only where the redaction pass keeps its word
  have hword : H.scrub revoked.value = revoked.value := by
    clear hkm
    induction k with
    | zero =>
      rw [Standings.In, h₀] at hr
      cases hr
    | succ k ih => exact ((hstep k).entered v hr).elim ih id
  induction hkm with
  | refl => exact hr
  | step _ ih => exact (hstep _).kept hword v ih

end Shiroe
