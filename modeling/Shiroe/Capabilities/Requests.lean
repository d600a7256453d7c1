import Shiroe.Capabilities.Calls

/-!
# What a capability request was made for

An onboarding asks a human to approve the digest that the registry keeps at that moment.  The
request stays open while the registry goes on: a later onboarding may record another digest and
leave the earlier request where it is.

* `approval_made` : every request in the table was made by an onboarding of the run, for the digest
  that the registry kept after it;
* `decision_of_unchanged` : a decision approves the digest it was asked for, if the registry still
  keeps it.
-/

namespace Shiroe

open Act (Keeps Leaves wp_bind wp_mono wp_pure wp_throw wp_ofExcept wp_of_ok final_discard)

variable {H : Host}

/-- The approval requests. -/
def World.requests (w : World) : List ApprovalRow := w.db.approvalRequests

/-! ### Calls of the registry leave the requests alone -/

theorem leaves_applyEvent_capability {t : String} {env : Json}
    (ht : domainOfType t = some .capabilities) (hne : t ≠ "")
    (henv : env.get "event_type" = .str t) :
    Leaves Db.approvalRequests (applyEvent H env) := by
  rw [applyEvent_eq henv hne, ht, reduce, touched]
  exact fun c => Keeps.map ((leaves_applyCapability env).comp Db.approvalRequests c)

theorem requests_emit_capability {e : EventEnvelope}
    (ht : domainOfType e.eventType = some .capabilities)
    (hne : e.eventType ≠ "") (i : ℕ) : Leaves World.requests (emit H i e) := by
  refine leaves_emit (f := Db.approvalRequests) (fun t env henv c => ?_) i
  exact Keeps.bind ((leaves_mirrorRow env).comp Db.approvalRequests c) fun _ =>
    leaves_applyEvent_capability ht hne henv.eventType c

theorem requests_emitWith_capability {e : EventEnvelope} {write : String → Act Exc Db Unit}
    (ht : domainOfType e.eventType = some .capabilities) (hne : e.eventType ≠ "")
    (hwrite : ∀ t, Leaves Db.approvalRequests (write t)) (i : ℕ) :
    Leaves World.requests (emitWith H i e write) :=
  leaves_emitWith (fun _ _ h => (congrArg Db.approvalRequests h :)) hwrite
    (fun _ _ henv => leaves_applyEvent_capability ht hne henv.eventType) i

theorem requests_writeLifecycle (id : Json) (t : Lifecycle) (when : String) :
    Leaves Db.approvalRequests (writeLifecycle H id t when) := by
  intro c
  unfold writeLifecycle updateCapability
  repeat' first
    | exact Keeps.ofExcept _
    | exact Keeps.pure _
    | exact leaves_updateWhere (by intro t db; rfl) c
    | refine Keeps.bind ?_ fun _ => ?_

theorem requests_writeDigest (id d : String) (t : Lifecycle) (when : String) :
    Leaves Db.approvalRequests (writeDigest H id d t when) := by
  intro c
  unfold writeDigest updateCapability
  repeat' first
    | exact Keeps.ofExcept _
    | exact Keeps.pure _
    | exact leaves_updateWhere (by intro t db; rfl) c
    | refine Keeps.bind ?_ fun _ => ?_

theorem requests_readDb {α : Type} (f : Db → Except Exc α) : Leaves World.requests (readDb f) :=
  fun _ => Keeps.bind Keeps.get fun _ => Keeps.ofExcept _

theorem requests_newLog : Leaves World.requests newLog := by
  rintro c w rfl
  rw [wp_newLog]
  rfl

theorem requests_now : Leaves World.requests (now H) := by
  rintro c w rfl
  rw [wp_now]
  rfl

theorem requests_uuidHex : Leaves World.requests (uuidHex H) := by
  rintro c w rfl
  rw [wp_uuidHex]
  rfl

theorem requests_setLifecycle (i : ℕ) (id : Json) (target actor : String) :
    Leaves World.requests (setLifecycle H i id target actor) := by
  intro c
  unfold setLifecycle
  refine Keeps.bind (requests_readDb _ c) fun row => ?_
  cases row with
  | none => exact Keeps.throw _
  | some row =>
    dsimp only
    split
    · exact Keeps.throw _
    · rename_i t _
      have ht : ∀ t : Lifecycle, domainOfType t.eventType = some .capabilities ∧
          t.eventType ≠ "" := by
        intro t
        cases t <;> decide
      exact Keeps.bind (requests_emitWith_capability (ht t).1 (ht t).2
        (fun _ => requests_writeLifecycle _ _ _) i c) fun _ => Keeps.pure _

theorem requests_refreshDigest (i : ℕ) (id d : String) :
    Leaves World.requests (refreshDigest H i id d) := by
  intro c
  unfold refreshDigest
  refine Keeps.bind (requests_readDb _ c) fun row => ?_
  cases row with
  | none => exact Keeps.throw _
  | some row =>
    dsimp only
    refine Keeps.ite (fun _ => Keeps.pure _) fun _ => ?_
    exact Keeps.bind (requests_emitWith_capability
      (show domainOfType "capability.digest_drift" = _ by
      decide) (by simp [driftEvent]) (fun _ => requests_writeDigest _ _ _ _) i c) fun _ =>
      Keeps.pure _

theorem requests_upsertCapability (i : ℕ) (a : UpsertArgs) :
    Leaves World.requests (upsertCapability H i a) := by
  intro c
  unfold upsertCapability
  refine Keeps.bind (Keeps.ofExcept _) fun manifest => Keeps.bind (requests_now c) fun when =>
    Keeps.bind (requests_uuidHex c) fun versionId => Keeps.bind (Keeps.ofExcept _) fun entry => ?_
  exact Keeps.bind (requests_emit_capability (show domainOfType "capability.discovered" = _ by
    decide) (by simp [UpsertArgs.event]) i c) fun _ => Keeps.pure _

theorem requests_registerOrRefresh (i : ℕ) (id : String) (manifest : Json) (location : String)
    (trust : TrustReport) :
    Leaves World.requests (registerOrRefresh H i id manifest location trust) := by
  intro c
  unfold registerOrRefresh
  refine Keeps.bind (requests_readDb _ c) fun row => ?_
  cases row with
  | none =>
    refine Keeps.bind (requests_upsertCapability i _ c) fun _ => ?_
    exact Keeps.bind (requests_emit_capability (show domainOfType "capability.quarantined" = _ by
      decide) (by simp [quarantinedEvent]) i c) fun _ => Keeps.pure _
  | some row => exact Keeps.bind (requests_refreshDigest i id _ c) fun _ => Keeps.pure _

theorem requests_registerDiscovery (d : DiscoveredCapability) (trust : TrustReport)
    (adapter : Option String) : Leaves World.requests (registerDiscovery H d trust adapter) := by
  intro c
  unfold registerDiscovery
  refine Keeps.bind (requests_newLog c) fun i => Keeps.bind Keeps.get fun w =>
    Keeps.bind (Keeps.ofExcept _) fun m => Keeps.bind (Keeps.ofExcept _) fun m' =>
    Keeps.bind (Keeps.ofExcept _) fun _ => ?_
  exact Keeps.bind (requests_registerOrRefresh i _ _ _ trust c) fun _ => Keeps.pure _

theorem requests_requireCapability (id : String) :
    Leaves World.requests (requireCapability H id) := by
  intro c
  unfold requireCapability
  refine Keeps.bind (requests_readDb _ c) fun row => ?_
  cases row with
  | none => exact Keeps.throw _
  | some row => exact Keeps.pure _

theorem requests_approve (id actor : String) : Leaves World.requests (approve H id actor) := by
  intro c
  unfold approve
  refine Keeps.bind (requests_newLog c) fun i =>
    Keeps.bind (requests_requireCapability id c) fun row => ?_
  dsimp only
  have hrest : ∀ _ : Unit, Keeps (fun w : World => w.requests = c) (do
      let row ← requireCapability H id
      if row.lifecycle = .text Lifecycle.inspected.value then
        setLifecycle H i (.str id) Lifecycle.approved.value actor) := fun _ =>
    Keeps.bind (requests_requireCapability id c) fun row =>
      Keeps.ite (fun _ => requests_setLifecycle i _ _ actor c) fun _ => Keeps.pure _
  exact Keeps.ite (fun _ => Keeps.bind (requests_setLifecycle i _ _ actor c) hrest)
    fun _ => hrest ⟨⟩

theorem requests_revoke (id actor : String) : Leaves World.requests (revoke H id actor) := by
  intro c
  unfold revoke
  refine Keeps.bind (requests_newLog c) fun i =>
    Keeps.bind (requests_requireCapability id c) fun row => ?_
  dsimp only
  have hrest : ∀ _ : Unit, Keeps (fun w : World => w.requests = c) (do
      let row ← requireCapability H id
      if canTransition row.lifecycle .revoked then
        setLifecycle H i (.str id) Lifecycle.revoked.value actor) := fun _ =>
    Keeps.bind (requests_requireCapability id c) fun row =>
      Keeps.ite (fun _ => requests_setLifecycle i _ _ actor c) fun _ => Keeps.pure _
  exact Keeps.ite (fun _ => Keeps.bind (requests_setLifecycle i _ _ actor c) hrest)
    fun _ => hrest ⟨⟩

theorem requests_assertExecutable (id : String) :
    Leaves World.requests (assertExecutable H id) := by
  intro c
  unfold assertExecutable
  refine Keeps.bind (requests_newLog c) fun i => Keeps.bind (requests_readDb _ c) fun row => ?_
  cases row with
  | none => exact Keeps.throw _
  | some row =>
    dsimp only
    have hversion : Keeps (fun w : World => w.requests = c) (latestVersion H id) :=
      requests_readDb _ c
    have hresolve : ∀ d, Keeps (fun w : World => w.requests = c) (resolveSource H i id d) := by
      intro d
      unfold resolveSource
      refine Keeps.bind hversion fun version => ?_
      cases version with
      | none => exact Keeps.throw _
      | some version =>
        refine Keeps.bind (Keeps.ofExcept _) fun location => Keeps.bind Keeps.get fun w => ?_
        cases w.outside.source (relativize H location) with
        | none => exact Keeps.throw _
        | some source =>
          refine Keeps.bind (Keeps.ofExcept _) fun trust => ?_
          refine Keeps.ite (fun _ => Keeps.bind (requests_refreshDigest i id _ c) fun _ =>
            Keeps.bind (requests_readDb _ c) fun row => ?_) fun _ =>
              Keeps.bind (requests_readDb _ c) fun row => ?_
          all_goals
            cases row with
            | none => exact Keeps.throw _
            | some row => exact Keeps.pure _
    have hmanifest : Keeps (fun w : World => w.requests = c)
        (assertManifestAdapterExecutable H id) := by
      unfold assertManifestAdapterExecutable
      refine Keeps.bind hversion fun version => ?_
      cases version with
      | none => exact Keeps.throw _
      | some version =>
        exact Keeps.bind (Keeps.ofExcept _) fun m => Keeps.bind (Keeps.ofExcept _) fun name =>
          Keeps.bind Keeps.get fun w => Keeps.ofExcept _
    have hrest : ∀ _ : Unit, Keeps (fun w : World => w.requests = c) (do
        let current ← resolveSource H i id row.currentDigest
        if isExecutable current.lifecycle = false then
          throw (.capabilityGate (.snappedBack id (pyStr current.lifecycle.read)))
        assertManifestAdapterExecutable H id) := fun _ =>
      Keeps.bind (hresolve _) fun current =>
        Keeps.ite (fun _ => Keeps.bind (Keeps.throw _) fun _ => hmanifest) fun _ => hmanifest
    exact Keeps.ite (fun _ => Keeps.bind (Keeps.throw _) hrest) fun _ => hrest ⟨⟩

/-! ### The request of an onboarding -/

/-- The request asks for the approval of a capability with a digest, both as the redaction pass
leaves them. -/
structure AsksFor (H : Host) (r : ApprovalRow) (capabilityId : String) (digest : SqlVal) :
    Prop where
  isObj : ∃ d, r.scopeJson = .json (.obj d)
  capability : ∀ j, r.scopeJson = .json j → j.get "capability_id" = .str (H.scrub capabilityId)
  digest : ∀ j, r.scopeJson = .json j → j.get "digest" = digest.read.mapStr H.scrub

theorem asksFor_onboardingRequest {capabilityId id requestedAt digest' : String} {digest : SqlVal}
    {t : ApprovalType} {scope : Json}
    (h : (onboardingRequest capabilityId digest.read).scope.toDict = .ok scope) :
    AsksFor H ((onboardingRequest capabilityId digest.read).row H id requestedAt t scope digest')
      capabilityId digest := by
  obtain rfl : (onboardingRequest capabilityId digest.read).scope = scope := Except.ok.inj h
  refine ⟨⟨_, rfl⟩, ?_, ?_⟩
  · rintro j hj
    cases hj
    simp [onboardingRequest, List.lookup]
  · rintro j hj
    cases hj
    simp [onboardingRequest, List.lookup]

/-- **The request of an onboarding** asks for the digest that the registry then keeps. -/
theorem onboard_requests (source : String) (w : World) :
    Act.wp (onboard H source)
      (fun out w' => ∃ (D : SqlVal) (r : ApprovalRow), r.id = .text (H.scrub out.2) ∧
        AsksFor H r out.1 D ∧ w'.db.standings.digest (.text out.1) = some D ∧
        w'.requests = Table.replace (·.id.key) r w.requests)
      (fun _ w' => w'.requests = w.requests) w := by
  have hthrow : ∀ e : Exc, Act.wp (throw e : Op (String × String)) (fun out w' =>
      ∃ (D : SqlVal) (r : ApprovalRow), r.id = .text (H.scrub out.2) ∧ AsksFor H r out.1 D ∧
        w'.db.standings.digest (.text out.1) = some D ∧
        w'.requests = Table.replace (·.id.key) r w.requests)
      (fun _ w' => w'.requests = w.requests) w := fun e => (wp_throw e).2 rfl
  unfold onboard
  rw [wp_bind, Act.wp_get]
  cases hsource : w.outside.source (relativize H source) with
  | none => exact hthrow _
  | some found =>
    cases hrel : relativeTo H source with
    | none => exact hthrow _
    | some rel =>
      simp only [wp_bind, wp_newLog, wp_ofExcept]
      split
      · split
        · split
          · have hkeep : ∀ {α : Type} {x : Op α} {Q : α → World → Prop}, Leaves World.requests x →
                ∀ {w₁ : World}, w₁.requests = w.requests →
                (∀ a w', w'.requests = w.requests → Q a w') →
                Act.wp x Q (fun _ w' => w'.requests = w.requests) w₁ := fun hx _ h₁ hQ =>
              wp_mono (hx.wp _) (fun a w' h => hQ a w' (h.trans h₁)) fun _ _ h => h.trans h₁
            refine hkeep (requests_registerOrRefresh _ _ _ _ _) rfl fun _ w₁ h₁ => ?_
            refine hkeep (requests_setLifecycle _ _ _ _) h₁ fun _ w₂ h₂ => ?_
            -- the row that the request is made from
            unfold requireCapability
            rw [wp_bind]
            refine wp_mono (getCapability_str_spec _ w₂) ?_ fun _ w' h => h ▸ h₂
            rintro row w₃ ⟨rfl, -, hst⟩
            cases row with
            | none => exact (wp_throw _).2 h₂
            | some row =>
              simp only [wp_pure]
              refine wp_mono (requestApproval_spec _ _ _) ?_ fun _ w' h => ?_
              · rintro id w' ⟨-, t, scope, digest, db, -, hscope, -, hdb, hw'⟩
                refine ⟨row.currentDigest, RequestArgs.row H _ id (H.clock w₃.tick) t scope
                  digest, rfl,
                  asksFor_onboardingRequest hscope, ?_, ?_⟩
                · have hs : w'.db.standings = w₃.db.standings := by
                    rw [hw', ← standings_of_exceptMirror hdb]
                    exact standings_congr rfl
                  rw [hs, Standings.digest, hst]
                  rfl
                · have hr : db.approvalRequests = w.db.approvalRequests :=
                    (congrArg Db.approvalRequests hdb :).trans h₂
                  change w'.db.approvalRequests = _
                  rw [hw', Db.withRequest, hr]
                  rfl
              · exact (congrArg Db.approvalRequests h.2 :).trans h₂
          · trivial
        · trivial
      · trivial

/-! ### Requests along a run -/

/-- The row under an id asks for what the row under it asked for before. -/
def SameScopes (t t' : List ApprovalRow) : Prop :=
    ∀ a r', t'.find? (fun r => r.id = .text a) = some r' →
  ∃ r, t.find? (fun r => r.id = .text a) = some r ∧ r'.scopeJson = r.scopeJson

theorem SameScopes.of_eq {t t' : List ApprovalRow} (h : t' = t) : SameScopes t t' :=
  fun _ r' hr' => ⟨r', h ▸ hr', rfl⟩

/-- The requests under one id are decided, or all are left alone. -/
def Redecided (t t' : List ApprovalRow) : Prop := t' = t ∨ ∃ id a b c d : String,
  t' = Table.update (fun r => r.id = .text id) (.decide (.text a) (.text b) (.text c) (.text d)) t

theorem Redecided.sameScopes {t t' : List ApprovalRow} (h : Redecided t t') : SameScopes t t' := by
  rcases h with h | ⟨id, a, b, c, d, rfl⟩
  · exact SameScopes.of_eq h
  · intro x r' hr'
    have hfind := Table.find?_update (t := t) (p := fun r => r.id = .text id)
      (f := ApprovalRow.decide (.text a) (.text b) (.text c) (.text d))
      (q := fun r => r.id = .text x) fun _ => rfl
    rw [hfind] at hr'
    obtain ⟨r, hr, rfl⟩ := Option.map_eq_some_iff.1 hr'
    refine ⟨r, hr, ?_⟩
    split_ifs <;> rfl

/-- What a decision does to the requests. -/
theorem decideHuman_rows (i : ℕ) (d : DecisionArgs) (w : World) :
    Act.wp (decideHuman H i d) (fun _ w' => Redecided w.requests w'.requests)
      (fun _ w' => Redecided w.requests w'.requests) w := by
  have hsame : ∀ {w' : World}, w'.requests = w.requests → Redecided w.requests w'.requests :=
    fun h => Or.inl h
  unfold decideHuman
  rw [wp_bind, wp_ofExcept]
  cases d.check with
  | error x => exact hsame rfl
  | ok status =>
    simp only
    rw [wp_bind]
    refine wp_mono (getApproval_spec d.approvalId w) ?_ fun _ w' h => hsame (h ▸ rfl)
    rintro req w₀ ⟨rfl, -⟩
    rw [wp_bind, wp_now, wp_bind]
    refine wp_mono (emit_decided i d status _ _) ?_ fun _ w' h =>
      hsame (congrArg Db.approvalRequests h.2 :)
    rintro env w₁ ⟨-, db, hdb, hw₁⟩
    have hdb : db.approvalRequests = w₀.db.approvalRequests :=
      (congrArg Db.approvalRequests hdb :)
    have h₁ : Redecided w₀.requests w₁.requests := by
      refine Or.inr ⟨H.scrub d.approvalId, H.scrub status.value, H.scrub (H.clock w₀.tick),
        H.scrub d.actor, H.scrub d.reason, ?_⟩
      rw [World.requests, hw₁, Db.decided, hdb]
      rfl
    rw [wp_bind]
    refine wp_mono (getApproval_spec d.approvalId w₁) ?_ fun _ w' h => h ▸ h₁
    rintro req' w₂ ⟨rfl, -⟩
    cases approvedCapability req' status with
    | none => exact (wp_pure _).2 h₁
    | some id =>
      simp only
      rw [wp_bind, wp_newLog, wp_bind]
      refine wp_mono ((requests_setLifecycle _ id _ _).wp _) (fun _ w' h => ?_) fun _ w' h => ?_
      · rw [wp_pure]
        exact h ▸ h₁
      · exact h ▸ h₁

theorem decideHuman_requests (i : ℕ) (d : DecisionArgs) (w : World) :
    Act.wp (decideHuman H i d) (fun _ w' => SameScopes w.requests w'.requests)
      (fun _ w' => SameScopes w.requests w'.requests) w :=
  wp_mono (decideHuman_rows i d w) (fun _ _ h => h.sameScopes) fun _ _ h => h.sameScopes

/-- The capability and the request that an onboarding returns. -/
def RegistryCall.made (H : Host) (w : World) : RegistryCall → Option (String × String)
  | onboard source => Act.result? (Shiroe.onboard H source) w
  | _ => none

theorem registryStep_made {w : World} {c : RegistryCall} {cap a : String}
    (h : c.made H w = some (cap, a)) :
    ∃ (D : SqlVal) (r : ApprovalRow), r.id = .text (H.scrub a) ∧ AsksFor H r cap D ∧
      (registryStep H w c).db.standings.digest (.text cap) = some D ∧
      (registryStep H w c).requests = Table.replace (·.id.key) r w.requests := by
  cases c with
  | onboard source =>
    have hspec := onboard_requests (H := H) source w
    have h : Act.result? (Shiroe.onboard H source) w = some (cap, a) := h
    rw [registryStep, RegistryCall.run, final_discard]
    cases hx : Shiroe.onboard H source w with
    | error x w' =>
      rw [Act.result?, hx] at h
      cases h
    | ok out w' =>
      rw [Act.result?, hx] at h
      cases h
      rw [Act.final_of_ok hx]
      exact (wp_of_ok hx).1 hspec
  | _ => cases h

theorem registryStep_not_made {w : World} {c : RegistryCall} (h : c.made H w = none) :
    SameScopes w.requests (registryStep H w c).requests := by
  have hkeep : ∀ {α : Type} {x : Op α}, Leaves World.requests x →
      SameScopes w.requests (Act.final x w).requests := fun hx =>
    SameScopes.of_eq (Keeps.final (hx _) rfl)
  unfold registryStep
  cases c with
  | onboard source =>
    have hspec := onboard_requests (H := H) source w
    have h : Act.result? (Shiroe.onboard H source) w = none := h
    rw [RegistryCall.run, final_discard]
    cases hx : Shiroe.onboard H source w with
    | error x w' =>
      rw [Act.final, hx]
      exact SameScopes.of_eq ((Act.wp_of_error hx).1 hspec)
    | ok out w' =>
      rw [Act.result?, hx] at h
      cases h
  | register discovered trust adapter =>
    rw [RegistryCall.run, final_discard]
    exact hkeep (requests_registerDiscovery _ _ _)
  | approve id actor => exact hkeep (requests_approve id actor)
  | revoke id actor => exact hkeep (requests_revoke id actor)
  | setLifecycle object id target actor => exact hkeep (requests_setLifecycle _ _ _ _)
  | refreshDigest object id digest =>
    rw [RegistryCall.run, final_discard]
    exact hkeep (requests_refreshDigest _ _ _)
  | decide object decision =>
    rw [RegistryCall.run, final_discard]
    exact Act.wp_final (decideHuman_requests object decision w)
  | assertExecutable id => exact hkeep (requests_assertExecutable id)
  | edit outside => exact SameScopes.of_eq rfl

section

variable (H) (w : World) (calls : List RegistryCall)

/-- The world after the first `k` calls of a run. -/
def worldAt (k : ℕ) : World := Run.stateAt (registryStep H) w calls k

/-- The capability and the request that the call of a run returns, if it is an onboarding. -/
def madeAt (k : ℕ) : Option (String × String) :=
  calls[k]?.bind fun c => c.made H (worldAt H w calls k)

/-- The request under an id is, before call `k`, the one that the onboarding at `j` made. -/
structure MadeBy (k : ℕ) (approvalId : String) (j : ℕ) (capabilityId : String) : Prop where
  before : j < k
  made : ∃ a, madeAt H w calls j = some (capabilityId, a) ∧ H.scrub a = approvalId
  last : ∀ m, j < m → m < k → ∀ out, madeAt H w calls m = some out → H.scrub out.2 ≠ approvalId

/-- At the decision the registry keeps the digest that it kept when the request was made, if the
decision can move the capability at all. -/
def Unchanged (k : ℕ) (approvalId : String) : Prop :=
  ∀ j cap D, MadeBy H w calls k approvalId j cap →
    (worldAt H w calls (j + 1)).db.standings.digest (.text cap) = some D →
    (worldAt H w calls k).db.standings.In (.text (H.scrub cap)) .inspected →
    ∃ D', (worldAt H w calls k).db.standings.digest (.text (H.scrub cap)) = some D' ∧
      D'.read = D.read.mapStr H.scrub

end

section

variable {w : World} {calls : List RegistryCall}

/-- **Every request was made by an onboarding**, for the digest that the registry kept after it. -/
theorem approval_made (empty : w.db.approvalRequests = []) {k : ℕ} {a : String} {r : ApprovalRow}
    (hr : (worldAt H w calls k).db.approval? a = some r) :
    ∃ j cap D, MadeBy H w calls k a j cap ∧ AsksFor H r cap D ∧
      (worldAt H w calls (j + 1)).db.standings.digest (.text cap) = some D := by
  induction k generalizing r with
  | zero =>
    rw [worldAt, Run.stateAt_zero, Db.approval?, empty] at hr
    cases hr
  | succ k ih =>
    -- a request that was there before call `k`
    have hold : ∀ {r₀ : ApprovalRow}, (worldAt H w calls k).db.approval? a = some r₀ →
        r.scopeJson = r₀.scopeJson →
        (∀ out, madeAt H w calls k = some out → H.scrub out.2 ≠ a) →
        ∃ j cap D, MadeBy H w calls (k + 1) a j cap ∧ AsksFor H r cap D ∧
          (worldAt H w calls (j + 1)).db.standings.digest (.text cap) = some D := by
      intro r₀ hr₀ hscope hlast
      obtain ⟨j, cap, D, hmade, hasks, hdig⟩ := ih hr₀
      refine ⟨j, cap, D, ⟨by have := hmade.before; omega, hmade.made, ?_⟩, ?_, hdig⟩
      · intro m hjm hmk out hout
        by_cases hm : m = k
        · exact hlast out (hm ▸ hout)
        · exact hmade.last m hjm (by omega) out hout
      · exact ⟨hscope ▸ hasks.isObj, hscope ▸ hasks.capability, hscope ▸ hasks.digest⟩
    by_cases hk : k < calls.length
    · have hworld : worldAt H w calls (k + 1) = registryStep H (worldAt H w calls k) calls[k] :=
        Run.stateAt_succ hk
      have hat : madeAt H w calls k = calls[k].made H (worldAt H w calls k) := by
        rw [madeAt, List.getElem?_eq_getElem hk, Option.bind_some]
      rw [hworld] at hr
      cases hout : calls[k].made H (worldAt H w calls k) with
      | none =>
        obtain ⟨r₀, hr₀, hscope⟩ := registryStep_not_made hout a r hr
        refine hold hr₀ hscope fun out h => ?_
        rw [hat, hout] at h
        cases h
      | some out =>
        obtain ⟨D, r₁, hid, hasks, hdig, hreq⟩ := registryStep_made hout
        have hr : (Table.replace (·.id.key) r₁ (worldAt H w calls k).requests).find?
            (fun r => r.id = .text a) = some r := by
          rw [← hreq]
          exact hr
        have hkey : ∀ s : String, (SqlVal.text s).key = some (.text s) := fun _ => rfl
        by_cases ha : H.scrub out.2 = a
        · rw [Table.find?_replace_self (by simp [hid, ha])] at hr
          · cases hr
            refine ⟨k, out.1, D, ⟨by omega, ⟨out.2, hat.trans hout, ha⟩, ?_⟩, hasks, ?_⟩
            · intro m hkm hmk
              omega
            · rw [hworld]
              exact hdig
          · intro r' hr'
            rw [decide_eq_true_eq] at hr'
            rw [hr', hid, ha, hkey]
            exact ⟨rfl, Option.some_ne_none _⟩
        · rw [Table.find?_replace_of_ne (by simp [hid, ha])] at hr
          · refine hold hr rfl fun out' h => ?_
            rw [hat, hout] at h
            cases h
            exact ha
          · intro r' hr'
            rw [decide_eq_true_eq] at hr'
            refine Or.inr ?_
            rw [hr', hid, hkey, hkey]
            intro h
            cases h
            exact ha rfl
    · -- the run has ended
      have hworld : worldAt H w calls (k + 1) = worldAt H w calls k :=
        Run.stateAt_of_length_le (by omega)
      rw [hworld] at hr
      refine hold hr rfl fun out h => ?_
      rw [madeAt, List.getElem?_eq_none (by omega)] at h
      cases h

/-- **A decision approves the digest it was asked for**, in every run of the calls from a project
without requests in which the registry still keeps that digest. -/
theorem decision_of_unchanged (empty : w.db.approvalRequests = [])
    (hsame : ∀ (k object : ℕ) (d : DecisionArgs), calls[k]? = some (.decide object d) →
      Unchanged H w calls k d.approvalId)
    {k object : ℕ} {d : DecisionArgs} (hk : calls[k]? = some (.decide object d)) {v : SqlVal}
    (hno : ¬ (worldAt H w calls k).db.standings.In v .approved)
    (happ : (worldAt H w calls (k + 1)).db.standings.In v .approved) :
    ∃ req D, (worldAt H w calls k).db.getApproval H d.approvalId = .ok req ∧
      req.approvalType = .capability ∧
      (worldAt H w calls k).db.standings.digest v = some D ∧ req.scope.get "digest" = D.read := by
  obtain ⟨hlt, hcall⟩ := List.getElem?_eq_some_iff.1 hk
  have hworld : worldAt H w calls (k + 1) =
      Act.final (decideHuman H object d) (worldAt H w calls k) := by
    rw [worldAt, Run.stateAt_succ hlt, hcall, registryStep, RegistryCall.run, final_discard]
    rfl
  set w₁ := worldAt H w calls k with hw₁
  -- what the request that is decided asks for
  have hasked : ∀ id ∈ w₁.db.movedBy H d.approvalId, ∃ req j cap D,
      w₁.db.getApproval H d.approvalId = .ok req ∧ req.approvalType = .capability ∧
      MadeBy H w calls k d.approvalId j cap ∧
      (worldAt H w calls (j + 1)).db.standings.digest (.text cap) = some D ∧
      id = .str (H.scrub cap) ∧ req.scope.get "digest" = D.read.mapStr H.scrub := by
    intro id hid
    unfold Db.movedBy at hid
    cases hreq : w₁.db.getApproval H d.approvalId with
    | error x =>
      rw [hreq] at hid
      cases hid
    | ok req =>
      rw [hreq] at hid
      simp only [approvedCapability, Option.mem_def, Option.ite_none_right_eq_some,
        Option.some.injEq] at hid
      obtain ⟨⟨htype, -, -⟩, rfl⟩ := hid
      have hget := hreq
      unfold Db.getApproval at hget
      obtain ⟨-, -, hget⟩ := Act.except_bind_eq_ok.1 hget
      cases hr : w₁.db.approval? d.approvalId with
      | none =>
        rw [hr] at hget
        cases hget
      | some r =>
        rw [hr] at hget
        obtain ⟨j, cap, D, hmade, hasks, hdig⟩ := approval_made empty hr
        obtain ⟨⟨scope, hload, hdict, -⟩, -, -, -⟩ := ApprovalRow.load_eq_ok hget
        obtain ⟨fields, hobj⟩ := hasks.isObj
        rw [hobj] at hload
        cases hload
        have hscope : Json.obj fields = req.scope := Except.ok.inj hdict
        rw [hscope] at hobj
        exact ⟨req, j, cap, D, rfl, htype, hmade, hdig, hasks.capability _ hobj,
          hasks.digest _ hobj⟩
  have hkey : ∀ id ∈ w₁.db.movedBy H d.approvalId, KeyText H id := by
    intro id hid
    obtain ⟨-, -, cap, -, -, -, -, -, rfl, -⟩ := hasked id hid
    exact keyText_str _
  have hspec := Act.wp_final (I := fun w' : World => w'.db.standings = w₁.db.standings ∨
    d.check = .ok .approved ∧ ∃ id ∈ w₁.db.movedBy H d.approvalId, ∃ st,
      w₁.db.standings (keyOf H id) = some st ∧ canTransition st.lifecycle .approved = true ∧
      w'.db.standings = w₁.db.standings.write (keyOf H id)
        (Standing.withLifecycle (.text (H.scrub Lifecycle.approved.value))))
    (decideHuman_spec object d w₁ hkey)
  rw [hworld] at happ
  rcases hspec with hs | ⟨-, id, hid, st, hst, hcan, hs⟩
  · rw [hs] at happ
    exact absurd happ hno
  · obtain ⟨req, j, cap, D, hreq, htype, hmade, hdig, rfl, hscope⟩ := hasked id hid
    rw [keyOf_str] at hst hs
    have hv : v = .text (H.scrub cap) := by
      by_contra hne
      rw [hs, Standings.in_write_of_ne hne] at happ
      exact hno happ
    subst hv
    have hin : w₁.db.standings.In (.text (H.scrub cap)) .inspected := by
      obtain ⟨t, ht, hmem⟩ := canTransition_iff.1 hcan
      have ht' : t = .inspected := by
        revert hmem
        cases t <;> decide
      rw [Standings.In, hst, Option.map_some, ht, ht']
    obtain ⟨D', hD', hread⟩ := hsame k object d hk j cap D hmade hdig hin
    exact ⟨req, D', hreq, htype, hD', hscope.trans hread.symm⟩

end

/-! ### Two runs -/

/-- The approval of the first request of a run. -/
def approveFirst : DecisionArgs where
  approvalId := "apr_00000004000000000000000000000000"
  decision := "approved"
  actor := "human"
  reason := "reviewed"

/-- A script is onboarded and its request approved. -/
def onboardCalls : List RegistryCall :=
  [.onboard "/srv/project/run.sh", .decide 1 approveFirst]

theorem onboardCalls_moves :
    let w := worldAt (Host.quick id) scriptWorld onboardCalls
    ¬ (w 1).db.standings.In (.text "local.run") .approved ∧
      (w 2).db.standings.In (.text "local.run") .approved := by
  decide +kernel

/-- The approved request asks for the digest of the script. -/
theorem decision_of_unchanged_script :
    let w := worldAt (Host.quick id) scriptWorld onboardCalls
    ∃ req D, (w 1).db.getApproval (Host.quick id) approveFirst.approvalId = .ok req ∧
      req.approvalType = .capability ∧
      (w 1).db.standings.digest (.text "local.run") = some D ∧ req.scope.get "digest" = D.read := by
  refine decision_of_unchanged (k := 1) rfl ?_ (show onboardCalls[1]? = some (.decide 1 _) from rfl)
    onboardCalls_moves.1 onboardCalls_moves.2
  intro k object d hk
  obtain rfl : k = 1 := by
    match k with
    | 0 => cases hk
    | 1 => rfl
    | k + 2 => cases hk
  -- no call comes between the onboarding and the decision
  intro j cap D hmade hdig _
  obtain rfl : j = 0 := by
    have := hmade.before
    omega
  exact ⟨D, hdig, (Json.mapStr_id D.read).symm⟩

/-- A script is onboarded, changed and onboarded again, and the first request is approved. -/
def reonboardCalls : List RegistryCall :=
  [.onboard "/srv/project/run.sh",
    .edit { scriptWorld.outside with source := fun _ => some (byteSource "run.sh" 2 runSh_noNul) },
    .onboard "/srv/project/run.sh", .decide 1 approveFirst]

theorem reonboardCalls_moves :
    let w := worldAt (Host.quick id) scriptWorld reonboardCalls
    let v := SqlVal.text "local.run"
    ¬ (w 3).db.standings.In v .approved ∧ (w 4).db.standings.In v .approved ∧
      ((w 3).db.getApproval (Host.quick id) approveFirst.approvalId).toOption.any (fun req =>
        some (req.scope.get "digest") ≠ ((w 3).db.standings.digest v).map SqlVal.read) = true := by
  decide +kernel

/-- **An old request approves new content**: the decision on the request for the first digest moves
the capability to `approved` while the registry keeps the second one. -/
theorem old_request_approves :
    let w := worldAt (Host.quick id) scriptWorld reonboardCalls
    let v := SqlVal.text "local.run"
    scriptWorld.db.approvalRequests = [] ∧ ¬ (w 3).db.standings.In v .approved ∧
      (w 4).db.standings.In v .approved ∧
      ∃ req, (w 3).db.getApproval (Host.quick id) approveFirst.approvalId = .ok req ∧
        some (req.scope.get "digest") ≠ ((w 3).db.standings.digest v).map SqlVal.read := by
  intro w v
  obtain ⟨hno, happ, hany⟩ := reonboardCalls_moves
  obtain ⟨req, hreq, hne⟩ := (Option.any_eq_true _ _).1 hany
  refine ⟨rfl, hno, happ, req, ?_, by simpa using hne⟩
  cases hget : (w 3).db.getApproval (Host.quick id) approveFirst.approvalId with
  | ok req' =>
    rw [hget] at hreq
    rw [Option.some.inj hreq]
  | error x =>
    rw [hget] at hreq
    cases hreq

end Shiroe
