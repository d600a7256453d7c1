import Shiroe.Capabilities.Authority

/-!
# Runs of the calls that reach the registry

The calls come in any order and with any arguments, and what lies outside the program changes
between them in any way.

* `executable_since_approval` : what may execute was approved after its digest last changed, and
  what was revoked stays revoked.
-/

namespace Shiroe

open Act

variable (H : Host)

/-- A call that reaches the registry, or a change of what lies outside. -/
inductive RegistryCall where
  | register (discovered : DiscoveredCapability) (trust : TrustReport) (adapter : Option String)
  | onboard (source : String)
  | approve (capabilityId actor : String)
  | revoke (capabilityId actor : String)
  | setLifecycle (object : ℕ) (capabilityId target actor : String)
  | refreshDigest (object : ℕ) (capabilityId digest : String)
  | decide (object : ℕ) (decision : DecisionArgs)
  | assertExecutable (capabilityId : String)
  | edit (outside : Outside)

namespace RegistryCall

/-- Make the call. -/
def run : RegistryCall → Op Unit
  | register discovered trust adapter => discard (registerDiscovery H discovered trust adapter)
  | onboard source => discard (Shiroe.onboard H source)
  | approve capabilityId actor => Shiroe.approve H capabilityId actor
  | revoke capabilityId actor => Shiroe.revoke H capabilityId actor
  | setLifecycle object capabilityId target actor =>
    Shiroe.setLifecycle H object (.str capabilityId) target actor
  | refreshDigest object capabilityId digest =>
    discard (Shiroe.refreshDigest H object capabilityId digest)
  | decide object decision => discard (decideHuman H object decision)
  | assertExecutable capabilityId => Shiroe.assertExecutable H capabilityId
  | edit outside => modify fun w => { w with outside }

/-- What is asked of a call in a world: a registration overwrites no revoked capability, and the
capability that a decision moves is named by a text. -/
def Meets (w : World) : RegistryCall → Prop
  | register discovered _ adapter =>
    Registers H w.db.standings
      (capabilityIdFor discovered ((given adapter).getD discovered.adapter))
  | onboard source =>
    ∀ rel, relativeTo H source = some rel → Registers H w.db.standings (deriveCapabilityId rel)
  | decide _ decision => ∀ id ∈ w.db.movedBy H decision.approvalId, KeyText H id
  | _ => True

end RegistryCall

/-- The world after a call. -/
def registryStep (w : World) (c : RegistryCall) : World := Act.final (c.run H) w

variable {H}

/-- Every call is sound. -/
theorem registryStep_sound (hw : WordsKept H) (w : World) (c : RegistryCall) (hc : c.Meets H w) :
    Sound H w.db.standings (registryStep H w c).db.standings := by
  have hsound : ∀ {α : Type} {x : Op α},
      Act.wp x (fun _ w' => Sound H w.db.standings w'.db.standings)
        (fun _ w' => Sound H w.db.standings w'.db.standings) w →
      Sound H w.db.standings (Act.final x w).db.standings := fun h =>
    wp_final (I := fun w' : World => Sound H w.db.standings w'.db.standings) h
  have hlowers : ∀ {α : Type} {x : Op α},
      Act.wp x (fun _ w' => Lowers H w.db.standings w'.db.standings)
        (fun _ w' => Lowers H w.db.standings w'.db.standings) w →
      Sound H w.db.standings (Act.final x w).db.standings := fun h =>
    hsound (wp_mono h (fun _ _ h => h.sound) fun _ _ h => h.sound)
  unfold registryStep
  cases c with
  | register discovered trust adapter =>
    rw [RegistryCall.run, final_discard]
    exact hlowers (registerDiscovery_lowers hw _ _ _ hc)
  | onboard source =>
    rw [RegistryCall.run, final_discard]
    exact hlowers (onboard_lowers hw source hc)
  | approve id actor => exact hsound (approve_sound hw id actor w)
  | revoke id actor => exact hlowers (revoke_lowers hw id actor w)
  | setLifecycle object id target actor =>
    exact hsound (setLifecycle_sound hw object (keyText_str id) target actor w)
  | refreshDigest object id digest =>
    rw [RegistryCall.run, final_discard]
    exact hlowers (refreshDigest_lowers hw object id digest w)
  | decide object decision =>
    rw [RegistryCall.run, final_discard]
    exact hsound (decideHuman_sound hw object decision hc)
  | assertExecutable id => exact hlowers (assertExecutable_lowers hw id w)
  | edit outside => exact (Lowers.refl H _).sound

/-- **What may execute was approved after its digest last changed, and what was revoked stays
revoked**, in every run of the calls from an empty registry. -/
theorem executable_since_approval (hw : WordsKept H) {w : World} (empty : w.db.capabilities = [])
    {calls : List RegistryCall}
    (hmeets : Run.Throughout (registryStep H) (RegistryCall.Meets H) w calls) (k : ℕ)
    (v : SqlVal) :
    let s := fun k => (Run.stateAt (registryStep H) w calls k).db.standings
    ((∃ st, s k v = some st ∧ isExecutable st.lifecycle = true) →
      ∃ j < k, ¬ (s j).In v .approved ∧ (s (j + 1)).In v .approved ∧
        ∀ m, j ≤ m → m ≤ k → (s m).digest v = (s k).digest v) ∧
    ((s k).In v .revoked → ∀ m, k ≤ m → (s m).In v .revoked) := by
  intro s
  have h₀ : ∀ v, s 0 v = none := by
    intro v
    change (w.db.capability? v).map _ = none
    rw [Db.capability?, empty]
    rfl
  have hstep : ∀ k, Sound H (s k) (s (k + 1)) :=
    hmeets.stateAt (R := fun w w' => Sound H w.db.standings w'.db.standings)
      (fun _ => (Lowers.refl H _).sound) (fun w c hc => registryStep_sound hw w c hc)
  refine ⟨?_, fun hr m hkm => revoked_forever h₀ hstep hr hkm⟩
  rintro ⟨st, hst, hexec⟩
  obtain ⟨t, ht, hclear⟩ := cleared_of_isExecutable hexec
  refine approved_before_cleared h₀ hstep ⟨t, hclear, ?_⟩
  rw [Standings.In, hst, Option.map_some, ht]

/-! ### Two runs -/

/-- A file of a source that holds one byte. -/
def byteSource (name : String) (b : UInt8) (h : '\x00' ∉ name.toList) : Source where
  isFile := true
  files := [{ rel := name, data := [b], noNul := h }]
  nodup := List.nodup_singleton name
  single _ := rfl

theorem runSh_noNul : '\x00' ∉ "run.sh".toList := by decide

/-- A project in which two scripts lie. -/
def scriptWorld : World :=
  { emptyWorld with
    outside := { emptyWorld.outside with
      source := fun path =>
        if path = "run.sh" then some (byteSource "run.sh" 1 runSh_noNul)
        else if path = "ann@example.org" then some (byteSource "ann@example.org" 1 (by decide))
        else none } }

/-- A script that a discovery has found. -/
def foundScript (name : String) : DiscoveredCapability where
  path := "/srv/project/" ++ name
  kind := "script"
  adapter := "cli"

/-- What the inspection of the script says. -/
def scriptReport : TrustReport where
  digest := "sha256:one"
  fileCount := 1
  totalBytes := 1
  license := none

/-- A discovered script is approved. -/
def approveCalls : List RegistryCall :=
  [.register (foundScript "run.sh") scriptReport none, .approve "cli:run.sh" "user"]

/-- The approved script may execute, and its digest is the one it was approved with. -/
theorem executable_since_approval_script :
    let s := fun k =>
      (Run.stateAt (registryStep (Host.quick id)) scriptWorld approveCalls k).db.standings
    let v := SqlVal.text "cli:run.sh"
    ∃ j < 2, ¬ (s j).In v .approved ∧ (s (j + 1)).In v .approved ∧
      ∀ m, j ≤ m → m ≤ 2 → (s m).digest v = (s 2).digest v := by
  intro s v
  have hw : WordsKept (Host.quick id) := fun _ _ h => Lifecycle.value_injective h
  have hmeets : Run.Throughout (registryStep (Host.quick id)) (RegistryCall.Meets (Host.quick id))
      scriptWorld approveCalls := by
    refine ⟨fun _ => ?_, trivial, trivial⟩
    change ¬ (none : Option Standing).map (·.lifecycle) = some (.text Lifecycle.revoked.value)
    decide
  have h := executable_since_approval hw rfl hmeets 2 v
  refine h.1 ?_
  have hexec : ((s 2 v).any fun st => isExecutable st.lifecycle) = true := by decide +kernel
  obtain ⟨st, hst, hexec⟩ := (Option.any_eq_true _ _).1 hexec
  exact ⟨st, hst, hexec⟩

/-- The redaction pass on the names of one script. -/
def scrubScript (s : String) : String :=
  if s = "ann@example.org" then "[PII:email]"
  else if s = "cli:ann@example.org" then "cli:[PII:email]"
  else s

/-- A script is revoked under the id that it is stored under, and discovered again. -/
def rediscoverCalls : List RegistryCall :=
  [.register (foundScript "ann@example.org") scriptReport none, .revoke "cli:[PII:email]" "user",
    .register (foundScript "ann@example.org") scriptReport none]

/-- **A revoked capability comes back**: its id holds a mail address, so the registry looks it up
under another id than the one it is stored under. -/
theorem revoked_comes_back :
    let s := fun k =>
      (Run.stateAt (registryStep (Host.quick scrubScript)) scriptWorld rediscoverCalls
        k).db.standings
    let v := SqlVal.text "cli:[PII:email]"
    scriptWorld.db.capabilities = [] ∧ (s 2).In v .revoked ∧ ¬ (s 3).In v .revoked :=
  ⟨rfl, by decide +kernel⟩

end Shiroe
