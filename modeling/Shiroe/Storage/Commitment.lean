import Shiroe.Storage.Chain

/-!
# What a sealed head commits to

A log is sealed by a sequence of appends that return (`Sealing`), whatever objects make them and
whatever their timestamps.  If the files are then replaced and `head.json` is left alone,
`verify_chain` rejects every other list of envelopes but one: the empty list is accepted under any
head, because the head is compared only after at least one envelope was seen.

* `verifyChain_rejects_iff` : `verify_chain` rejects the replacement iff it is not empty.
* `verifyChain_accepts_truncation` : a sealed log can be replaced by nothing.
-/

namespace Shiroe

variable (H : Host)

/-- `log` is the list of the envelopes returned by a sequence of appends to an empty directory,
which leads to the world. -/
inductive Sealing : World → List Json → Prop
  | start (w : World) (empty : w.dir = {}) : Sealing w []
  | append {w w' : World} {log : List Json} {env : Json} (i : ℕ) (e : EventEnvelope)
      (before : Sealing w log) (call : append H i e none w = .ok env w') :
      Sealing w' (log ++ [env])
  /-- Everything else the program and other people do leaves the log alone. -/
  | other {w w' : World} {log : List Json} (before : Sealing w log) (dir : w'.dir = w.dir)
      (flags : w'.recovered = w.recovered) : Sealing w' log

/-- No two envelopes of the list have different canonical texts with one digest. -/
def NoCollision (log : List Json) : Prop :=
  ∀ a ∈ log, ∀ b ∈ log, H.sha256 ((a.erase "hash").dumps true) =
    H.sha256 ((b.erase "hash").dumps true) →
      (a.erase "hash").dumps true = (b.erase "hash").dumps true

variable {H}

theorem NoCollision.subset {l l' : List Json} (h : NoCollision H l') (hs : l ⊆ l') :
    NoCollision H l :=
  fun a ha b hb => h a (hs ha) b (hs hb)

/-- Sealed envelopes with one digest are equal, when they do not collide. -/
theorem IsSealed.eq_of_digestOf_eq {a b : Json} (ha : IsSealed H a) (hb : IsSealed H b)
    (hka : a.KeySorted) (hkb : b.KeySorted) (hcol : NoCollision H [a, b])
    (h : digestOf H a = digestOf H b) : a = b := by
  have hsha : H.sha256 ((a.erase "hash").dumps true) = H.sha256 ((b.erase "hash").dumps true) := by
    have h' := congrArg String.toList (Json.str.inj h)
    simp only [hashEnvelope, String.toList_append, List.append_cancel_left_eq] at h'
    exact String.toList_injective h'
  have herase : a.erase "hash" = b.erase "hash" :=
    Json.dumps_injective true (hcol a (by simp) b (by simp) hsha)
  have hhash : a.get "hash" = b.get "hash" := by rw [ha.2, hb.2, h]
  exact Json.eq_of_erase_eq hka hkb herase hhash (by rw [ha.2]; rfl)

theorem NoCollision.digestOf_inj {l l' : List Json} (hcol : NoCollision H (l ++ l'))
    (hl : ∀ a ∈ l, IsSealed H a ∧ a.KeySorted) (hl' : ∀ a ∈ l', IsSealed H a ∧ a.KeySorted) :
    ∀ a ∈ l, ∀ b ∈ l', digestOf H a = digestOf H b → a = b := by
  intro a ha b hb h
  refine (hl a ha).1.eq_of_digestOf_eq (hl' b hb).1 (hl a ha).2 (hl' b hb).2
    (hcol.subset fun c hc => ?_) h
  rcases List.mem_cons.1 hc with rfl | hc
  · exact List.mem_append_left _ ha
  · rw [List.mem_singleton.1 hc]
    exact List.mem_append_right _ hb

/-- The chains among sealed envelopes are told apart by their tips. -/
theorem IsChain.eq_of_tipHash_eq {l l' : List Json} (hl : IsChain H l) (hl' : IsChain H l')
    (hk : ∀ a ∈ l, a.KeySorted) (hk' : ∀ a ∈ l', a.KeySorted) (hcol : NoCollision H (l ++ l'))
    (h : tipHash H l = tipHash H l') : l = l' :=
  HashChain.eq_of_tip_eq hl.2 hl'.2 (fun a _ => digestOf_ne_genesis a)
    (fun a _ => digestOf_ne_genesis a)
    (hcol.digestOf_inj (fun a ha => ⟨hl.1 a ha, hk a ha⟩) fun a ha => ⟨hl'.1 a ha, hk' a ha⟩)
    (by rw [tip_eq_tipHash, tip_eq_tipHash, h])

theorem IsChain.eq_of_perm {l l' : List Json} (hl : IsChain H l) (hl' : IsChain H l')
    (hp : l.Perm l') (hk : ∀ a ∈ l, a.KeySorted) (hcol : NoCollision H l) : l = l' :=
  HashChain.eq_of_perm hl.2 hl'.2 hp (fun a _ => digestOf_ne_genesis a)
    (NoCollision.digestOf_inj (hcol.subset (by simp)) (fun a ha => ⟨hl.1 a ha, hk a ha⟩)
      fun a ha => ⟨hl.1 a ha, hk a ha⟩)

/-- What a sequence of appends keeps: the envelopes form a chain, the files hold them in some
order, and `head.json` names the last one. -/
structure SealedBy (H : Host) (w : World) (log : List Json) : Prop where
  chain : IsChain H log
  files : w.dir.iterEvents.Perm log
  head : log ≠ [] → ∃ h, w.dir.head = some h
  headHash : w.dir.headHash = tipHash H log
  sorted : ∀ env ∈ log, env.KeySorted

theorem SealedBy.congr {w w' : World} {log : List Json} (hs : SealedBy H w log)
    (hdir : w'.dir = w.dir) : SealedBy H w' log := by
  refine ⟨hs.chain, ?_, ?_, ?_, hs.sorted⟩ <;> rw [hdir]
  · exact hs.files
  · exact hs.head
  · exact hs.headHash

/-- Any object loads the tip of the log: a fresh one reads it off the files, which hold the
envelopes in the same order. -/
theorem SealedBy.head_eq {i : ℕ} {w w₁ : World} {log : List Json} {head : String}
    (hs : SealedBy H w log) (hcol : NoCollision H log) (hl : Loaded H i w w₁ head) :
    head = tipHash H log := by
  cases hi : w.recovered i with
  | true => rw [← hl.headHash, hl.known hi, hs.headHash]
  | false =>
    obtain ⟨hc, hh⟩ := hl.fresh hi
    rw [hh, hs.chain.eq_of_perm hc hs.files.symm hs.sorted hcol]

theorem SealedBy.loaded {i : ℕ} {w w₁ : World} {log : List Json} {head : String}
    (hs : SealedBy H w log) (hcol : NoCollision H log) (hl : Loaded H i w w₁ head) :
    SealedBy H w₁ log := by
  have hhash : w₁.dir.headHash = tipHash H log := by rw [hl.headHash, hs.head_eq hcol hl]
  refine ⟨hs.chain, by rw [LogDir.iterEvents_congr hl.files]; exact hs.files, fun hne => ?_, hhash,
    hs.sorted⟩
  cases hh : w₁.dir.head with
  | some h => exact ⟨h, rfl⟩
  | none =>
    rw [LogDir.headHash, hh] at hhash
    exact absurd (tipHash_eq_genesis.1 hhash.symm) hne

/-- The line of an event and the new head seal the log with the event at its end. -/
theorem SealedBy.sealedDir {i : ℕ} {e : EventEnvelope} {w w₁ w' : World} {log : List Json}
    {head : String} (hs : SealedBy H w log) (hcol : NoCollision H log) (hl : Loaded H i w w₁ head)
    (hv : validateEnvelope true ((e.scrubbed H).preparedAt H w₁ head) = .ok ())
    (hdir : w'.dir = sealedDir H e w₁ head) :
    SealedBy H w' (log ++ [(e.scrubbed H).preparedAt H w₁ head]) := by
  have hseal : IsSealed H ((e.scrubbed H).preparedAt H w₁ head) :=
    (e.scrubbed H).isSealed_prepared _ _ _ hv
  have hprev : prevOf ((e.scrubbed H).preparedAt H w₁ head) = .str (tipHash H log) := by
    rw [← hs.head_eq hcol hl]
    exact (e.scrubbed H).prevOf_prepared _ _ _
  refine ⟨isChain_concat.2 ⟨hs.chain, hseal, hprev⟩, ?_, fun _ => ⟨_, by rw [hdir]; rfl⟩, ?_, ?_⟩
  · rw [hdir]
    refine (appendLine_perm _ _ _).trans ?_
    rw [hl.files]
    exact hs.files.append_right _
  · rw [hdir, tipHash_concat]
    exact ((e.scrubbed H).hashEnvelope_prepared _ _ _).symm
  · intro a hmem
    rcases List.mem_append.1 hmem with hmem | hmem
    · exact hs.sorted a hmem
    · rw [List.mem_singleton.1 hmem]
      exact Json.KeySorted.mkObj _

theorem SealedBy.append {w w' : World} {log : List Json} {env : Json} {i : ℕ} {e : EventEnvelope}
    (hs : SealedBy H w log) (hcol : NoCollision H log)
    (call : Shiroe.append H i e none w = .ok env w') : SealedBy H w' (log ++ [env]) := by
  obtain ⟨w₁, head, ha⟩ := (Act.wp_of_ok call).1 (append_spec i e none w)
  have hv := ha.valid
  have hdir : w'.dir = Shiroe.sealedDir H e w₁ head := by rw [ha.frame]
  rw [ha.env_eq] at hv ⊢
  exact hs.sealedDir hcol ha.loaded hv hdir

theorem Sealing.sealedBy {w : World} {log : List Json} (h : Sealing H w log)
    (hcol : NoCollision H log) : SealedBy H w log := by
  induction h with
  | start w empty =>
    exact ⟨isChain_nil, by rw [empty]; rfl, fun h => absurd rfl h, by rw [empty]; rfl, by simp⟩
  | append i e before call ih =>
    have hcol' := hcol.subset (List.subset_append_left _ _)
    exact (ih hcol').append hcol' call
  | other before dir flags ih => exact (ih hcol).congr dir

/-- **A sealed head commits to its log, except against truncation to nothing**: of the lists of
envelopes other than the sealed one, `verify_chain` rejects exactly the non-empty ones. -/
theorem verifyChain_rejects_iff {w : World} {log : List Json} (hs : Sealing H w log)
    (hne : log ≠ []) (files : List (List String × List Json)) :
    let d : LogDir := { w.dir with files }
    (∀ env ∈ d.iterEvents, env.WF) → NoCollision H (log ++ d.iterEvents) → d.iterEvents ≠ log →
      (verifyChain H d ≠ .ok () ↔ d.iterEvents ≠ []) := by
  intro d hwf hcol hdiff
  have hby := hs.sealedBy (hcol.subset (List.subset_append_left _ _))
  rw [ne_eq, verifyChain_eq_ok, not_iff_not]
  constructor
  · rintro ⟨hc, hhead⟩
    by_contra hnil
    obtain ⟨h, hh⟩ := hby.head hne
    have htip : tipHash H log = tipHash H d.iterEvents := by
      rw [← hby.headHash, LogDir.headHash, hh]
      exact hhead hnil h hh
    exact hdiff (hby.chain.eq_of_tipHash_eq hc hby.sorted (fun a ha => (hwf a ha).keySorted) hcol
      htip).symm
  · intro hnil
    rw [hnil]
    exact ⟨isChain_nil, fun h => absurd rfl h⟩

/-- A project in which nothing has happened yet. -/
def emptyWorld : World where
  outside := { source _ := none, adapter _ := none, policy := [], answer _ := .error .typeError }

/-- An envelope as `set_graph_status` makes it. -/
def startedEnvelope : EventEnvelope where
  eventType := "run.started"
  actor := "system"
  target := some "graph:g"
  payload := .mkObj [("id", .str "g"), ("status", .str "running")]

theorem append_started :
    ∃ env w', append (Host.plain id) 0 startedEnvelope none emptyWorld = .ok env w' :=
  Act.exists_ok (by decide +kernel)

/-- A duplicated event is rejected. -/
theorem verifyChain_rejects_duplicate :
    ∃ env w', append (Host.plain id) 0 startedEnvelope none emptyWorld = .ok env w' ∧
      verifyChain (Host.plain id) { w'.dir with files := [(["2026", "01"], [env, env])] } ≠
        .ok () := by
  obtain ⟨env, w', h⟩ := append_started
  refine ⟨env, w', h, ?_⟩
  have hs : Sealing (Host.plain id) w' [env] := .append 0 startedEnvelope (.start _ rfl) h
  obtain ⟨w₁, head, ha⟩ := (Act.wp_of_ok h).1 (append_spec 0 startedEnvelope none emptyWorld)
  have hwf : env.WF := by
    rw [ha.env_eq]
    refine EventEnvelope.wf_prepared _ _ _ _ (Json.WF.mapStr (Json.WF.mkObj ?_))
    simp [Json.WFFields, Json.WF]
  have hcol : NoCollision (Host.plain id) ([env] ++ [env, env]) := by
    intro a ha b hb _
    simp only [List.cons_append, List.nil_append, List.mem_cons, List.not_mem_nil, or_false,
      or_self] at ha hb
    rw [ha, hb]
  refine (verifyChain_rejects_iff hs (by simp) [(["2026", "01"], [env, env])] ?_ ?_ ?_).2 ?_
  · simpa [LogDir.iterEvents] using hwf
  · simpa [LogDir.iterEvents] using hcol
  · simp [LogDir.iterEvents]
  · simp [LogDir.iterEvents]

/-- The log of one event is replaced by nothing, and `verify_chain` accepts it. -/
theorem verifyChain_accepts_truncation :
    ∃ env w', Sealing (Host.plain id) w' [env] ∧ w'.dir.iterEvents = [env] ∧
      ({ w'.dir with files := [] } : LogDir).iterEvents ≠ [env] ∧
      verifyChain (Host.plain id) { w'.dir with files := [] } = .ok () := by
  obtain ⟨env, w', h⟩ := append_started
  have hs : Sealing (Host.plain id) w' [env] := .append 0 startedEnvelope (.start _ rfl) h
  refine ⟨env, w', hs, ?_, by simp [LogDir.iterEvents], ?_⟩
  · obtain ⟨w₁, head, ha⟩ := (Act.wp_of_ok h).1 (append_spec 0 startedEnvelope none emptyWorld)
    have hdir : w'.dir = sealedDir (Host.plain id) startedEnvelope w₁ head := by rw [ha.frame]
    have hfiles : w₁.dir.files = [] := ha.loaded.files
    rw [hdir, ha.env_eq]
    simp [LogDir.iterEvents, sealedDir, lineDir, LogDir.writeHead, LogDir.appendEvent, hfiles,
      appendLine]
  · exact verifyChain_eq_ok.2 ⟨isChain_nil, fun h => absurd rfl h⟩

end Shiroe
