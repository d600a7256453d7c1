import Shiroe.Storage.Replay

/-!
# The first append of a fresh object

An `EventLog` object reconciles `head.json` with the log at its first append.  A head that is
missing, names the genesis value or names any event of the chain is healed; a log that is no chain
and a head that names no event of the log are refused, and nothing is written.

* `first_append` : both sides, for logs of any length, on the lines that are read.
-/

namespace Shiroe

variable (H : Host)

/-- `head.json` is missing, names the genesis value or names an event of the log. -/
def HeadKnown (d : LogDir) : Prop :=
  ∀ h ∈ d.head, h.head = genesis ∨ .str h.head ∈ d.iterEvents.map (·.get "hash")

/-- Every event lies in the file that its timestamp names, and none is later than `t`. -/
structure WellDated (d : LogDir) (t : String) : Prop where
  order : InOrder d.files
  iso : IsoText t
  dated : ∀ f ∈ d.files, ∀ env ∈ f.2, ∃ s, env.get "timestamp" = .str s ∧ IsoText s ∧
    f.1 = currentPath s ∧ s ≤ t

/-- The envelope is one that `validate_envelope` lets through. -/
structure EventEnvelope.Valid (e : EventEnvelope) : Prop where
  eventType : e.eventType ∈ knownEventTypes
  privacyClass : e.privacyClass ∈ allowedPrivacyClasses
  payload : e.payload.isObj = true

variable {H}

theorem EventEnvelope.Valid.validate {e : EventEnvelope} (h : e.Valid)
    (eventId timestamp previousHash : String) :
    validateEnvelope true (e.prepared H eventId timestamp previousHash) = .ok () := by
  obtain ⟨htype, hclass, hobj⟩ := h
  have hall : requiredFields.find?
      (fun k => !(e.prepared H eventId timestamp previousHash).has k) = none := by
    simp [requiredFields, EventEnvelope.prepared, EventEnvelope.fields, List.lookup]
  unfold validateEnvelope
  rw [hall, if_neg (by simp [EventEnvelope.prepared])]
  simp [EventEnvelope.prepared, EventEnvelope.fields, List.lookup, htype, hclass, hobj]

theorem EventEnvelope.Valid.scrubbed {e : EventEnvelope} (h : e.Valid) : (e.scrubbed H).Valid :=
  ⟨h.eventType, h.privacyClass, by
    rw [EventEnvelope.scrubbed, Json.isObj_mapStr]
    exact h.payload⟩

/-- An event goes to the end of the log when no event lies in a later file; a later file may be
there as long as it is empty. -/
theorem appendLine_end {path : List String} {env : Json} {files : List (List String × List Json)}
    (hord : InOrder files) (h : ∀ f ∈ files, f.2 ≠ [] → f.1 ≤ path) :
    (appendLine path env files).flatMap (·.2) = files.flatMap (·.2) ++ [env] := by
  have hempty : ∀ l : List (List String × List Json), (∀ f ∈ l, path < f.1 ∧
      (f.2 ≠ [] → f.1 ≤ path)) → l.flatMap (·.2) = [] := by
    intro l hl
    refine List.flatMap_eq_nil_iff.2 fun f hf => ?_
    by_contra hne
    exact absurd ((hl f hf).2 hne) (not_le.2 (hl f hf).1)
  induction files with
  | nil => simp [appendLine]
  | cons f files ih =>
    obtain ⟨p, lines⟩ := f
    simp only [InOrder, List.map_cons, List.pairwise_cons, List.forall_mem_map] at hord
    unfold appendLine
    split_ifs with heq hlt
    · have hrest := hempty files fun f hf =>
        ⟨heq ▸ hord.1 f hf, h f (List.mem_cons_of_mem _ hf)⟩
      simp [hrest]
    · have hall := hempty ((p, lines) :: files) fun f hf => by
        refine ⟨?_, h f hf⟩
        rcases List.mem_cons.1 hf with rfl | hf
        · exact hlt
        · exact hlt.trans (hord.1 f hf)
      rw [List.flatMap_cons, hall]
      simp
    · rw [List.flatMap_cons, List.flatMap_cons,
        ih hord.2 fun f hf => h f (List.mem_cons_of_mem _ hf), List.append_assoc]

theorem WellDated.path_le {d : LogDir} {t : String} (h : WellDated d t) :
    ∀ f ∈ d.files, f.2 ≠ [] → f.1 ≤ currentPath t := by
  intro f hf hne
  obtain ⟨env, henv⟩ := List.exists_mem_of_ne_nil _ hne
  obtain ⟨s, -, hiso, hpath, hle⟩ := h.dated f hf env henv
  rw [hpath]
  exact currentPath_le hiso h.iso hle

/-! ### Reconciling the head -/

theorem recoverHead_heals {w : World} (hchain : IsChain H w.dir.iterEvents)
    (hhead : HeadKnown w.dir) :
    Act.wp (recoverHead H none) (fun _ _ => True) (fun _ _ => False) w := by
  have hv := validatedTail_eq_ok.2 ⟨hchain, rfl⟩
  simp only [recoverHead, reach, modifyDir, Act.wp_bind, Act.wp_get, Act.wp_ofExcept, hv]
  cases hd : w.dir.head with
  | none => simp
  | some h =>
    have hknown := hhead h (by rw [hd]; rfl)
    simp only [Act.wp_ite, Act.wp_pure, Act.wp_throw, Act.wp_bind, Act.wp_modify]
    exact ⟨fun _ => trivial, fun _ => ⟨fun _ => ⟨by rintro ⟨⟩, fun _ => trivial⟩,
      fun hno => hno hknown⟩⟩

theorem recoverHead_refuses {w : World}
    (h : ¬ IsChain H w.dir.iterEvents ∨ ¬ HeadKnown w.dir) :
    Act.wp (recoverHead H none) (fun _ _ => False) (fun _ w' => w' = w) w := by
  simp only [recoverHead, reach, modifyDir, Act.wp_bind, Act.wp_get, Act.wp_ofExcept]
  cases hv : validatedTail H w.dir with
  | error x => trivial
  | ok r =>
    obtain ⟨hchain, rfl⟩ := validatedTail_eq_ok.1 hv
    have hunknown := h.resolve_left (not_not_intro hchain)
    simp only [HeadKnown, not_forall, not_or] at hunknown
    obtain ⟨head, hd, hgenesis, habsent⟩ := hunknown
    -- the tip of the log is the genesis value or the hash of an event, so the head is not the tip
    have htip : head.head ≠ tipHash H w.dir.iterEvents := by
      intro heq
      by_cases hnil : w.dir.iterEvents = []
      · rw [hnil] at heq
        exact hgenesis heq
      · have hlast := List.getLast_mem hnil
        refine habsent (List.mem_map.2 ⟨_, hlast, ?_⟩)
        rw [(hchain.1 _ hlast).2, digestOf, heq, tipHash, List.getLast?_eq_some_getLast hnil]
        rfl
    rw [Option.mem_def.1 hd]
    simp [htip, hgenesis, habsent]

theorem loadHead_heals {w : World} {i : ℕ} (hfresh : w.recovered i = false)
    (hchain : IsChain H w.dir.iterEvents) (hhead : HeadKnown w.dir) :
    Act.wp (loadHead H i none) (fun head w' => Loaded H i w w' head) (fun _ _ => False) w := by
  have hreturns : Act.wp (loadHead H i none) (fun _ _ => True) (fun _ _ => False) w := by
    simp only [loadHead, Act.wp_bind, Act.wp_get, Act.wp_ite, Act.wp_pure, Act.wp_modify]
    refine ⟨fun _ => ?_, fun h => absurd hfresh h⟩
    exact Act.wp_mono (recoverHead_heals hchain hhead) (fun _ _ _ => trivial) fun _ _ h => h
  exact Act.wp_mono (Act.wp_and (loadHead_spec i none w) hreturns) (fun _ _ h => h.1) fun _ _ h =>
    h.2

theorem loadHead_refuses {w : World} {i : ℕ} (hfresh : w.recovered i = false)
    (h : ¬ IsChain H w.dir.iterEvents ∨ ¬ HeadKnown w.dir) :
    Act.wp (loadHead H i none) (fun _ _ => False) (fun _ w' => w' = w) w := by
  simp only [loadHead, Act.wp_bind, Act.wp_get, Act.wp_ite, Act.wp_pure, Act.wp_modify]
  refine ⟨fun _ => ?_, fun h => absurd hfresh h⟩
  exact Act.wp_mono (recoverHead_refuses h) (fun _ _ h => h.elim) fun _ _ h => h

/-! ### The append -/

/-- The log is the old one with the event of `e` at its end, `head.json` names the event and
`verify_chain` passes. -/
structure Extended (H : Host) (e : EventEnvelope) (w : World) (d : LogDir) (env : Json) : Prop where
  isEnv : IsEnvOf H e (e.timestampAt H w) env
  events : d.iterEvents = w.dir.iterEvents ++ [env]
  head : ∃ eventId, env.get "event_id" = .str eventId ∧
    d.head = some ⟨hashEnvelope H env, .str eventId⟩
  verified : verifyChain H d = .ok ()

theorem extended_sealedDir {i : ℕ} {e : EventEnvelope} {w w₁ : World} {head : String}
    (hvalid : e.Valid) (hfresh : w.recovered i = false) (hl : Loaded H i w w₁ head)
    (hdated : WellDated w.dir (e.timestampAt H w)) :
    Extended H e w (sealedDir H e w₁ head) ((e.scrubbed H).preparedAt H w₁ head) := by
  have hv : validateEnvelope true ((e.scrubbed H).preparedAt H w₁ head) = .ok () :=
    hvalid.scrubbed.validate _ _ _
  have hevents : (sealedDir H e w₁ head).iterEvents =
      w.dir.iterEvents ++ [(e.scrubbed H).preparedAt H w₁ head] := by
    change (appendLine (currentPath ((e.scrubbed H).timestampAt H w₁)) _ w₁.dir.files).flatMap _ = _
    rw [hl.timestampAt e, hl.files]
    exact appendLine_end hdated.order hdated.path_le
  have hhash : hashEnvelope H ((e.scrubbed H).preparedAt H w₁ head) =
      (e.scrubbed H).hashAt H w₁ head := (e.scrubbed H).hashEnvelope_prepared _ _ _
  obtain ⟨hchain, hhead⟩ := hl.fresh hfresh
  refine ⟨hl.isEnv e, hevents, ⟨(e.scrubbed H).eventIdAt H w₁, ?_, ?_⟩, ?_⟩
  · simp [EventEnvelope.preparedAt, EventEnvelope.prepared, EventEnvelope.fields, List.lookup]
  · rw [hhash]
    rfl
  · refine verifyChain_eq_ok.2 ⟨?_, fun _ h hh => ?_⟩
    · rw [hevents, isChain_concat]
      refine ⟨hchain, isSealed_preparedAt hv, ?_⟩
      rw [← hhead]
      exact (e.scrubbed H).prevOf_prepared _ _ _
    · rw [hevents, tipHash_concat, hhash]
      cases hh
      rfl

theorem append_heals {w : World} {i : ℕ} {e : EventEnvelope} (hunlocked : w.dir.lockfile = false)
    (hfresh : w.recovered i = false) (hvalid : e.Valid) (hchain : IsChain H w.dir.iterEvents)
    (hhead : HeadKnown w.dir) (hdated : WellDated w.dir (e.timestampAt H w)) :
    Act.wp (append H i e none) (fun env w' => Extended H e w w'.dir env)
      (fun _ w' => ∃ env, Extended H e w w'.dir env ∧ ∃ x, mirrorRow H env w.db = .error x w.db)
      w := by
  simp only [append, appendScrubbed, reach, modifyDir, onDb, Act.wp_bind, Act.wp_get, Act.wp_ite,
    Act.wp_throw, Act.wp_pure, Act.wp_set, Act.wp_modify, Act.wp_ofExcept, Act.wp_zoom]
  refine ⟨fun h => by simp [hunlocked] at h, fun _ => ⟨fun h => (by cases h), fun _ => ?_⟩⟩
  refine Act.wp_mono (loadHead_heals hfresh hchain hhead) (fun head w₁ hl => ?_) fun _ _ h => h.elim
  have hext := extended_sealedDir hvalid hfresh hl hdated
  have hv : validateEnvelope true ((e.scrubbed H).preparedAt H w₁ head) = .ok () :=
    hvalid.scrubbed.validate _ _ _
  have hdb : w₁.db = w.db := by rw [hl.frame]
  rw [hv]
  refine ⟨fun h => (by cases h),
    fun _ => ⟨fun h => (by cases h), fun _ => ⟨fun h => (by cases h), fun _ => ?_⟩⟩⟩
  have hstamp : ((e.scrubbed H).stamp w₁).db = w₁.db := rfl
  rw [hstamp]
  cases hm : mirrorRow H ((e.scrubbed H).preparedAt H w₁ head) w₁.db with
  | ok u db =>
    rw [Act.wp_of_ok hm]
    exact hext
  | error x db =>
    have hsame : db = w₁.db :=
      (Act.wp_of_error hm).1 (mirrorRow_error ((e.scrubbed H).preparedAt H w₁ head) w₁.db)
    rw [Act.wp_of_error hm]
    rw [hsame, hdb] at hm
    exact ⟨_, hext, x, hm⟩

theorem append_refuses {w : World} {i : ℕ} (e : EventEnvelope) (hfresh : w.recovered i = false)
    (h : ¬ IsChain H w.dir.iterEvents ∨ ¬ HeadKnown w.dir) :
    Act.wp (append H i e none) (fun _ _ => False) (fun _ w' => w'.dir = w.dir) w := by
  simp only [append, appendScrubbed, reach, Act.wp_bind, Act.wp_get, Act.wp_ite, Act.wp_throw,
    Act.wp_pure]
  refine ⟨fun _ => trivial, fun _ => ⟨fun h => (by cases h), fun _ => ?_⟩⟩
  refine Act.wp_mono (loadHead_refuses hfresh h) (fun _ _ h => h.elim) fun _ w' hw => ?_
  rw [hw]

/-- **The first append of a fresh object** adds its event to any chain whose head is known, and
writes nothing to a log that is no chain or whose head names no event. -/
theorem first_append (w : World) (i : ℕ) (e : EventEnvelope) (hfresh : w.recovered i = false) :
    (w.dir.lockfile = false → e.Valid → IsChain H w.dir.iterEvents → HeadKnown w.dir →
      WellDated w.dir (e.timestampAt H w) →
        ∃ env, Extended H e w (Act.final (append H i e none) w).dir env ∧
          ((∃ x w', append H i e none w = .error x w') → ∃ x,
            mirrorRow H env w.db = .error x w.db)) ∧
    (¬ IsChain H w.dir.iterEvents ∨ ¬ HeadKnown w.dir →
      ∃ x w', append H i e none w = .error x w' ∧ w'.dir = w.dir) := by
  refine ⟨fun hunlocked hvalid hchain hhead hdated => ?_, fun h => ?_⟩
  · have hheals := append_heals hunlocked hfresh hvalid hchain hhead hdated
    cases hr : append H i e none w with
    | ok env w' =>
      rw [Act.wp_of_ok hr] at hheals
      refine ⟨env, by rw [Act.final_of_ok hr]; exact hheals, ?_⟩
      rintro ⟨x, w'', hx⟩
      cases hx
    | error x w' =>
      rw [Act.wp_of_error hr] at hheals
      obtain ⟨env, hext, hm⟩ := hheals
      refine ⟨env, ?_, fun _ => hm⟩
      rw [Act.final, hr]
      exact hext
  · have hrefuses := append_refuses e hfresh h
    cases hr : append H i e none w with
    | ok env w' => exact ((Act.wp_of_ok hr).1 hrefuses).elim
    | error x w' => exact ⟨x, w', rfl, (Act.wp_of_error hr).1 hrefuses⟩

end Shiroe
