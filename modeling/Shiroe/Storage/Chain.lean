import Shiroe.Storage.Events

/-!
# The log as a hash chain

`IsChain` says that a list of envelopes is a hash chain from the genesis value whose members are
valid and carry their own hash.

* `verifyChain_eq_ok`, `validatedTail_eq_ok` : the two walks along the log accept exactly the
  chains;
* `loadHead_spec`, `append_spec` : what loading the head and appending do, wherever they are cut
  short.
-/

namespace Shiroe

variable (H : Host)

/-- The hash that an envelope names. -/
def prevOf (env : Json) : Json := env.get "previous_hash"

/-- The hash that an envelope has. -/
def digestOf (env : Json) : Json := .str (hashEnvelope H env)

/-- The envelope is valid and carries its own hash. -/
def IsSealed (env : Json) : Prop :=
  validateEnvelope false env = .ok () ∧ env.get "hash" = digestOf H env

/-- The list is a hash chain from the genesis value. -/
def IsChain (log : List Json) : Prop :=
  (∀ env ∈ log, IsSealed H env) ∧ HashChain.Linked prevOf (digestOf H) (.str genesis) log

/-- The hash of the last envelope. -/
def tipHash (log : List Json) : String := log.getLast?.elim genesis (hashEnvelope H)

variable {H}

@[simp] theorem tipHash_nil : tipHash H [] = genesis := rfl

@[simp] theorem tipHash_concat (log : List Json) (env : Json) :
    tipHash H (log ++ [env]) = hashEnvelope H env := by
  simp [tipHash]

theorem tip_eq_tipHash (log : List Json) :
    HashChain.tip (digestOf H) (.str genesis) log = .str (tipHash H log) := by
  induction log using List.reverseRecOn with
  | nil => rfl
  | append_singleton log env _ => rw [HashChain.tip_concat, tipHash_concat, digestOf]

theorem isChain_nil : IsChain H [] := ⟨by simp, trivial⟩

theorem isChain_concat {log : List Json} {env : Json} :
    IsChain H (log ++ [env]) ↔
      IsChain H log ∧ IsSealed H env ∧ prevOf env = .str (tipHash H log) := by
  simp only [IsChain, HashChain.linked_concat, tip_eq_tipHash, List.mem_append,
    List.mem_singleton, or_imp, forall_and, forall_eq]
  tauto

/-- No envelope has the genesis value as its hash: a digest is longer. -/
theorem hashEnvelope_ne_genesis (env : Json) : hashEnvelope H env ≠ genesis := by
  intro h
  have hlen := congrArg (fun s : String => s.toList.length) h
  simp only [hashEnvelope, String.toList_append, List.length_append, H.sha256_length] at hlen
  revert hlen
  decide

theorem digestOf_ne_genesis (env : Json) : digestOf H env ≠ .str genesis := by
  intro h
  exact hashEnvelope_ne_genesis env (Json.str.inj h)

theorem tipHash_eq_genesis {log : List Json} : tipHash H log = genesis ↔ log = [] := by
  rw [← HashChain.tip_eq_genesis (digestOf H) fun env (_ : env ∈ log) => digestOf_ne_genesis env,
    tip_eq_tipHash, Json.str.injEq]

/-! ### The walks along the log -/

theorem checkLink_eq_ok {prev t : String} {env : Json} :
    checkLink H prev env = .ok t ↔
      IsSealed H env ∧ prevOf env = .str prev ∧ t = hashEnvelope H env := by
  unfold checkLink IsSealed prevOf digestOf
  cases validateEnvelope false env with
  | error e => simp
  | ok u =>
    by_cases hp : env.get "previous_hash" = .str prev
    · by_cases hh : env.get "hash" = .str (hashEnvelope H env)
      · simp [hp, hh, eq_comm]
      · simp [hp, hh]
    · simp [hp]

theorem foldlM_checkLink_eq_ok {log : List Json} {t : String} :
    log.foldlM (checkLink H) genesis = .ok t ↔ IsChain H log ∧ t = tipHash H log := by
  induction log using List.reverseRecOn generalizing t with
  | nil => simp [isChain_nil, pure, Except.pure, eq_comm]
  | append_singleton log env ih =>
    rw [List.foldlM_append, isChain_concat, tipHash_concat]
    cases hlog : log.foldlM (checkLink H) genesis with
    | error e =>
      have hno : ¬ IsChain H log := fun hc => by
        have h := (ih (t := tipHash H log)).2 ⟨hc, rfl⟩
        rw [hlog] at h
        cases h
      simp [bind, Except.bind, hno]
    | ok u =>
      obtain ⟨hc, hu⟩ := ih.1 hlog
      subst hu
      simp only [bind, Except.bind, List.foldlM_cons, List.foldlM_nil]
      cases hl : checkLink H (tipHash H log) env with
      | error e =>
        have hno : ¬ (IsSealed H env ∧ prevOf env = .str (tipHash H log)) := fun h => by
          rw [checkLink_eq_ok.2 ⟨h.1, h.2, rfl⟩] at hl
          cases hl
        simp only [reduceCtorEq, false_iff]
        tauto
      | ok v =>
        obtain ⟨hs, hp, rfl⟩ := checkLink_eq_ok.1 hl
        simp [pure, Except.pure, hc, hs, hp, eq_comm]

/-- **`verify_chain` accepts exactly the chains whose tip `head.json` names**, and an empty log
under any head. -/
theorem verifyChain_eq_ok {d : LogDir} :
    verifyChain H d = .ok () ↔
      IsChain H d.iterEvents ∧
        (d.iterEvents ≠ [] → ∀ h, d.head = some h → h.head = tipHash H d.iterEvents) := by
  unfold verifyChain
  cases hf : d.iterEvents.foldlM (checkLink H) genesis with
  | error e =>
    have hno : ¬ IsChain H d.iterEvents := fun hc => by
      rw [foldlM_checkLink_eq_ok.2 ⟨hc, rfl⟩] at hf
      cases hf
    simp [bind, Except.bind, hno]
  | ok t =>
    obtain ⟨hc, rfl⟩ := foldlM_checkLink_eq_ok.1 hf
    by_cases hne : d.iterEvents = []
    · simp [bind, Except.bind, hne, pure, Except.pure, isChain_nil]
    · cases hd : d.head with
      | none => simp [bind, Except.bind, hne, pure, Except.pure, hc]
      | some h =>
        by_cases hh : h.head = tipHash H d.iterEvents
        · simp [bind, Except.bind, hne, pure, Except.pure, hc, hh]
        · simp [bind, Except.bind, hne, hc, hh, throw, throwThe, MonadExceptOf.throw]

theorem validatedTail_eq_ok {d : LogDir} {r : String × Json × List Json} :
    validatedTail H d = .ok r ↔
      IsChain H d.iterEvents ∧
        r = (tipHash H d.iterEvents, d.iterEvents.getLast?.elim (.str "") (·.get "event_id"),
          d.iterEvents.map (·.get "hash")) := by
  unfold validatedTail
  cases hf : d.iterEvents.foldlM (checkLink H) genesis with
  | error e =>
    have hno : ¬ IsChain H d.iterEvents := fun hc => by
      rw [foldlM_checkLink_eq_ok.2 ⟨hc, rfl⟩] at hf
      cases hf
    simp [bind, Except.bind, hno]
  | ok t =>
    obtain ⟨hc, rfl⟩ := foldlM_checkLink_eq_ok.1 hf
    simp [bind, Except.bind, pure, Except.pure, hc, eq_comm]

/-! ### The files -/

theorem appendLine_perm (path : List String) (env : Json)
    (files : List (List String × List Json)) :
    ((appendLine path env files).flatMap (·.2)).Perm (files.flatMap (·.2) ++ [env]) := by
  induction files with
  | nil => simp [appendLine]
  | cons f files ih =>
    obtain ⟨p, lines⟩ := f
    rw [appendLine]
    split_ifs with h₁ h₂
    · simp only [List.flatMap_cons, List.append_assoc]
      exact (List.perm_append_comm).append_left lines
    · simp only [List.flatMap_cons]
      exact List.perm_append_comm
    · simp only [List.flatMap_cons, List.append_assoc]
      exact ih.append_left lines

theorem mem_paths_appendLine {path p : List String} {env : Json}
    {files : List (List String × List Json)} :
    p ∈ (appendLine path env files).map (·.1) ↔ p = path ∨ p ∈ files.map (·.1) := by
  induction files with
  | nil => simp [appendLine]
  | cons f files ih =>
    obtain ⟨q, lines⟩ := f
    rw [appendLine]
    split_ifs with h₁ h₂
    · simp [h₁]
    · simp
    · simp only [List.map_cons, List.mem_cons, ih]
      tauto

theorem InOrder.appendLine {path : List String} {env : Json}
    {files : List (List String × List Json)} (h : InOrder files) :
    InOrder (appendLine path env files) := by
  induction files with
  | nil => simp [InOrder, Shiroe.appendLine]
  | cons f files ih =>
    obtain ⟨q, lines⟩ := f
    simp only [InOrder, List.map_cons, List.pairwise_cons] at h
    rw [Shiroe.appendLine]
    split_ifs with h₁ h₂
    · simpa [InOrder] using h
    · simp only [InOrder, List.map_cons, List.pairwise_cons, List.mem_cons, forall_eq_or_imp]
      exact ⟨⟨h₂, fun p hp => h₂.trans (h.1 p hp)⟩, h⟩
    · simp only [InOrder, List.map_cons, List.pairwise_cons]
      refine ⟨fun p hp => ?_, ih h.2⟩
      rcases mem_paths_appendLine.1 hp with rfl | hp
      · exact lt_of_le_of_ne (not_lt.1 h₂) (Ne.symm h₁)
      · exact h.1 p hp

/-- A line for a path that comes before no file of the log goes to the end of the log. -/
theorem appendLine_last {path : List String} {env : Json}
    {files : List (List String × List Json)} (hord : InOrder files)
    (h : ∀ p ∈ files.map (·.1), p ≤ path) :
    (appendLine path env files).flatMap (·.2) = files.flatMap (·.2) ++ [env] := by
  induction files with
  | nil => simp [appendLine]
  | cons f files ih =>
    obtain ⟨q, lines⟩ := f
    simp only [InOrder, List.map_cons, List.pairwise_cons] at hord
    simp only [List.map_cons, List.mem_cons, forall_eq_or_imp] at h
    rw [appendLine]
    split_ifs with h₁ h₂
    · -- no file can come after the path
      subst h₁
      have hnil : files = [] := by
        rcases files with - | ⟨g, files⟩
        · rfl
        · exact absurd (hord.1 g.1 (by simp)) (not_lt.2 (h.2 g.1 (by simp)))
      simp [hnil]
    · exact absurd h.1 (not_le.2 h₂)
    · simp only [List.flatMap_cons, List.append_assoc]
      rw [ih hord.2 h.2]

namespace LogDir

@[simp] theorem iterEvents_writeHead (d : LogDir) (head : String) (eventId : Json) :
    (d.writeHead head eventId).iterEvents = d.iterEvents := rfl

@[simp] theorem headHash_writeHead (d : LogDir) (head : String) (eventId : Json) :
    (d.writeHead head eventId).headHash = head := rfl

@[simp] theorem headHash_appendEvent (d : LogDir) (timestamp : String) (env : Json) :
    (d.appendEvent timestamp env).headHash = d.headHash := rfl

theorem headHash_of_some {d : LogDir} {h : Head} (hd : d.head = some h) : d.headHash = h.head := by
  rw [headHash, hd]
  rfl

theorem iterEvents_congr {d d' : LogDir} (h : d.files = d'.files) :
    d.iterEvents = d'.iterEvents := by
  rw [iterEvents, iterEvents, h]

end LogDir

/-! ### Prepared envelopes -/

namespace EventEnvelope

variable (e : EventEnvelope) (eventId timestamp previousHash : String)

theorem hashEnvelope_prepared :
    hashEnvelope H (e.prepared H eventId timestamp previousHash) =
      e.hash H eventId timestamp previousHash := by
  unfold prepared hash hashEnvelope
  rw [Json.erase_mkObj_cons]

theorem get_hash_prepared :
    (e.prepared H eventId timestamp previousHash).get "hash" =
      .str (e.hash H eventId timestamp previousHash) := by
  simp [prepared]

theorem prevOf_prepared :
    prevOf (e.prepared H eventId timestamp previousHash) = .str previousHash := by
  simp [prevOf, prepared, fields, List.lookup]

theorem isSealed_prepared
    (h : validateEnvelope true (e.prepared H eventId timestamp previousHash) = .ok ()) :
    IsSealed H (e.prepared H eventId timestamp previousHash) := by
  refine ⟨?_, by rw [digestOf, get_hash_prepared, hashEnvelope_prepared]⟩
  revert h
  unfold validateEnvelope
  cases requiredFields.find? fun k => !(e.prepared H eventId timestamp previousHash).has k with
  | some k => exact id
  | none =>
    simp only [Bool.false_eq_true, false_and, if_false]
    split_ifs <;> simp

theorem wf_prepared (h : e.payload.WF) : (e.prepared H eventId timestamp previousHash).WF := by
  have hopt : ∀ t : Option String, (Json.ofOption t).WF := by
    intro t
    cases t <;> trivial
  refine Json.WF.mkObj ?_
  simp [fields, Json.WFFields, Json.WF, h, hopt]

end EventEnvelope

/-! ### Loading the head -/

/-- Loading the head as the object `i` leads from `w` to `w'` and returns `head`: an object that
has not reconciled its head before found the log to be a chain and took its tip. -/
structure Loaded (H : Host) (i : ℕ) (w w' : World) (head : String) : Prop where
  frame : w' = { w with dir := w'.dir, recovered := Function.update w.recovered i true }
  files : w'.dir.files = w.dir.files
  lockfile : w'.dir.lockfile = w.dir.lockfile
  headHash : w'.dir.headHash = head
  known : w.recovered i = true → w'.dir = w.dir
  fresh : w.recovered i = false → IsChain H w.dir.iterEvents ∧ head = tipHash H w.dir.iterEvents

/-- Reconciling the head leads from `w` to `w'`: the log is a chain and the head names its tip. -/
structure Reconciled (H : Host) (w w' : World) : Prop where
  frame : w' = { w with dir := w'.dir }
  files : w'.dir.files = w.dir.files
  lockfile : w'.dir.lockfile = w.dir.lockfile
  headHash : w'.dir.headHash = tipHash H w.dir.iterEvents
  chain : IsChain H w.dir.iterEvents

theorem recoverHead_spec (cut : Option Cut) (w : World) :
    Act.wp (recoverHead H cut) (fun _ w' => Reconciled H w w') (fun _ w' => w' = w) w := by
  simp only [recoverHead, reach, modifyDir, Act.wp_bind, Act.wp_get, Act.wp_ofExcept]
  cases hv : validatedTail H w.dir with
  | error e => trivial
  | ok r =>
    obtain ⟨hc, rfl⟩ := validatedTail_eq_ok.1 hv
    simp only
    cases hh : w.dir.head with
    | none =>
      simp only [Act.wp_ite, Act.wp_bind, Act.wp_throw, Act.wp_pure, Act.wp_modify]
      refine ⟨fun _ => ⟨fun _ => trivial, fun _ => ⟨rfl, rfl, rfl, rfl, hc⟩⟩, fun h => ?_⟩
      have ht : tipHash H w.dir.iterEvents = genesis := not_not.1 h
      exact ⟨rfl, rfl, rfl, by rw [LogDir.headHash, hh, ht]; rfl, hc⟩
    | some h =>
      simp only [Act.wp_ite, Act.wp_bind, Act.wp_throw, Act.wp_pure, Act.wp_modify]
      refine ⟨fun ht => ⟨rfl, rfl, rfl, by rw [LogDir.headHash, hh]; exact ht, hc⟩,
        fun _ => ⟨fun _ => ⟨fun _ => trivial, fun _ => ⟨rfl, rfl, rfl, rfl, hc⟩⟩,
          fun _ => trivial⟩⟩

theorem loadHead_spec (i : ℕ) (cut : Option Cut) (w : World) :
    Act.wp (loadHead H i cut) (fun head w' => Loaded H i w w' head) (fun _ w' => w' = w) w := by
  simp only [loadHead, Act.wp_bind, Act.wp_get, Act.wp_ite, Act.wp_pure, Act.wp_modify]
  refine ⟨fun hi => ?_, fun hi => ?_⟩
  · refine Act.wp_mono (recoverHead_spec cut w) ?_ fun _ _ h => h
    rintro - w' hr
    refine ⟨?_, hr.files, hr.lockfile, rfl, fun h => ?_, fun _ => ⟨hr.chain, hr.headHash⟩⟩
    · rw [hr.frame]
    · rw [hi] at h
      cases h
  · have hi' : w.recovered i = true := by simpa using hi
    refine ⟨?_, rfl, rfl, rfl, fun _ => rfl, fun h => ?_⟩
    · rw [← hi', Function.update_eq_self]
    · rw [hi'] at h
      cases h

/-! ### Appending -/

/-- The directory with the line of the envelope that `e` becomes in `w₁`. -/
def lineDir (H : Host) (e : EventEnvelope) (w₁ : World) (head : String) : LogDir :=
  w₁.dir.appendEvent ((e.scrubbed H).timestampAt H w₁) ((e.scrubbed H).preparedAt H w₁ head)

/-- The directory with the line and the new head. -/
def sealedDir (H : Host) (e : EventEnvelope) (w₁ : World) (head : String) : LogDir :=
  (lineDir H e w₁ head).writeHead ((e.scrubbed H).hashAt H w₁ head)
    (.str ((e.scrubbed H).eventIdAt H w₁))

/-- An append of `e` by the object `i` that returns `env`: the head is loaded, the line and the
head are written and the row is mirrored. -/
structure Appended (H : Host) (i : ℕ) (e : EventEnvelope) (w w₁ w' : World) (head : String)
    (env : Json) : Prop where
  unlocked : w.dir.lockfile = false
  loaded : Loaded H i w w₁ head
  env_eq : env = (e.scrubbed H).preparedAt H w₁ head
  valid : validateEnvelope true env = .ok ()
  frame : w' = { (e.scrubbed H).stamp w₁ with dir := sealedDir H e w₁ head, db := w'.db }
  mirrored : mirrorRow H env w.db = .ok () w'.db

/-- An append of `e` by the object `i` that raises, by what it had written. -/
inductive Halted (H : Host) (i : ℕ) (e : EventEnvelope) (cut : Option Cut) (w w' : World) : Prop
  | before (dir : w'.dir = w.dir) (flags : w'.recovered = w.recovered)
  | loaded (w₁ : World) (head : String) (loaded : Loaded H i w w₁ head) (dir : w'.dir = w₁.dir)
      (flags : w'.recovered = w₁.recovered)
  | line (w₁ : World) (head : String) (loaded : Loaded H i w w₁ head)
      (valid : validateEnvelope true ((e.scrubbed H).preparedAt H w₁ head) = .ok ())
      (dir : w'.dir = lineDir H e w₁ head) (flags : w'.recovered = w₁.recovered)
      (cause : cut = some .head)
  | headed (w₁ : World) (head : String) (loaded : Loaded H i w w₁ head)
      (valid : validateEnvelope true ((e.scrubbed H).preparedAt H w₁ head) = .ok ())
      (dir : w'.dir = sealedDir H e w₁ head) (flags : w'.recovered = w₁.recovered)
      (cause : cut = some .mirror ∨
        ∃ x db, mirrorRow H ((e.scrubbed H).preparedAt H w₁ head) w.db = .error x db)

theorem append_spec (i : ℕ) (e : EventEnvelope) (cut : Option Cut) (w : World) :
    Act.wp (append H i e cut) (fun env w' => ∃ w₁ head, Appended H i e w w₁ w' head env)
      (fun _ w' => Halted H i e cut w w') w := by
  simp only [append, appendScrubbed, reach, modifyDir, onDb, Act.wp_bind, Act.wp_get, Act.wp_ite,
    Act.wp_throw, Act.wp_pure, Act.wp_set, Act.wp_modify, Act.wp_ofExcept, Act.wp_zoom]
  refine ⟨fun _ => .before rfl rfl, fun hlock => ⟨fun _ => .before rfl rfl, fun _ => ?_⟩⟩
  refine Act.wp_mono (loadHead_spec i cut w) (fun head w₁ hl => ?_) fun _ w' h => ?_
  · cases hv : validateEnvelope true ((e.scrubbed H).preparedAt H w₁ head) with
    | error x => exact .loaded w₁ head hl rfl rfl
    | ok u =>
      refine ⟨fun _ => .loaded w₁ head hl rfl rfl, fun _ =>
        ⟨fun hcut => .line w₁ head hl hv rfl rfl hcut,
          fun _ => ⟨fun hcut => .headed w₁ head hl hv rfl rfl (Or.inl hcut), fun _ => ?_⟩⟩⟩
      have hdb : w₁.db = w.db := by rw [hl.frame]
      unfold Act.wp
      cases hm : mirrorRow H ((e.scrubbed H).preparedAt H w₁ head) w₁.db with
      | ok u db =>
        simp only [EventEnvelope.stamp, hm]
        exact ⟨w₁, head, by simpa using hlock, hl, rfl, hv, rfl, hdb ▸ hm⟩
      | error x db =>
        simp only [EventEnvelope.stamp, hm]
        exact .headed w₁ head hl hv rfl rfl (Or.inr ⟨x, db, hdb ▸ hm⟩)
  · rw [h]
    exact .before rfl rfl

end Shiroe
